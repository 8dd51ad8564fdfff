import ModeStack.Main
import ModeStack.Proofs.Command.Lossless
import ModeStack.Proofs.Grammar.Acceptance
import ModeStack.Proofs.Grammar.Desugaring
import ModeStack.Proofs.Grammar.Layout
import ModeStack.Proofs.Grammar.Scoring
import ModeStack.Proofs.Grammar.Sharing
import ModeStack.Proofs.Keyword.Classes
import ModeStack.Proofs.Language.Detection
import ModeStack.Proofs.Language.Python
import ModeStack.Proofs.Language.Python.Strings
import ModeStack.Proofs.Rule.Exhaustion
import ModeStack.Proofs.Rule.Isolation
import ModeStack.Proofs.Scan.Accounting
import ModeStack.Proofs.Scan.Deferral
import ModeStack.Proofs.Scan.Ending
import ModeStack.Proofs.Scan.Exclusion
import ModeStack.Proofs.Scan.Inheritance
import ModeStack.Proofs.Scan.Lossless
import ModeStack.Proofs.Scan.Recased
import ModeStack.Proofs.Scan.Rejection
import ModeStack.Proofs.Scan.Stall
import ModeStack.Proofs.Scan.Strictness
import ModeStack.Proofs.Scan.Termination
import ModeStack.Proofs.Keyword.Folding
import ModeStack.Proofs.Grammar.Tables
import ModeStack.Proofs.Rule.Renumbering
import ModeStack.Proofs.Rule.References
