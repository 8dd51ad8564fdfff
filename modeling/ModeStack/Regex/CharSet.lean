import ModeStack.Text.Fold

/-!
# Character sets

The sets of characters that a pattern can name: ranges, named properties, and bracketed sets
combined by union, intersection, difference and symmetric difference. `CharSet.contains`
decides membership, on request up to case; case is ignored inside a bracket before the bracket
is negated, and on both sides of an operator before it is applied.
-/

namespace ModeStack.Regex

open ModeStack.Text

/-! ## Named properties -/

/-- The properties of characters that patterns can name. -/
inductive Property where
  | word | digit | blank | hexDigit
  | asciiAlnum | asciiAlpha | ascii | asciiBlank | asciiControl | asciiDigit | asciiGraph
  | asciiLower | asciiPrint | asciiPunct | asciiSpace | asciiUpper | asciiWord
  | any | assigned | alphabetic | uppercase | lowercase | casedLetter
  | letter | mark | number | punctuation | symbol | separator | other
  | category (k : Category)
  deriving DecidableEq, Repr

namespace Property

/-- Whether a character has the property. -/
def holds : Property → Char → Bool
  | word, c => isWord c
  | digit, c => isDigit c
  | blank, c => isBlank c
  | hexDigit, c => isHexDigit c
  | asciiAlnum, c => isAsciiLetter c || isAsciiDigit c
  | asciiAlpha, c => isAsciiLetter c
  | ascii, c => isAscii c
  | asciiBlank, c => c = ' ' || c = '\t'
  | asciiControl, c => c.toNat < 32 || c.toNat = 127
  | asciiDigit, c => isAsciiDigit c
  | asciiGraph, c => '!' ≤ c && c ≤ '~'
  | asciiLower, c => 'a' ≤ c && c ≤ 'z'
  | asciiPrint, c => ' ' ≤ c && c ≤ '~'
  | asciiPunct, c => '!' ≤ c && c ≤ '~' && !(isAsciiLetter c || isAsciiDigit c)
  | asciiSpace, c => c = ' ' || (9 ≤ c.toNat && c.toNat ≤ 13)
  | asciiUpper, c => 'A' ≤ c && c ≤ 'Z'
  | asciiWord, c => isAsciiLetter c || isAsciiDigit c || c = '_'
  | any, _ => true
  | assigned, c => Text.category c ≠ .Cn
  | alphabetic, c => isAlphabetic c
  | uppercase, c => isUppercase c
  | lowercase, c => isLowercase c
  | casedLetter, c => Text.category c = .Lu || Text.category c = .Ll || Text.category c = .Lt
  | letter, c => (Text.category c).isLetter
  | mark, c => (Text.category c).isMark
  | number, c => (Text.category c).isNumber
  | punctuation, c => (Text.category c).isPunctuation
  | symbol, c => (Text.category c).isSymbol
  | separator, c => (Text.category c).isSeparator
  | other, c => (Text.category c).isOther
  | category k, c => Text.category c = k

/-- The names in `[:name:]`, which mean ASCII characters only. -/
def ofAsciiName (name : String) : Option Property :=
  [("alnum", asciiAlnum), ("alpha", asciiAlpha), ("ascii", ascii), ("blank", asciiBlank),
   ("cntrl", asciiControl), ("digit", asciiDigit), ("graph", asciiGraph),
   ("lower", asciiLower), ("print", asciiPrint), ("punct", asciiPunct),
   ("space", asciiSpace), ("upper", asciiUpper), ("word", asciiWord),
   ("xdigit", hexDigit)].lookup name

/-- The names in `\p{name}`, in lower case and without spaces, hyphens and underscores. -/
def unicodeNames : List (String × Property) :=
  [("any", any), ("assigned", assigned), ("ascii", ascii), ("alphabetic", alphabetic),
   ("alpha", alphabetic), ("uppercase", uppercase), ("upper", uppercase),
   ("lowercase", lowercase), ("lower", lowercase), ("whitespace", blank), ("wspace", blank),
   ("space", blank), ("casedletter", casedLetter), ("lc", casedLetter),
   ("letter", letter), ("l", letter), ("mark", mark), ("m", mark),
   ("combiningmark", mark), ("number", number), ("n", number),
   ("punctuation", punctuation), ("punct", punctuation), ("p", punctuation),
   ("symbol", symbol), ("s", symbol), ("separator", separator), ("z", separator),
   ("other", other), ("c", other),
   ("uppercaseletter", category .Lu), ("lu", category .Lu),
   ("lowercaseletter", category .Ll), ("ll", category .Ll),
   ("titlecaseletter", category .Lt), ("lt", category .Lt),
   ("modifierletter", category .Lm), ("lm", category .Lm),
   ("otherletter", category .Lo), ("lo", category .Lo),
   ("nonspacingmark", category .Mn), ("mn", category .Mn),
   ("spacingmark", category .Mc), ("mc", category .Mc),
   ("enclosingmark", category .Me), ("me", category .Me),
   ("decimalnumber", category .Nd), ("digit", category .Nd), ("nd", category .Nd),
   ("letternumber", category .Nl), ("nl", category .Nl),
   ("othernumber", category .No), ("no", category .No),
   ("connectorpunctuation", category .Pc), ("pc", category .Pc),
   ("dashpunctuation", category .Pd), ("pd", category .Pd),
   ("openpunctuation", category .Ps), ("ps", category .Ps),
   ("closepunctuation", category .Pe), ("pe", category .Pe),
   ("initialpunctuation", category .Pi), ("pi", category .Pi),
   ("finalpunctuation", category .Pf), ("pf", category .Pf),
   ("otherpunctuation", category .Po), ("po", category .Po),
   ("mathsymbol", category .Sm), ("sm", category .Sm),
   ("currencysymbol", category .Sc), ("sc", category .Sc),
   ("modifiersymbol", category .Sk), ("sk", category .Sk),
   ("othersymbol", category .So), ("so", category .So),
   ("spaceseparator", category .Zs), ("zs", category .Zs),
   ("lineseparator", category .Zl), ("zl", category .Zl),
   ("paragraphseparator", category .Zp), ("zp", category .Zp),
   ("control", category .Cc), ("cc", category .Cc), ("cntrl", category .Cc),
   ("format", category .Cf), ("cf", category .Cf),
   ("privateuse", category .Co), ("co", category .Co),
   ("unassigned", category .Cn), ("cn", category .Cn)]

/-- The property called `name` in `\p{name}`. -/
def ofUnicodeName (name : String) : Option Property :=
  let significant := name.toList.filter fun c => c ≠ ' ' && c ≠ '-' && c ≠ '_'
  unicodeNames.lookup (String.ofList (significant.map Text.asciiLower))

end Property

/-! ## Sets -/

/-- A set of characters as a pattern writes it. -/
inductive CharSet where
  | none
  /-- The characters from `lo` to `hi`, both included. -/
  | range (lo hi : Char)
  /-- The characters with a property, or those without it. -/
  | named (p : Property) (negated : Bool)
  | union (a b : CharSet)
  | inter (a b : CharSet)
  | diff (a b : CharSet)
  | symDiff (a b : CharSet)
  /-- A bracketed set, negated or not. -/
  | bracket (negated : Bool) (s : CharSet)
  deriving DecidableEq, Repr

/-- A predicate taken up to case, if case is to be ignored. -/
def upToCase (ignoreCase : Bool) (p : Char → Bool) (c : Char) : Bool :=
  p c || (ignoreCase && (caseVariants c).any p)

namespace CharSet

/-- Whether a character is in the set. -/
def contains (ignoreCase : Bool) : CharSet → Char → Bool
  | none, _ => false
  | range lo hi, c => lo ≤ c && c ≤ hi
  | named p negated, c => p.holds c != negated
  | union a b, c => a.contains ignoreCase c || b.contains ignoreCase c
  | inter a b, c =>
    upToCase ignoreCase (a.contains ignoreCase) c && upToCase ignoreCase (b.contains ignoreCase) c
  | diff a b, c =>
    upToCase ignoreCase (a.contains ignoreCase) c && !upToCase ignoreCase (b.contains ignoreCase) c
  | symDiff a b, c =>
    upToCase ignoreCase (a.contains ignoreCase) c != upToCase ignoreCase (b.contains ignoreCase) c
  | bracket negated s, c => upToCase ignoreCase (s.contains ignoreCase) c != negated

/-- Union that leaves out the empty set. -/
def add : CharSet → CharSet → CharSet
  | none, s => s
  | s, t => union s t

/-- The set of a single character. -/
def single (c : Char) : CharSet := range c c

end CharSet

end ModeStack.Regex
