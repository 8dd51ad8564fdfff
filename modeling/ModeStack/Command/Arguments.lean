/-!
# Command-line arguments

`Arguments.parse` reads the arguments of the program: options in long and short form, before
and after the subcommand, and what they apply to. `--` ends the options. Only `--only` may be
given more than once in one place, and splits its value at commas.
-/

namespace ModeStack.Command

/-- The output formats. -/
inductive Format where
  /-- One JSON object for each token. -/
  | json
  /-- Aligned columns. -/
  | table
  deriving DecidableEq, Repr

def Format.ofName : String → Option Format
  | "json" => some .json
  | "table" => some .table
  | _ => none

/-- What the program is asked to do. -/
inductive Task where
  /-- Print the tokens of a file. -/
  | highlight (file language : Option String) (format : Format)
  /-- Print the most likely language of a file. -/
  | detect (file : Option String) (only : Option (List String))
  /-- List the languages. -/
  | languages
  deriving DecidableEq, Repr

/-- A call of the program. -/
structure Invocation where
  /-- The settings file, if not the usual one. -/
  config : Option String
  verbose : Bool
  task : Task
  deriving DecidableEq, Repr

/-- Why there is nothing to do: help or the version was asked for, or the arguments make no
sense. -/
inductive Stop where
  | help
  | version
  | misuse
  deriving DecidableEq, Repr

/-! ## Options -/

/-- The options there are. -/
inductive Switch where
  | config
  | verbose
  | help
  | version
  | language
  | format
  | only
  deriving DecidableEq, Repr

/-- Where options stand: before the subcommand or after it. -/
inductive Place where
  | program
  | highlight
  | detect
  | languages
  deriving DecidableEq, Repr

/-- The options of a place: long name, short name, option. -/
def Place.options : Place → List (String × Option Char × Switch)
  | .program => common ++ [("version", some 'V', .version)]
  | .highlight =>
    common ++ [("language", some 'l', .language), ("format", some 'f', .format)]
  | .detect => common ++ [("only", none, .only)]
  | .languages => common
where
  /-- The options that are the same everywhere. -/
  common : List (String × Option Char × Switch) :=
    [("config", none, .config), ("verbose", some 'v', .verbose), ("help", some 'h', .help)]

/-- The option with a long name. -/
def Place.long? (p : Place) (name : String) : Option Switch :=
  (p.options.find? fun (long, _, _) => long = name).map fun (_, _, o) => o

/-- The option with a short name. -/
def Place.short? (p : Place) (c : Char) : Option Switch :=
  (p.options.find? fun (_, short, _) => short = some c).map fun (_, _, o) => o

def Switch.takesValue : Switch → Bool
  | .config | .language | .format | .only => true
  | _ => false

/-- The subcommands. -/
def Place.ofSubcommand : String → Option Place
  | "highlight" => some .highlight
  | "detect" => some .detect
  | "languages" => some .languages
  | _ => none

/-! ## What is given -/

/-- What has been given in one place. -/
structure Given where
  config : Option String := none
  verbose : Bool := false
  language : Option String := none
  format : Option Format := none
  only : Option (List String) := none
  file : Option String := none

namespace Given

/-- Sets what may be given only once. -/
def once {α : Type} (old : Option α) (new : α) : Except Stop (Option α) :=
  if old.isSome then .error .misuse else .ok (some new)

/-- Takes a flag into account. -/
def flag (g : Given) : Switch → Except Stop Given
  | .verbose => if g.verbose then .error .misuse else .ok { g with verbose := true }
  | .help => .error .help
  | .version => .error .version
  | _ => .error .misuse

/-- Takes an option with its value into account. Paths are not empty. -/
def option (g : Given) (o : Switch) (value : String) : Except Stop Given :=
  match o with
  | .config => do
    if value.isEmpty then throw .misuse
    return { g with config := ← once g.config value }
  | .language => do return { g with language := ← once g.language value }
  | .format =>
    match Format.ofName value with
    | some format => do return { g with format := ← once g.format format }
    | none => .error .misuse
  | .only => .ok { g with only := some (g.only.getD [] ++ value.splitOn ",") }
  | _ => .error .misuse

/-- Takes an argument that is not an option into account: a file, where there may be one. -/
def positional (g : Given) (p : Place) (value : String) : Except Stop Given :=
  match p with
  | .highlight | .detect => do
    if value.isEmpty then throw .misuse
    return { g with file := ← once g.file value }
  | _ => .error .misuse

end Given

/-! ## Reading arguments -/

/-- What an argument looks like. -/
inductive Shape where
  /-- `--` -/
  | endOfOptions
  /-- `--name` or `--name=value` -/
  | long (name : String) (value : Option String)
  /-- `-abc` -/
  | short (letters : List Char)
  | plain
  deriving DecidableEq, Repr

def shapeOf (argument : String) : Shape :=
  match argument.toList with
  | ['-', '-'] => .endOfOptions
  | '-' :: '-' :: cs =>
    let name := String.ofList (cs.takeWhile (· ≠ '='))
    match cs.dropWhile (· ≠ '=') with
    | _ :: value => .long name (some (String.ofList value))
    | [] => .long name none
  | '-' :: c :: cs => .short (c :: cs)
  | _ => .plain

/-- Reads a cluster of short options. Gives the option that still needs a value, if any. -/
def cluster (p : Place) : (letters : List Char) → Given → Except Stop (Given × Option Switch)
  | [], g => .ok (g, none)
  | c :: letters, g =>
    match p.short? c with
    | none => .error .misuse
    | some o =>
      if o.takesValue then
        match letters with
        | [] => .ok (g, some o)
        | '=' :: value => do return (← g.option o (String.ofList value), none)
        | value => do return (← g.option o (String.ofList value), none)
      else do cluster p letters (← g.flag o)

/-- Reads a long option. Gives the option that still needs a value, if any. -/
def longOption (p : Place) (name : String) (value : Option String) (g : Given) :
    Except Stop (Given × Option Switch) :=
  match p.long? name with
  | none => .error .misuse
  | some o =>
    match o.takesValue, value with
    | true, some value => do return (← g.option o value, none)
    | true, none => .ok (g, some o)
    | false, none => do return (← g.flag o, none)
    | false, some _ => .error .misuse

/-- What has been read in one place: what is given, and the subcommand with its arguments. -/
abbrev Outcome := Given × Option (Place × List String)

/-- Reads arguments. `pending` is an option that needs a value; the next argument is that value
unless it looks like an option. After `--`, with `ended`, nothing is an option. -/
def readArguments (p : Place) : (arguments : List String) → (pending : Option Switch) →
    (ended : Bool) → Given → Except Stop Outcome
  | [], some _, _, _ => .error .misuse
  | [], none, _, g => .ok (g, none)
  | argument :: rest, pending, true, g => do
    if pending.isSome then throw .misuse
    readArguments p rest none true (← g.positional p argument)
  | argument :: rest, pending, false, g =>
    match shapeOf argument, pending with
    | .plain, some o => do readArguments p rest none false (← g.option o argument)
    | _, some _ => .error .misuse
    | .endOfOptions, none => readArguments p rest none true g
    | .long name value, none => do
      let (g, pending) ← longOption p name value g
      readArguments p rest pending false g
    | .short letters, none => do
      let (g, pending) ← cluster p letters g
      readArguments p rest pending false g
    | .plain, none =>
      if p = .program then
        match Place.ofSubcommand argument with
        | some place => .ok (g, some (place, rest))
        | none => if argument = "help" then .error .help else .error .misuse
      else do readArguments p rest none false (← g.positional p argument)

/-- The task of a subcommand. -/
def taskOf (p : Place) (g : Given) : Except Stop Task :=
  match p with
  | .highlight => .ok (.highlight g.file g.language (g.format.getD .json))
  | .detect => .ok (.detect g.file g.only)
  | .languages => .ok .languages
  | .program => .error .misuse

/-- Reads the arguments of the program. -/
def parseArguments (arguments : List String) : Except Stop Invocation := do
  let (outer, sub) ← readArguments .program arguments none false {}
  match sub with
  | none => throw .misuse
  | some (place, rest) =>
    let (inner, _) ← readArguments place rest none false {}
    return {
      config := inner.config.or outer.config
      verbose := inner.verbose || outer.verbose
      task := ← taskOf place inner }

end ModeStack.Command
