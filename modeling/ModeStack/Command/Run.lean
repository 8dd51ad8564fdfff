import ModeStack.Command.Record
import ModeStack.Settings.Basic

/-!
# Running the program

`run` is the whole program as a function of its arguments and of what it finds around it: its
standard input, the files, and the usual settings file. It gives what is printed and the exit
code.
-/

namespace ModeStack.Command

/-- What the program finds around it. -/
structure Surroundings where
  stdin : ByteArray
  /-- What a path leads to. -/
  file : String → File
  /-- The path of the usual settings file, if there is one to look for. -/
  defaultConfig : Option String

/-- What the program does. -/
structure Result where
  code : Nat
  stdout : String := ""
  /-- The message on failure. -/
  stderr : Option String := none
  deriving DecidableEq, Repr

/-! ## Failures -/

/-- A failure: a message and its causes, the nearest first. -/
structure Failure where
  message : String
  causes : List String := []
  deriving DecidableEq, Repr

namespace Failure

/-- A failure seen from further out. -/
def context (f : Failure) (message : String) : Failure :=
  ⟨message, f.message :: f.causes⟩

/-- The causes of a failure, numbered if there are several. -/
def causeLines : List String → String
  | [] => ""
  | [cause] => "\n\nCaused by:\n    " ++ cause
  | causes =>
    let number (cause : String) (i : Nat) : String :=
      String.ofList (padLeft 5 ' ' (toString i).toList) ++ ": " ++ cause
    "\n\nCaused by:\n" ++ String.intercalate "\n" (causes.zipIdx.map fun (c, i) => number c i)

/-- A failure as it is reported. -/
def report (f : Failure) : String :=
  "Error: " ++ f.message ++ causeLines f.causes ++ "\n"

end Failure

/-! ## Input -/

/-- Decodes an input that is not too large. -/
def readLimited (bytes : ByteArray) (maxBytes : Nat) : Except Failure Text :=
  if maxBytes < bytes.size then
    .error ⟨s!"input exceeds {maxBytes} bytes; raise [input] max_bytes to scan it", []⟩
  else
    (Text.decodeUtf8 bytes).mapError fun e => ⟨"input is not valid UTF-8", [e.message]⟩

/-- Reads a file, or standard input if none is given. -/
def readInput (env : Surroundings) (path : Option String) (maxBytes : Nat) :
    Except Failure Text :=
  match path with
  | none => (readLimited env.stdin maxBytes).mapError (·.context "failed to read stdin")
  | some path =>
    match env.file path with
    | .absent => .error ⟨"failed to open " ++ path, [File.Fault.notFound.message]⟩
    | .directory => .error ⟨"failed to read " ++ path, [File.Fault.isDirectory.message]⟩
    | .bytes content =>
      (readLimited content maxBytes).mapError (·.context ("failed to read " ++ path))

/-! ## Tasks -/

/-- The name of the language to highlight a text in: the one asked for, or the one detected. -/
def languageName (c : Catalog) (s : Settings) (t : Text) (asked : Option String) :
    Option String :=
  match asked with
  | some name => some name
  | none => do
    let d ← c.detect t s.detect
    return (← c.get? d.language).name

/-- Prints the tokens of a text; a single one if no language was detected. -/
def highlight (c : Catalog) (s : Settings) (t : Text) (language : Option String)
    (format : Format) : Except Failure String :=
  match languageName c s t language with
  | none => .ok (tokenLines t (Scan.tokensFor none 0 t.size) format)
  | some name =>
    match c.highlight name t s.ignoreIllegals with
    | .error e => .error ⟨e.message, []⟩
    | .ok h => .ok (tokenLines t h.tokens format)

/-- Prints the language that was detected, and the runner-up. -/
def detect (c : Catalog) (s : Settings) (t : Text) (only : Option (List String)) :
    Except Failure String :=
  let options := match only with
    | some languages => { s.detect with languages := languages }
    | none => s.detect
  match c.detect t options with
  | none => .error ⟨"no language detected", []⟩
  | some d =>
    let ranked := (d.language, d.relevance) :: d.secondBest.toList
    let line (id : LanguageId) (relevance : Nat) : Option String :=
      (c.get? id).map fun g => g.name ++ "\t" ++ toString relevance ++ "\n"
    .ok (String.join (ranked.filterMap fun (id, relevance) => line id relevance))

/-- Prints the languages and their aliases. -/
def languages (c : Catalog) : String :=
  String.join (c.languages.map fun (_, g) =>
    g.name ++ "\t" ++ String.intercalate ", " g.aliases ++ "\n")

/-- Does a task. -/
def perform (env : Surroundings) (c : Catalog) (s : Settings) : Task → Except Failure String
  | .highlight file language format => do
    highlight c s (← readInput env file s.maxBytes) language format
  | .detect file only => do detect c s (← readInput env file s.maxBytes) only
  | .languages => .ok (languages c)

/-- The settings of an invocation: from the file it names, or from the usual one if that
exists. -/
def settingsOf (env : Surroundings) (config : Option String) : Except Failure Settings :=
  let loaded := match config, env.defaultConfig with
    | some path, _ => Settings.load path (env.file path)
    | none, some path => Settings.loadOrDefault path (env.file path)
    | none, none => .ok {}
  loaded.mapError fun e => ⟨e.message, []⟩

/-- Carries out an invocation. -/
def invoke (env : Surroundings) (i : Invocation) : Except Failure String := do
  let s ← settingsOf env i.config
  let c ← Catalog.builtin.mapError fun e =>
    (⟨e.message, []⟩ : Failure).context "failed to build bundled grammars"
  perform env c s i.task

/-- What `--version` prints. -/
def versionLine : String := "sheen 0.1.0\n"

/-- What `--help` prints. -/
def helpText : String :=
  "Classify source text into highlight scopes\n\n" ++
  "Usage: sheen [OPTIONS] <COMMAND>\n\n" ++
  "Commands:\n  highlight  Print the token stream of a file\n" ++
  "  detect     Print the most likely language of a file and its relevance\n" ++
  "  languages  List registered languages and their aliases\n" ++
  "  help       Print this message or the help of the given subcommand(s)\n\n" ++
  "Options:\n" ++
  "      --config <PATH>  Configuration file " ++
  "(defaults to $XDG_CONFIG_HOME/sheen/config.toml)\n" ++
  "  -v, --verbose        Verbose logging\n" ++
  "  -h, --help           Print help\n" ++
  "  -V, --version        Print version\n"

/-- The program. -/
def run (env : Surroundings) (arguments : List String) : Result :=
  match parseArguments arguments with
  | .error .help => { code := 0, stdout := helpText }
  | .error .version => { code := 0, stdout := versionLine }
  | .error .misuse => { code := 2 }
  | .ok i =>
    match invoke env i with
    | .ok out => { code := 0, stdout := out }
    | .error f => { code := 1, stderr := some f.report }

end ModeStack.Command
