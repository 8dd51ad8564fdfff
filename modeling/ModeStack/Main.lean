import ModeStack.Command.Run

/-!
# The command line

Reads the files that an invocation names and runs `Command.run` on them.
-/

open ModeStack

/-- What a path leads to. -/
def lookAt (path : String) : IO File := do
  try
    return .bytes (← IO.FS.readBinFile path)
  catch
    | .noFileOrDirectory .. => return .absent
    | _ => return .directory

/-- The path of the usual settings file. -/
def defaultConfigPath : IO (Option String) := do
  let xdg := (← IO.getEnv "XDG_CONFIG_HOME").filter fun dir => dir.toList.head? = some '/'
  match xdg, ← IO.getEnv "HOME" with
  | some dir, _ => return some (dir ++ "/sheen/config.toml")
  | none, some home => return some (home ++ "/.config/sheen/config.toml")
  | none, none => return none

/-- The paths that an invocation reads, and whether it reads standard input. -/
def needed (defaultConfig : Option String) (i : Command.Invocation) : List String × Bool :=
  let config := (i.config.or defaultConfig).toList
  match i.task with
  | .highlight file .. | .detect file _ => (config ++ file.toList, file.isNone)
  | .languages => (config, false)

def main (arguments : List String) : IO UInt32 := do
  let defaultConfig ← defaultConfigPath
  let (paths, readsStdin) := match Command.parseArguments arguments with
    | .ok i => needed defaultConfig i
    | .error _ => ([], false)
  let files ← paths.mapM fun path => return (path, ← lookAt path)
  let stdin ← if readsStdin then (← IO.getStdin).readBinToEnd else pure .empty
  let result := Command.run
    { stdin := stdin
      file := fun path => (files.lookup path).getD .absent
      defaultConfig := defaultConfig } arguments
  IO.print result.stdout
  if let some message := result.stderr then IO.eprint message
  return result.code.toUInt32
