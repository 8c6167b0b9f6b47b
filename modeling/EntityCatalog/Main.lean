import EntityCatalog.Command.Disk
import EntityCatalog.Rows.File
import EntityCatalog.Toml.Standard
import Std.Time.DateTime.Timestamp

/-!
# The tool

Reads the configuration file and the file of the store, does the task of the command line, and
writes the file of the store when its rows have changed.
-/

namespace EntityCatalog.Main

/-- The text of a file, if there is such a file. -/
def readText? (path : String) : IO (Option String) :=
  tryCatch (some <$> IO.FS.readFile path) fun fault =>
    match fault with
    | .noFileOrDirectory .. => pure none
    | other => throw other

/-- Make the directory of a store and look for the file with its rows. -/
def openDirectory (directory : String) : IO Place := do
  IO.FS.createDirAll (if directory = "" then "." else directory)
  match ← readText? (Place.rowsFile directory) with
  | none => return .vacant
  | some text =>
    match Rows.ofFileText? text with
    | some rows => return .kept rows
    | none => return .unreadable

/-- What stands at the directory of a store. -/
def placeAt (directory : String) : IO Place :=
  tryCatch (openDirectory directory) fun fault => pure (.refused (toString fault))

/-- The time in milliseconds since the start of 1970. -/
def now : IO UInt64 := do
  let timestamp ← Std.Time.Timestamp.now
  return UInt64.ofNat timestamp.toMillisecondsSinceUnixEpoch.val.toNat

/-- Print an outcome: the exit code. -/
def print (outcome : Command.Outcome) : IO UInt32 := do
  outcome.lines.forM IO.println
  match outcome.failure with
  | none => return 0
  | some report =>
    IO.eprintln report.text
    return 1

/-- Do a task on the store of a configuration. -/
def perform (config : Config) (task : Command.Task) : IO UInt32 := do
  let place ← placeAt config.directory
  match Command.openRows config place with
  | .error report => print (.failed [] report)
  | .ok rows =>
    let (outcome, changed) := task.perform config rows (.constant (← now)) none
    IO.FS.writeFile (Place.rowsFile config.directory) changed.fileText
    print outcome

/-- Do what a command line asks for. -/
def answer (inherited : Option String) : Option Command.Request → IO UInt32
  | none => do
    IO.eprintln "error: the arguments are wrong\n\nFor more information, try '--help'."
    return 2
  | some (.page topic) => print (.printed (Command.page inherited topic))
  | some .version => print (.printed [Command.versionLine])
  | some (.run sources task) => do
    match sources.config Toml.standard (← readText? sources.file) with
    | .error report => print (.failed [] report)
    | .ok config => perform config task

end EntityCatalog.Main

/-- Read the command line and the directory of the environment, and do what they ask for. -/
def main (words : List String) : IO UInt32 := do
  let inherited ← IO.getEnv "LAKEMETA_KV_PATH"
  EntityCatalog.Main.answer inherited (EntityCatalog.Command.read? inherited words)
