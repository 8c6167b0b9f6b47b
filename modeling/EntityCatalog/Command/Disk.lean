import EntityCatalog.Command.Help
import EntityCatalog.Command.Task
import EntityCatalog.Toml.Flatten

/-!
# Runs of the tool

A run reads its settings, opens the store they name and does its task there. Settings are laid
one over another: the configuration file, the directory given on its own, and the settings given
one by one. What a run can see of the disk is text files and stores; it may change the rows of
one store. The host of a run decides how configuration files are read and whether threads are to be
had.
-/

namespace EntityCatalog.Command

/-- What a run takes from its host: the format of configuration files, the directory of the
environment, the clock, and why threads are refused, if they are. -/
structure Host where
  format : Toml.Format
  directory : Option String
  clock : Clock
  refusal : Option String

/-- The settings of a configuration file, if there is one. -/
def fileSettings (format : Toml.Format) (path : String) : Option String → Except Report Settings
  | none => .ok []
  | some text =>
    match format.read text with
    | .ok table => .ok (Toml.flatten format.print table)
    | .error cause => .error ⟨"parsing " ++ path, some cause⟩

namespace Sources

/-- The settings given on the command line, over those of the configuration file. -/
def layered (sources : Sources) (settings : Settings) : Settings :=
  let settings := match sources.directory with
    | some directory => settings.set Setting.directory.key directory
    | none => settings
  settings.layer sources.settings

/-- The configuration of a run, from the text of its configuration file. -/
def config (sources : Sources) (format : Toml.Format) (file : Option String) :
    Except Report Config :=
  match fileSettings format sources.file file with
  | .error report => .error report
  | .ok settings => (Config.ofSettings (sources.layered settings)).mapError .ofError

end Sources

/-- Open the store of a configuration. -/
def openRows (config : Config) (place : Place) : Except Report Rows :=
  match StoreOptions.ofSettings config.options with
  | .error fault => .error (.ofError fault)
  | .ok _ =>
    (place.openStore config.directory).mapError fun fault =>
      ⟨"opening store at " ++ config.directory, some fault.message⟩

/-- The text files and the stores on a disk, the latter with the steps of their paths. -/
structure Disk where
  files : List (String × String)
  stores : List (List String × Rows)

/-- Follow one step of a path. -/
def follow (steps : List String) (step : String) : List String :=
  if step = "" || step = "." then steps
  else if step = ".." then steps.dropLast
  else steps ++ [step]

/-- The steps of a path. Paths with equal steps lead to one place. -/
def stepsOf (path : String) : List String :=
  ((Text.pieces '/' path.toList).map String.ofList).foldl follow []

namespace Disk

/-- The text of a file. -/
def text? (disk : Disk) (path : String) : Option String :=
  (disk.files.find? fun file => file.1 == path).map Prod.snd

/-- The steps of every file on a disk. -/
def filePaths (disk : Disk) : List (List String) :=
  disk.files.map (fun file => stepsOf file.1) ++
    disk.stores.map fun store => store.1 ++ [Layout.fileName]

/-- The rows of the store at a path. -/
def rows? (disk : Disk) (steps : List String) : Option Rows :=
  (disk.stores.find? fun store => store.1 == steps).map Prod.snd

/-- What stands at a path. -/
def place (disk : Disk) (steps : List String) : Place :=
  if disk.filePaths.contains steps then .refused "File exists (os error 17)"
  else if disk.filePaths.any fun path => path.isPrefixOf steps then
    .refused "Not a directory (os error 20)"
  else
    match disk.rows? steps with
    | some rows => .kept rows
    | none => .vacant

/-- The disk with other rows in the store at a path. -/
def withRows (disk : Disk) (steps : List String) (rows : Rows) : Disk :=
  { disk with stores := disk.stores.filter (fun store => store.1 != steps) ++ [(steps, rows)] }

/-- Do a task in the store that a configuration names. -/
def perform (disk : Disk) (host : Host) (config : Config) (task : Task) : Outcome × Disk :=
  let steps := stepsOf config.directory
  match openRows config (disk.place steps) with
  | .error report => (.failed [] report, disk)
  | .ok rows =>
    match task.perform config rows host.clock host.refusal with
    | (outcome, rows) => (outcome, disk.withRows steps rows)

/-- Run the tool on a command line. There is no outcome for a line that breaks a rule. -/
def run (disk : Disk) (host : Host) (words : List String) : Option Outcome × Disk :=
  match read? host.directory words with
  | none => (none, disk)
  | some (.page topic) => (some (.printed (page host.directory topic)), disk)
  | some .version => (some (.printed [versionLine]), disk)
  | some (.run sources task) =>
    match sources.config host.format (disk.text? sources.file) with
    | .error report => (some (.failed [] report), disk)
    | .ok config =>
      match disk.perform host config task with
      | (outcome, disk) => (some outcome, disk)

end Disk

end EntityCatalog.Command
