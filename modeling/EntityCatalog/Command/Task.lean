import EntityCatalog.Catalog.Open
import EntityCatalog.Command.Arguments
import EntityCatalog.Command.Report

/-!
# Tasks of the tool

Each task looks at the rows of a store and prints lines. Only issuing ids changes the rows: it
advances the mark. A task that fails keeps the lines that it printed before.
-/

namespace EntityCatalog.Command

/-- The lines that a task printed, and the report if it failed. -/
structure Outcome where
  lines : List String
  failure : Option Report
deriving DecidableEq, Repr

namespace Outcome

/-- Lines without a failure. -/
def printed (lines : List String) : Outcome := ⟨lines, none⟩

/-- Lines before a failure. -/
def failed (lines : List String) (report : Report) : Outcome := ⟨lines, some report⟩

/-- The outcome of a computation that prints nothing before it fails. -/
def ofResult : Except Report (List String) → Outcome
  | .ok lines => printed lines
  | .error report => failed [] report

end Outcome

/-- The line of a number of things. -/
def total (count : Nat) (things : String) : String :=
  "(" ++ Text.decimal count ++ " " ++ things ++ ")"

/-- The size of a value, in a line about a row. -/
def size (bytes : Bytes) : String := Text.decimal bytes.length

/-- The address that a key stands for, or why there is none. -/
def describeKey (rows : Rows) (key : Bytes) : String :=
  match Address.read rows key with
  | .ok address => address.kind.name ++ " " ++ address.path.text
  | .error fault => "<" ++ fault.message ++ ">"

/-- The version and the size of a record, or the size of a value that is no record. -/
def describeValue (value : Bytes) : String :=
  match Record.decode? value with
  | some record =>
    "version=" ++ Text.word record.version ++ " payload=" ++ size record.payload ++ " bytes"
  | none => "<" ++ size value ++ " raw bytes>"

/-- The line about a row. -/
def describe (rows : Rows) (row : Row) : String :=
  let shown := Hex.encode row.1 ++ "  "
  if row.1 = Layout.markKey then shown ++ "<transaction mark>"
  else if Layout.nameStem.isPrefixOf row.1 || Layout.idStem.isPrefixOf row.1 then
    shown ++ "<name mapping, " ++ size row.2 ++ " byte value>"
  else shown ++ describeKey rows row.1 ++ "  " ++ describeValue row.2

/-- Read a hexadecimal argument. -/
def readHex (what text : String) : Except Report Bytes :=
  match Hex.decode text with
  | .ok bytes => .ok bytes
  | .error fault => .error ⟨what ++ " must be hex", some fault.text⟩

/-- The stem of the rows that a scan shows. -/
def Selection.stem : Selection → Except Report Bytes
  | all => .ok []
  | ofKind kind => .ok (Key.stemOf kind)
  | below stem => readHex "prefix" stem

/-- Show rows. -/
def scan (rows : Rows) (selection : Selection) (limit : Nat) : Outcome :=
  .ofResult <| selection.stem.map fun stem =>
    let shown := rows.scanLimit stem limit
    shown.map (describe rows) ++ [total shown.length "entries"]

/-- Show the address of a key. -/
def decode (rows : Rows) (text : String) : Outcome :=
  .ofResult <| do
    let key ← readHex "key" (Text.trim text)
    match Address.read rows key with
    | .ok address =>
      return ["Kind: " ++ address.kind.name, "Path: " ++ address.path.text]
    | .error fault => .error (.ofError fault)

/-- Show the key of an address. -/
def resolve (names : Names) (address : Address) : Outcome :=
  match address.findKey names with
  | (.error fault, _) => .failed [] (.ofError fault)
  | (.ok none, _) =>
    .printed [address.kind.name ++ " " ++ address.path.text ++ " is not mapped"]
  | (.ok (some key), names) =>
    let keyLine := "Key:     " ++ Hex.encode key.encode
    let storedLine := "Stored:  " ++ if names.rows.contains key.encode then "yes" else "no"
    match address.findName names with
    | (.error fault, _) => .failed [keyLine] (.ofError fault)
    | (.ok none, _) => .printed [keyLine, storedLine]
    | (.ok (some name), _) => .printed [keyLine, "Mapping: " ++ name, storedLine]

/-- The width of the column of ids in a list of names. -/
def idWidth : Nat := 20

/-- List the bound names. -/
def listNames (rows : Rows) : Outcome :=
  match Names.entries rows with
  | .error fault => .failed [] (.ofError fault)
  | .ok entries =>
    let lines :=
      entries.map (fun entry => Text.padLeft idWidth (Text.word entry.2) ++ "  " ++ entry.1) ++
        [total entries.length "mappings"]
    match Names.highestId? rows with
    | .error fault => .failed lines (.ofError fault)
    | .ok none => .printed lines
    | .ok (some highest) => .printed (lines ++ ["Highest id: " ++ Text.word highest])

/-- Show the mark. -/
def showMark (rows : Rows) : Outcome :=
  match MarkStore.mark? rows with
  | .error fault => .failed [] (.ofError fault)
  | .ok none => .printed ["No transaction mark stored"]
  | .ok (some mark) =>
    .printed
      ["Mark:   " ++ Text.word mark, "Millis: " ++ Text.word (TransactionIds.millis mark),
       "Count:  " ++ Text.word (TransactionIds.counter mark)]

/-- Issue ids until one fails: the lines of those issued. -/
def issueAll : (count : Nat) → TransactionIds → Clock →
    List String × Option Error × TransactionIds
  | 0, ids, _ => ([], none, ids)
  | count + 1, ids, clock =>
    match ids.next clock with
    | (.error fault, ids, _) => ([], some fault, ids)
    | (.ok id, ids, clock) =>
      let (lines, failure, ids) := issueAll count ids clock
      (Text.word id :: lines, failure, ids)

/-- Issue ids from a generator that is started, unless it is refused its thread, and stopped. -/
def issue (timing : Timing) (rows : Rows) (clock : Clock) (refusal : Option String) (count : Nat) :
    Outcome × Rows :=
  match (TransactionIds.create timing).start rows clock refusal with
  | (.error fault, _, _) => (.failed [] (.ofError fault), rows)
  | (.ok (), ids, clock) =>
    let (lines, failure, ids) := issueAll count ids clock
    (⟨lines, failure.map .ofError⟩, (ids.discard ⟨rows, 0⟩).rows)

/-- Do a task on the rows of a store: its outcome, and the rows after it. -/
def Task.perform (task : Task) (config : Config) (rows : Rows) (clock : Clock)
    (refusal : Option String) : Outcome × Rows :=
  match task with
  | .scan selection limit => (Command.scan rows selection limit, rows)
  | .decode key => (Command.decode rows key, rows)
  | .resolve address =>
    (Command.resolve (.create config rows (.countingFrom 0)) address, rows)
  | .names => (listNames rows, rows)
  | .mark => (showMark rows, rows)
  | .nextId count => issue config.timing rows clock refusal count

end EntityCatalog.Command
