import EntityCatalog.Address
import EntityCatalog.Command.Grammar
import EntityCatalog.Config.Settings
import EntityCatalog.Kind.Parse

/-!
# Arguments of the tool

The tool takes options of its own, then the name of a command and the words of that command. An
argument that is no number, kind, path or setting where one is due makes the whole line wrong.
-/

namespace EntityCatalog.Command

/-- Which rows a scan shows. -/
inductive Selection where
  | all
  | ofKind (kind : Kind)
  | below (stem : String)
deriving DecidableEq, Repr

/-- What the tool is asked to do with a store. -/
inductive Task where
  | scan (selection : Selection) (limit : Nat)
  | decode (key : String)
  | resolve (address : Address)
  | names
  | mark
  | nextId (count : Nat)
deriving DecidableEq, Repr

/-- Where the tool takes its settings from. -/
structure Sources where
  file : String := "/etc/lakemeta/kv.toml"
  directory : Option String := none
  settings : List (String × String) := []
deriving DecidableEq, Repr

/-- A command of the tool, as far as there is a page about it. -/
inductive Topic where
  | scan
  | decode
  | resolve
  | names
  | mark
  | nextId
  | help
deriving DecidableEq, Repr

/-- What a command line asks for. -/
inductive Request where
  | run (sources : Sources) (task : Task)
  | page (topic : Option Topic)
  | version

/-- Every command, in the order of the list of commands. -/
def Topic.all : List Topic := [scan, decode, resolve, names, mark, nextId, help]

/-- The name of a command. -/
def Topic.name : Topic → String
  | scan => "scan"
  | decode => "decode"
  | resolve => "resolve"
  | names => "names"
  | mark => "mark"
  | nextId => "next-id"
  | help => "help"

/-- The command with the given name. -/
def Topic.ofName? (name : String) : Option Topic := all.find? fun topic => topic.name == name

/-- The options of the tool itself. -/
inductive ToolOption where
  | config
  | path
  | set
  | logLevel
  | help
  | version
deriving DecidableEq, Repr

/-- The options of a scan. -/
inductive ScanOption where
  | kind
  | stem
  | limit
  | help
deriving DecidableEq, Repr

/-- The options of a command that issues ids. -/
inductive IssueOption where
  | count
  | help
deriving DecidableEq, Repr

/-- A number of rows or ids. -/
def count? (text : String) : Option Nat := (Text.readWord? text).map UInt64.toNat

/-- The kind with the given name. -/
def kind? (text : String) : Option Kind := (Kind.parse text).toOption

/-- The path with the given text. -/
def path? (text : String) : Option Path := (Path.parse text).toOption

/-- The words before the name of a command. -/
def toolGrammar : Grammar ToolOption where
  flags :=
    [⟨.config, "config", some 'c', .value false⟩, ⟨.path, "path", none, .value false⟩,
     ⟨.set, "set", none, .value true⟩, ⟨.logLevel, "log-level", none, .value false⟩,
     ⟨.help, "help", some 'h', .help⟩, ⟨.version, "version", some 'V', .version⟩]
  accepts
    | .path, text => text != ""
    | .set, text => (Settings.parsePair? text).isSome
    | _, _ => true
  operands := []
  commands := true

/-- The words of a scan. -/
def scanGrammar : Grammar ScanOption where
  flags :=
    [⟨.kind, "kind", some 'k', .value false⟩, ⟨.stem, "prefix", some 'p', .value false⟩,
     ⟨.limit, "limit", some 'l', .value false⟩, ⟨.help, "help", some 'h', .help⟩]
  accepts
    | .kind, text => (kind? text).isSome
    | .limit, text => (count? text).isSome
    | _, _ => true
  operands := []
  commands := false

/-- The words of a command that issues ids. -/
def issueGrammar : Grammar IssueOption where
  flags := [⟨.count, "count", some 'n', .value false⟩, ⟨.help, "help", some 'h', .help⟩]
  accepts
    | .count, text => (count? text).isSome
    | _, _ => true
  operands := []
  commands := false

/-- The words of a command without options, with the given operands. -/
def operandGrammar (operands : List (String → Bool)) : Grammar Unit where
  flags := [⟨(), "help", some 'h', .help⟩]
  accepts _ _ := true
  operands := operands
  commands := false

/-- The selection of a scan. A kind and a stem exclude each other. -/
def selection? (kind stem : Option String) : Option Selection :=
  match kind, stem with
  | none, none => some .all
  | some kind, none => (kind? kind).map .ofKind
  | none, some stem => some (.below stem)
  | some _, some _ => none

/-- The number of rows that a scan shows when no limit is given. -/
def defaultLimit : Nat := 100

/-- The scan that was asked for. -/
def scanTask? (given : Given ScanOption) : Option Task := do
  let selection ← selection? (given.option? .kind) (given.option? .stem)
  match given.option? .limit with
  | some text => return .scan selection (← count? text)
  | none => return .scan selection defaultLimit

/-- The issue of ids that was asked for. -/
def issueTask? (given : Given IssueOption) : Option Task :=
  match given.option? .count with
  | some text => (count? text).map .nextId
  | none => some (.nextId 1)

/-- The task of a command with operands only. -/
def operandTask? (topic : Topic) (operands : List String) : Option Task :=
  match topic, operands with
  | .decode, [key] => some (.decode key)
  | .resolve, [kind, path] => do return .resolve ⟨← path? path, ← kind? kind⟩
  | .names, [] => some .names
  | .mark, [] => some .mark
  | _, _ => none

/-- What the words of a command come to, once they are gathered. -/
def conclude {τ : Type} (topic : Topic) (sources : Sources) (task? : Given τ → Option Task) :
    Gathered τ → Option Request
  | .help => some (.page (some topic))
  | .version => some .version
  | .given given _ => (task? given).map (.run sources)

/-- The page that the words after the command for help ask for. -/
def helpPage? : List String → Option Request
  | [] => some (.page none)
  | [name] => (Topic.ofName? name).map fun topic => .page (some topic)
  | _ => none

/-- Read the words of a command. -/
def readTask? (topic : Topic) (sources : Sources) (words : List String) : Option Request :=
  let operandsOnly (operands : List (String → Bool)) : Option Request :=
    ((operandGrammar operands).gather words {}).bind
      (conclude topic sources fun given => operandTask? topic given.operands)
  match topic with
  | .scan => (scanGrammar.gather words {}).bind (conclude topic sources scanTask?)
  | .decode => operandsOnly [fun _ => true]
  | .resolve => operandsOnly [fun text => (kind? text).isSome, fun text => (path? text).isSome]
  | .names | .mark => operandsOnly []
  | .nextId => (issueGrammar.gather words {}).bind (conclude topic sources issueTask?)
  | .help => helpPage? words

/-- The sources of settings that were given. The directory may come from the environment. -/
def sourcesOf (inherited : Option String) (given : Given ToolOption) : Sources :=
  { file := (given.option? .config).getD ({} : Sources).file
    directory := (given.option? .path).orElse fun _ => inherited
    settings := (given.optionAll .set).filterMap Settings.parsePair? }

/-- Read a command line. There is no request in a line that breaks a rule. -/
def read? (inherited : Option String) (words : List String) : Option Request :=
  match toolGrammar.gather words {} with
  | none => none
  | some .help => some (.page none)
  | some .version => some .version
  | some (.given _ []) => none
  | some (.given given (name :: rest)) =>
    match Topic.ofName? name with
    | none => none
    | some topic =>
      match readTask? topic (sourcesOf inherited given) rest with
      | some (.run sources task) =>
        if sources.directory = some "" then none else some (.run sources task)
      | request => request

end EntityCatalog.Command
