import EntityCatalog.Command.Arguments

/-!
# Help pages

A page says what a command does, how it is written, and what its operands and options are. Names
stand in a column that is as wide as the longest of them.
-/

namespace EntityCatalog.Command

/-- A name with the line that explains it. -/
abbrev Item := String × String

/-- The width of the column of names. -/
def columnWidth (items : List Item) : Nat :=
  items.foldl (fun width item => max width item.1.length) 0

/-- Items in two columns. -/
def layOut (items : List Item) : List String :=
  items.map fun item =>
    "  " ++ item.1 ++ String.ofList (List.replicate (columnWidth items + 2 - item.1.length) ' ') ++
      item.2

/-- A titled list of items, after a blank line. -/
def block (title : String) : List Item → List String
  | [] => []
  | items => ["", title ++ ":"] ++ layOut items

/-- The version of the tool. -/
def versionLine : String := "lakemeta-cli 0.1.0"

/-- The option that every command has. -/
def helpItem : Item := ("-h, --help", "Print help")

/-- What a command does, in one line. -/
def Topic.about : Topic → String
  | scan => "Dump stored entries"
  | decode => "Decode a hex encoded key"
  | resolve => "Show the key of a dotted path without allocating ids"
  | names => "List name mappings"
  | mark => "Show the transaction high-water mark"
  | nextId => "Issue transaction ids (advances the mark)"
  | help => "Print this message or the help of the given subcommand(s)"

/-- The words of a command, as they are written. -/
def Topic.usage : Topic → String
  | scan => "scan [OPTIONS]"
  | decode => "decode <KEY>"
  | resolve => "resolve <KIND> <PATH>"
  | names => "names"
  | mark => "mark"
  | nextId => "next-id [OPTIONS]"
  | help => "help [COMMAND]..."

/-- The operands of a command. -/
def Topic.operands : Topic → List Item
  | decode => [("<KEY>", "Key bytes in hex")]
  | resolve =>
    [("<KIND>", "Entity kind (name or short code)"),
     ("<PATH>", "Dotted path, e.g. metalake1.catalog2")]
  | help => [("[COMMAND]...", "Print help for the subcommand(s)")]
  | _ => []

/-- The options of a command. -/
def Topic.options : Topic → List Item
  | scan =>
    [("-k, --kind <KIND>", "Only keys of this entity kind (name or short code)"),
     ("-p, --prefix <PREFIX>", "Only keys starting with this hex prefix"),
     ("-l, --limit <LIMIT>", "Maximum number of entries [default: 100]"), helpItem]
  | nextId => [("-n, --count <COUNT>", "Number of ids [default: 1]"), helpItem]
  | help => []
  | _ => [helpItem]

/-- The page about a command. -/
def Topic.page (topic : Topic) : List String :=
  [topic.about, "", "Usage: lakemeta-cli " ++ topic.usage] ++
    block "Arguments" topic.operands ++ block "Options" topic.options

/-- The options of the tool. The directory in the environment is shown with its option. -/
def toolOptions (inherited : Option String) : List Item :=
  [("-c, --config <CONFIG>", "Configuration file (TOML) [default: /etc/lakemeta/kv.toml]"),
   ("    --path <PATH>",
    "Store directory (overrides the configuration file) [env: LAKEMETA_KV_PATH=" ++
      inherited.getD "" ++ "]"),
   ("    --set <KEY=VALUE>",
    "Extra configuration setting, e.g. --set lakemeta.entity.store.kv.options.durability=none"),
   ("    --log-level <LOG_LEVEL>", "Log level [default: warn]"), helpItem,
   ("-V, --version", "Print version")]

/-- The page about the tool. -/
def toolPage (inherited : Option String) : List String :=
  ["LakeMeta KV store diagnostics", "", "Usage: lakemeta-cli [OPTIONS] <COMMAND>"] ++
    block "Commands" (Topic.all.map fun topic => (topic.name, topic.about)) ++
    block "Options" (toolOptions inherited)

/-- The page that was asked for. -/
def page (inherited : Option String) : Option Topic → List String
  | none => toolPage inherited
  | some topic => topic.page

end EntityCatalog.Command
