import EntityCatalog.Toml.Moment
import EntityCatalog.Toml.Value

/-!
# Building tables

Entries are added one after another under dotted keys, and a table knows how it came to be: by
a header of its own or braces, by a header of a table inside it, or by dotted keys. That decides
what may still be added: dotted keys do not reach into a table that has a header, and a header
may still be given to a table that only headers inside it have named.

One key is reserved. A table that names it first is no table but a date or a time.
-/

namespace EntityCatalog.Toml

/-- How a table came to be. -/
inductive Origin where
  | stated
  | implied
  | dotted
deriving DecidableEq, Repr

/-- An entry of a table while it is built: a value that is complete, a table, or a series of
tables that each have a header. -/
inductive Node where
  | leaf (value : Value)
  | table (origin : Origin) (entries : List (String × Node))
  | series (tables : List (List (String × Node)))

/-- The entries of a table while it is built. -/
abbrev Entries := List (String × Node)

/-- The reserved key under which the text of a date or a time stands. -/
def momentKey : String := "$__toml_private_datetime"

/-- The literal of a date or a time in a text. -/
def momentIn? : Value → Option Value
  | .text text => (moment? text.toList).map .literal
  | _ => none

mutual

/-- The value that a node describes. -/
def Node.value? : Node → Option Value
  | .leaf value => some value
  | .table _ entries => tableValue? entries
  | .series tables => (tableValues? tables).map .array

/-- The value of a table with the given entries, in the order in which they were first named. What
follows the reserved key is not looked at. -/
def tableValue? : List (String × Node) → Option Value
  | [] => some (.table [])
  | (key, node) :: rest =>
    if key = momentKey then node.value?.bind momentIn?
    else
      match node.value?, entryValues? rest with
      | some value, some values => some (.table (sortEntries ((key, value) :: values)))
      | _, _ => none

/-- The values that entries describe. -/
def entryValues? : List (String × Node) → Option (List (String × Value))
  | [] => some []
  | (key, node) :: rest =>
    match node.value?, entryValues? rest with
    | some value, some values => some ((key, value) :: values)
    | _, _ => none

/-- The values that the tables of a series describe. -/
def tableValues? : List (List (String × Node)) → Option (List Value)
  | [] => some []
  | entries :: rest =>
    match tableValue? entries, tableValues? rest with
    | some value, some values => some (value :: values)
    | _, _ => none

end

namespace Entries

/-- The entry of a key. -/
def get? (entries : Entries) (key : String) : Option Node :=
  (entries.find? fun entry => entry.1 == key).map Prod.snd

/-- Set the entry of a key, where the key was first named. -/
def set (key : String) (node : Node) : Entries → Entries
  | [] => [(key, node)]
  | entry :: rest => if entry.1 = key then (key, node) :: rest else entry :: set key node rest

/-- Change the table at the end of a path. Tables that are missing on the way are made with the
given origin, a series is entered at its last table, and a value is in the way. Dotted keys do
not enter a table that is stated. -/
def alter (step : Origin) (edit : Origin → Entries → Option Entries) :
    (path : List String) → Origin → Entries → Option Entries
  | [], origin, entries => edit origin entries
  | key :: path, _, entries =>
    match entries.get? key with
    | none => (alter step edit path step []).map fun inner => entries.set key (.table step inner)
    | some (.leaf _) => none
    | some (.series tables) =>
      (alter step edit path .stated (tables.getLast?.getD [])).map fun last =>
        entries.set key (.series (tables.dropLast ++ [last]))
    | some (.table origin inner) =>
      if step = .dotted ∧ origin = .stated then none
      else (alter step edit path origin inner).map fun inner =>
        entries.set key (.table origin inner)

/-- Add a value under a key that is free. With dotted keys before it the table must have come to
be by dotted keys, and without them it must not. -/
def addLeaf (path : List String) (key : String) (value : Value) (origin : Origin)
    (entries : Entries) : Option Entries :=
  if (origin == .dotted) == path.isEmpty || (entries.get? key).isSome then none
  else some (entries.set key (.leaf value))

/-- Add a value under dotted keys to a table that is being stated. -/
def addPair (entries : Entries) (path : List String) (key : String) (value : Value) :
    Option Entries :=
  entries.alter .dotted (addLeaf path key value) path .stated

end Entries

/-- A value under dotted keys, the last of which stands apart. -/
structure Pair where
  path : List String
  key : String
  value : Value

/-- Add pairs to a table one after another. -/
def Entries.addPairs : List Pair → Entries → Option Entries
  | [], entries => some entries
  | pair :: rest, entries =>
    match entries.addPair pair.path pair.key pair.value with
    | some entries => addPairs rest entries
    | none => none

/-- The table that pairs describe. -/
def tableOf (pairs : List Pair) : Option Value :=
  (Entries.addPairs pairs []).bind fun entries => (Node.table .stated entries).value?

/-- The path before the last key, and the last key. -/
def splitLast (keys : List String) : List String × String :=
  (keys.dropLast, keys.getLast?.getD "")

/-- A header, of a table or of one more table of a series, with the pairs below it. -/
structure Section where
  keys : List String
  inSeries : Bool
  pairs : List Pair

/-- Put the table of a section into the table around it. -/
def Section.place (part : Section) (_ : Origin) (entries : Entries) : Option Entries :=
  let key := (splitLast part.keys).2
  if part.inSeries then
    match entries.get? key with
    | none =>
      (Entries.addPairs part.pairs []).map fun body => entries.set key (.series [body])
    | some (.series tables) =>
      (Entries.addPairs part.pairs []).map fun body =>
        entries.set key (.series (tables ++ [body]))
    | some _ => none
  else
    match entries.get? key with
    | none =>
      (Entries.addPairs part.pairs []).map fun body => entries.set key (.table .stated body)
    | some (.table .implied inner) =>
      (Entries.addPairs part.pairs inner).map fun body => entries.set key (.table .stated body)
    | some _ => none

/-- Add sections one after another. -/
def addSections : List Section → Entries → Option Entries
  | [], entries => some entries
  | part :: rest, entries =>
    match entries.alter .implied part.place (splitLast part.keys).1 .stated with
    | some entries => addSections rest entries
    | none => none

/-- The value that the pairs before the first header and the sections after it describe. -/
def documentOf (pairs : List Pair) (sections : List Section) : Option Value := do
  let entries ← Entries.addPairs pairs []
  let entries ← addSections sections entries
  (Node.table .stated entries).value?

end EntityCatalog.Toml
