import EntityCatalog.Bytes.Basic

/-!
# Kinds of entity

Every entity has a kind. A kind has a name, a two-letter code that leads its keys, and the kinds
of the levels that enclose it. Columns and audit records live inside other entities, so they
have no levels of their own and no keys.
-/

namespace EntityCatalog

/-- What a catalog holds. -/
inductive Kind where
  | metalake | catalog | schema | table | fileset | topic | column | user | group | role | audit
deriving DecidableEq, Repr

namespace Kind

/-- Every kind, in the order in which kinds are listed. -/
def all : List Kind :=
  [metalake, catalog, schema, table, fileset, topic, column, user, group, role, audit]

/-- The full name of a kind. -/
def name : Kind → String
  | metalake => "metalake"
  | catalog => "catalog"
  | schema => "schema"
  | table => "table"
  | fileset => "fileset"
  | topic => "topic"
  | column => "column"
  | user => "user"
  | group => "group"
  | role => "role"
  | audit => "audit"

/-- The two letters that stand for a kind. -/
def letters : Kind → Char × Char
  | metalake => ('m', 'l')
  | catalog => ('c', 'a')
  | schema => ('s', 'c')
  | table => ('t', 'a')
  | fileset => ('f', 'i')
  | topic => ('t', 'o')
  | column => ('c', 'o')
  | user => ('u', 's')
  | group => ('g', 'r')
  | role => ('r', 'o')
  | audit => ('a', 'u')

/-- The letters of a kind as a sequence of characters. -/
def codeChars (kind : Kind) : List Char := [kind.letters.1, kind.letters.2]

/-- The short name of a kind, its two letters. -/
def shortName (kind : Kind) : String := String.ofList kind.codeChars

/-- The two ASCII bytes that lead every key of a kind. -/
def code (kind : Kind) : Bytes := kind.codeChars.map fun c => c.val.toUInt8

/-- The kind with the given code. -/
def ofCode? (code : Bytes) : Option Kind := all.find? fun kind => kind.code = code

/-- The kinds of the levels that enclose an entity, outermost first. -/
def ancestors : Kind → Option (List Kind)
  | metalake => some []
  | catalog | user | group | role => some [metalake]
  | schema => some [metalake, catalog]
  | table | fileset | topic => some [metalake, catalog, schema]
  | column | audit => none

/-- The number of levels that enclose an entity. -/
def depth (kind : Kind) : Option Nat := kind.ancestors.map List.length

/-- Whether entities of this kind have keys of their own. -/
def isEncodable (kind : Kind) : Bool := kind.ancestors.isSome

/-- Whether entities of kind `lower` lie beneath an entity of kind `upper`. -/
def isBeneath (upper lower : Kind) : Bool :=
  match upper.depth, lower.ancestors with
  | some depth, some levels => levels[depth]? == some upper
  | _, _ => false

/-- The kinds whose entities lie beneath an entity of this kind, at any depth. -/
def descendants (kind : Kind) : List Kind := all.filter kind.isBeneath

/-- Every kind is listed. -/
theorem mem_all (kind : Kind) : kind ∈ all := by cases kind <;> decide

/-- A kind is read back from its own code. -/
theorem ofCode?_code (kind : Kind) : ofCode? kind.code = some kind := by cases kind <;> decide

/-- Every code is two bytes long. -/
theorem code_length (kind : Kind) : kind.code.length = 2 := rfl

end Kind

end EntityCatalog
