import EntityCatalog.Key.Basic
import EntityCatalog.Key.Scope
import EntityCatalog.Names.Basic
import EntityCatalog.Path.Parse

/-!
# Addresses

An address is a path with the kind of entity that it names. Its key is found from the top down:
each name is scoped by the ids of the levels above it, and its own id scopes the name below.
Because keys hold ids, a renamed level keeps the keys of everything beneath it.

Finding a key either binds the names that have no id yet or leaves them unbound. Reading a key
goes back from its ids to the names in the id rows and checks that each lies in its scope.
-/

namespace EntityCatalog

/-- A path and the kind of entity at it. -/
structure Address where
  path : Path
  kind : Kind
deriving DecidableEq, Repr

namespace Address

/-- Whether a name can stand for a level: it is not empty and not the wildcard. -/
def isConcrete (name : String) : Bool := name != "" && name != wildcardName

/-- The kinds of the levels of an address, once its path fits its kind. -/
def levels (address : Address) : Except Error (List Kind) :=
  let path := address.path
  match address.kind.ancestors with
  | none => .error (.unsupportedKind address.kind)
  | some kinds =>
    if path.levels.length ≠ kinds.length then
      .error (.wrongDepth address.kind kinds.length path.levels.length)
    else if !path.levels.all isConcrete then
      .error (.invalidArgument (.vagueNamespace path))
    else if path.leaf = "" then .error (.invalidArgument .emptyName)
    else .ok kinds

/-- The names of the levels with their kinds, from the top down. -/
def levelSteps (address : Address) (kinds : List Kind) : List (Kind × String) :=
  kinds.zip address.path.levels

/-- The names that have ids in the key of the address, from the top down. -/
def steps (address : Address) (kinds : List Kind) : List (Kind × String) :=
  address.levelSteps kinds ++
    if address.path.isWildcard then [] else [(address.kind, address.path.leaf)]

/-- The key of the address with the given ids. -/
def keyOf (address : Address) (ids : List UInt64) : Key :=
  ⟨address.kind, ids, address.path.isWildcard⟩

/-- The ids of names in turn, each scoped by the ids before it. Names without an id are bound. -/
def resolveSteps : List (Kind × String) → (ids : List UInt64) → Names →
    Except Error (List UInt64) × Names
  | [], ids, names => (.ok ids, names)
  | (kind, name) :: rest, ids, names =>
    match names.resolve (scopedName ids kind name) with
    | (.ok id, names) => resolveSteps rest (ids ++ [id]) names
    | (.error fault, names) => (.error fault, names)

/-- The ids of names in turn, each scoped by the ids before it, if every name has one. -/
def findSteps : List (Kind × String) → (ids : List UInt64) → Names →
    Except Error (Option (List UInt64)) × Names
  | [], ids, names => (.ok (some ids), names)
  | (kind, name) :: rest, ids, names =>
    match names.find? (scopedName ids kind name) with
    | (.ok (some id), names) => findSteps rest (ids ++ [id]) names
    | (.ok none, names) => (.ok none, names)
    | (.error fault, names) => (.error fault, names)

/-- The key of an address. Names that have no id are bound to fresh ids. -/
def resolveKey (address : Address) (names : Names) : Except Error Key × Names :=
  match address.levels with
  | .error fault => (.error fault, names)
  | .ok kinds =>
    match resolveSteps (address.steps kinds) [] names with
    | (.ok ids, names) => (.ok (address.keyOf ids), names)
    | (.error fault, names) => (.error fault, names)

/-- The key of an address, if every name has an id. -/
def findKey (address : Address) (names : Names) : Except Error (Option Key) × Names :=
  match address.levels with
  | .error fault => (.error fault, names)
  | .ok kinds =>
    match findSteps (address.steps kinds) [] names with
    | (.ok (some ids), names) => (.ok (some (address.keyOf ids)), names)
    | (.ok none, names) => (.ok none, names)
    | (.error fault, names) => (.error fault, names)

/-- The scoped name of the entity at an address, if every level has an id. The entity itself
need not have one. -/
def findName (address : Address) (names : Names) : Except Error (Option String) × Names :=
  match address.levels with
  | .error fault => (.error fault, names)
  | .ok kinds =>
    if address.path.isWildcard then
      (.error (.invalidArgument (.wildcardMapping address.path)), names)
    else
      match findSteps (address.levelSteps kinds) [] names with
      | (.ok (some ids), names) =>
        (.ok (some (scopedName ids address.kind address.path.leaf)), names)
      | (.ok none, names) => (.ok none, names)
      | (.error fault, names) => (.error fault, names)

/-- The name that an id stands for within a scope. -/
def nameOf (rows : Rows) (above : List UInt64) (kind : Kind) (id : UInt64) :
    Except Error String :=
  match Names.storedName? rows id with
  | .error fault => .error fault
  | .ok none => .error (.corruptKey (.unmappedId id))
  | .ok (some full) =>
    match unscopedName? above kind full with
    | some name => .ok name
    | none => .error (.corruptKey (.outOfScope full id (scopedName above kind "")))

/-- The names that ids stand for, each within the scope of the ids above it. The kinds are those
of the levels; ids beyond them are of the kind `leaf`. -/
def namesOf (rows : Rows) (leaf : Kind) : (above : List UInt64) → (kinds : List Kind) →
    (ids : List UInt64) → Except Error (List String)
  | _, _, [] => .ok []
  | above, kinds, id :: rest =>
    match nameOf rows above (kinds.headD leaf) id with
    | .error fault => .error fault
    | .ok name =>
      match namesOf rows leaf (above ++ [id]) kinds.tail rest with
      | .error fault => .error fault
      | .ok names => .ok (name :: names)

/-- The path with the given names, at a key that is a wildcard key or not. -/
def pathOf (wildcard : Bool) (names : List String) : Path :=
  if wildcard then .wildcard names else .ofSegments names

/-- The address that a key stands for. -/
def ofKey (rows : Rows) (key : Key) : Except Error Address :=
  match key.kind.ancestors with
  | none => .error (.unsupportedKind key.kind)
  | some kinds =>
    match namesOf rows key.kind [] kinds key.ids with
    | .error fault => .error fault
    | .ok names => .ok ⟨pathOf key.wildcard names, key.kind⟩

/-- The address whose key has the given bytes. -/
def read (rows : Rows) (bytes : Bytes) : Except Error Address :=
  match Key.decode bytes with
  | .error fault => .error fault
  | .ok key => ofKey rows key

end Address

end EntityCatalog
