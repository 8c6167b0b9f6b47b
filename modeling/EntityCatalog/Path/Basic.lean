/-!
# Paths

A path names an entity by the names of the levels that enclose it and its own name. The name
`*` stands for every entity directly below the levels.
-/

namespace EntityCatalog

/-- The name that stands for every entity of a namespace. -/
def wildcardName : String := "*"

/-- The names of the enclosing levels, outermost first, and the name of the entity. -/
structure Path where
  levels : List String
  leaf : String
deriving DecidableEq, Repr

namespace Path

/-- The path of an entity that no level encloses. -/
def root (leaf : String) : Path := ⟨[], leaf⟩

/-- The path of every entity directly below the levels. -/
def wildcard (levels : List String) : Path := ⟨levels, wildcardName⟩

/-- Whether a path stands for every entity of its namespace. -/
def isWildcard (path : Path) : Bool := path.leaf == wildcardName

/-- Every name of a path, outermost first. -/
def segments (path : Path) : List String := path.levels ++ [path.leaf]

/-- The path of an entity directly below. -/
def child (path : Path) (name : String) : Path := ⟨path.segments, name⟩

/-- The path of another entity of the same namespace. -/
def withName (path : Path) (name : String) : Path := { path with leaf := name }

/-- The path of the innermost enclosing level. -/
def parent? (path : Path) : Option Path :=
  match path.levels.getLast? with
  | some leaf => some ⟨path.levels.dropLast, leaf⟩
  | none => none

/-- The first `steps` paths met by going from a path to its parent again and again. -/
def ascend : (steps : Nat) → Path → List Path
  | 0, _ => []
  | steps + 1, path =>
    match path.parent? with
    | some parent => parent :: ascend steps parent
    | none => []

/-- The paths of the enclosing levels, innermost first. -/
def parents (path : Path) : List Path := ascend path.levels.length path

/-- A path as text: its names with a dot between them. -/
def text (path : Path) : String :=
  path.levels.foldr (fun level rest => level ++ "." ++ rest) path.leaf

end Path

end EntityCatalog
