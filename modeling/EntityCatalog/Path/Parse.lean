import EntityCatalog.Error
import EntityCatalog.Text.Cut

/-!
# Reading a path

A path is written with a dot between its names. No name in a written path is empty.
-/

namespace EntityCatalog.Path

/-- The path with the given names, the last of which is the name of the entity. -/
def ofSegments (names : List String) : Path := ⟨names.dropLast, names.getLast?.getD ""⟩

/-- Read a path from text. -/
def parse (text : String) : Except Error Path :=
  let pieces := Text.pieces '.' text.toList
  if pieces.any List.isEmpty then .error (.invalidArgument (.emptySegment text))
  else .ok (ofSegments (pieces.map String.ofList))

end EntityCatalog.Path
