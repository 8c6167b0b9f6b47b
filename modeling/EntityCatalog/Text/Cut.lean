/-!
# Cutting text

A sequence of characters is cut after a given start, at the first occurrence of a character, or
at every one.
-/

namespace EntityCatalog.Text

/-- The rest of a sequence of characters after a given start. -/
def after? : (start chars : List Char) → Option (List Char)
  | [], chars => some chars
  | _ :: _, [] => none
  | a :: start, c :: chars => if a = c then after? start chars else none

/-- What stands before and after the first occurrence of a character. -/
def cutAt? (mark : Char) : List Char → Option (List Char × List Char)
  | [] => none
  | c :: rest =>
    if c = mark then some ([], rest)
    else (cutAt? mark rest).map fun parts => (c :: parts.1, parts.2)

/-- The pieces between the occurrences of a character. There is always at least one. -/
def pieces (mark : Char) : List Char → List (List Char)
  | [] => [[]]
  | c :: rest =>
    match pieces mark rest with
    | [] => [[c]]
    | piece :: more => if c = mark then [] :: piece :: more else (c :: piece) :: more

end EntityCatalog.Text
