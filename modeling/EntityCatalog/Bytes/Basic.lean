/-!
# Byte strings

Keys and values of the catalog are byte strings in lexicographic order. A stem selects the keys
that extend it; in that order they fill one interval, which ends at the stem's successor.
-/

namespace EntityCatalog

/-- A finite sequence of bytes, ordered lexicographically. -/
abbrev Bytes := List UInt8

/-- The least byte string above every extension of a stem, or none if the stem is all `0xff`. -/
def Bytes.successor : Bytes → Option Bytes
  | [] => none
  | b :: rest =>
    match Bytes.successor rest with
    | some above => some (b :: above)
    | none => if b = 0xff then none else some [b + 1]

end EntityCatalog
