import EntityCatalog.Kind.Basic
import EntityCatalog.Text.Cut
import EntityCatalog.Text.Decimal

/-!
# Scoped names

A name is bound to an id within a scope: the ids of the enclosing levels, each in decimal and
followed by a slash, then the two letters of a kind and a colon. Equal names at different levels
or of different kinds are thus bound apart. Nothing is escaped; digits, slashes and letters
leave one way only to read a scope.
-/

namespace EntityCatalog

/-- The characters before a name that is scoped by the ids of its levels and its kind. -/
def scopeChars (ids : List UInt64) (kind : Kind) : List Char :=
  ids.flatMap (fun id => Text.decimalChars id.toNat ++ ['/']) ++ (kind.codeChars ++ [':'])

/-- A name within a scope. -/
def scopedName (ids : List UInt64) (kind : Kind) (name : String) : String :=
  String.ofList (scopeChars ids kind ++ name.toList)

/-- The name that a full name holds, if its scope is the given one. -/
def unscopedName? (ids : List UInt64) (kind : Kind) (full : String) : Option String :=
  (Text.after? (scopeChars ids kind) full.toList).map String.ofList

end EntityCatalog
