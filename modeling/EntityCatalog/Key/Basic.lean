import EntityCatalog.Error
import EntityCatalog.Bytes.Word

/-!
# Keys of entities

The key of an entity is the two-byte code of its kind and then, for each level and for the
entity itself, a separator and the eight bytes of a surrogate id. A wildcard key has no last id
but keeps its separator, so it is a stem of the key of every entity directly below the levels.

Id bytes can equal the separator. Keys are told apart by widths, not by delimiters.
-/

namespace EntityCatalog

/-- The kind, the ids and the shape of a key. -/
structure Key where
  kind : Kind
  ids : List UInt64
  wildcard : Bool
deriving DecidableEq, Repr

namespace Key

/-- The byte before every id. -/
def separator : UInt8 := 0x2f

/-- The number of bytes of a kind's code. -/
def codeWidth : Nat := 2

/-- The number of bytes of a separator and an id. -/
def segmentWidth : Nat := 1 + wordWidth

/-- The bytes of one id in a key. -/
def segment (id : UInt64) : Bytes := separator :: wordBytes id

/-- The bytes of a key. -/
def encode (key : Key) : Bytes :=
  key.kind.code ++ (key.ids.flatMap segment ++ if key.wildcard then [separator] else [])

/-- Read `count` segments, checking the byte before each id. -/
def readSegments : (count : Nat) → Bytes → Except Error (List UInt64)
  | 0, _ => .ok []
  | _ + 1, [] => .ok []
  | count + 1, mark :: rest =>
    if mark = separator then
      match readSegments count (rest.drop wordWidth) with
      | .ok ids => .ok (UInt64.ofNat (ofBigEndian (rest.take wordWidth)) :: ids)
      | .error fault => .error fault
    else .error (.corruptKey (.separator mark))

/-- The segments after a kind's code, and whether a separator follows them. -/
def splitBody (body : Bytes) : Except Error (Bytes × Bool) :=
  if body.length % segmentWidth = 0 then .ok (body, false)
  else if body.length % segmentWidth = 1 ∧ body.getLast? = some separator then
    .ok (body.dropLast, true)
  else .error (.corruptKey (.unevenBody body.length))

/-- Read the bytes after the code of a kind that lies below `depth` levels. -/
def decodeBody (kind : Kind) (depth : Nat) (body : Bytes) : Except Error Key :=
  match splitBody body with
  | .error fault => .error fault
  | .ok (segments, wildcard) =>
    let expected := if wildcard then depth else depth + 1
    let found := segments.length / segmentWidth
    if found ≠ expected then .error (.corruptKey (.idCount kind found expected))
    else
      match readSegments found segments with
      | .ok ids => .ok ⟨kind, ids, wildcard⟩
      | .error fault => .error fault

/-- Read a key: its length, its code, the number of its ids and every separator are checked. -/
def decode (bytes : Bytes) : Except Error Key :=
  if bytes.length < codeWidth then .error (.corruptKey (.tooShort bytes.length))
  else
    match Kind.ofCode? (bytes.take codeWidth) with
    | none => .error (.corruptKey (.unknownCode (bytes.take codeWidth)))
    | some kind =>
      match kind.depth with
      | none => .error (.unsupportedKind kind)
      | some depth => decodeBody kind depth (bytes.drop codeWidth)

/-- The stem of every key of the given kind beneath the entity with the given key. -/
def stemBeneath (key : Bytes) (kind : Kind) : Bytes :=
  kind.code ++ (key.drop codeWidth ++ [separator])

/-- The stem of every key of a kind. -/
def stemOf (kind : Kind) : Bytes := kind.code ++ [separator]

end Key

end EntityCatalog
