import EntityCatalog.Toml.Moment
import EntityCatalog.Toml.Numeral
import EntityCatalog.Toml.Quoted
import EntityCatalog.Toml.Table

/-!
# Reading a configuration file

A file is a sequence of statements, each on a line of its own: a header or a key with a value.
Only text and arrays may go on over several lines. How deep values are nested, and how many keys
are dotted together, is bounded.
-/

namespace EntityCatalog.Toml

/-- The number of levels that nested values, and of keys that dotted keys, stay below. -/
def nestingBound : Nat := 80

/-! ## Keys -/

/-- Read one key. -/
def simpleKey : Reader String := fun chars =>
  match chars with
  | '"' :: _ => quotedLine chars
  | '\'' :: _ => quotedLine chars
  | _ =>
    match chars.takeWhile isBare with
    | [] => none
    | key => some (String.ofList key, chars.dropWhile isBare)

/-- Read keys with dots between them and blanks around each. -/
def keySequence : (fuel : Nat) → Reader (List String)
  | 0, _ => none
  | fuel + 1, chars =>
    match simpleKey (skipSpaces chars) with
    | none => none
    | some (key, rest) =>
      match skipSpaces rest with
      | '.' :: rest => (keySequence fuel rest).map fun (keys, rest) => (key :: keys, rest)
      | rest => some ([key], rest)

/-- Read dotted keys. -/
def dottedKeys : Reader (List String) := fun chars =>
  match keySequence (chars.length + 1) chars with
  | some (keys, rest) => if keys.length < nestingBound then some (keys, rest) else none
  | none => none

/-! ## Values -/

/-- The canonical spelling of a truth value or of a number that has no digits. -/
def word? (chars : List Char) : Option String :=
  let text := String.ofList chars
  if text ∈ ["true", "false", "inf", "-inf", "nan"] then some text
  else if text = "+inf" then some "inf"
  else if text ∈ ["+nan", "-nan"] then some "nan"
  else none

/-- The canonical spelling of a literal. -/
def literal? (chars : List Char) : Option String :=
  (word? chars).orElse fun _ => (moment? chars).orElse fun _ => numeral? chars

/-- Whether the characters go on with a time after one blank. -/
def startsTime : List Char → Bool
  | ' ' :: a :: b :: ':' :: _ => a.isDigit && b.isDigit
  | _ => false

/-- Whether a literal is a date and nothing else. -/
def isDate (chars : List Char) : Bool :=
  match date chars with
  | some (_, []) => true
  | _ => false

/-- The characters of a literal and what follows it. A blank ends a literal, unless it parts a
date from a time. -/
def splitLiteral (chars : List Char) : List Char × List Char :=
  let inside (c : Char) : Bool := !endsLiteral c
  let token := chars.takeWhile inside
  let rest := chars.dropWhile inside
  if isDate token && startsTime rest then
    (token ++ rest.take 1 ++ (rest.drop 1).takeWhile inside, (rest.drop 1).dropWhile inside)
  else (token, rest)

/-- Read a value that holds no other values. -/
def plainValue : Reader Value := fun chars =>
  match quoted chars with
  | some (text, rest) => some (.text text, rest)
  | none =>
    let (token, rest) := splitLiteral chars
    (literal? token).map fun text => (.literal text, rest)

/-- Read the items of an array up to its bracket. A comma may follow the last item. -/
def items (item : Reader Value) : (fuel : Nat) → Reader (List Value)
  | 0, _ => none
  | fuel + 1, chars =>
    match skipFiller false chars with
    | ']' :: rest => some ([], rest)
    | chars =>
      match item chars with
      | none => none
      | some (found, rest) =>
        match skipFiller false rest with
        | ']' :: rest => some ([found], rest)
        | ',' :: rest => (items item fuel rest).map fun (more, rest) => (found :: more, rest)
        | _ => none

/-- Read dotted keys, an equals sign and a value. -/
def pair (item : Reader Value) : Reader Pair := fun chars =>
  match dottedKeys chars with
  | some (keys, '=' :: rest) =>
    (item (skipSpaces rest)).map fun (value, rest) =>
      (⟨(splitLast keys).1, (splitLast keys).2, value⟩, rest)
  | _ => none

/-- Read one pair at the least up to a brace. No comma follows the last pair. -/
def pairs (item : Reader Value) : (fuel : Nat) → Reader (List Pair)
  | 0, _ => none
  | fuel + 1, chars =>
    match pair item chars with
    | none => none
    | some (found, rest) =>
      match skipSpaces rest with
      | '\x7d' :: rest => some ([found], rest)
      | ',' :: rest => (pairs item fuel rest).map fun (more, rest) => (found :: more, rest)
      | _ => none

/-- Read the pairs of a table on one line. -/
def bracedPairs (item : Reader Value) : Reader (List Pair) := fun chars =>
  match skipSpaces chars with
  | '\x7d' :: rest => some ([], rest)
  | chars => pairs item (chars.length + 1) chars

/-- Read a value with at most `room` levels of values within values. -/
def value : (room : Nat) → Reader Value
  | 0 => plainValue
  | room + 1 => fun chars =>
    match chars with
    | '[' :: rest =>
      (items (value room) (rest.length + 1) rest).map fun (found, rest) => (.array found, rest)
    | '\x7b' :: rest =>
      (bracedPairs (value room) rest).bind fun (found, rest) =>
        (tableOf found).map fun table => (table, rest)
    | chars => plainValue chars

/-! ## Statements -/

/-- A header, of a table or of one more table of a series, or a key with a value. -/
inductive Statement where
  | header (keys : List String) (inSeries : Bool)
  | pair (pair : Pair)

/-- Read the header of one more table of a series, after its opening brackets. -/
def seriesHeader : Reader Statement := fun chars =>
  match dottedKeys chars with
  | some (keys, ']' :: ']' :: rest) => some (.header keys true, rest)
  | _ => none

/-- Read the header of a table, after its opening bracket. -/
def tableHeader : Reader Statement := fun chars =>
  match dottedKeys chars with
  | some (keys, ']' :: rest) => some (.header keys false, rest)
  | _ => none

/-- Read a statement. -/
def statement : Reader Statement
  | '[' :: '[' :: rest => seriesHeader rest
  | '[' :: rest => tableHeader rest
  | chars =>
    (pair (value (nestingBound - 1)) chars).map fun (found, rest) => (.pair found, rest)

/-- Read statements to the end of the file. -/
def statements : (fuel : Nat) → List Char → Option (List Statement)
  | 0, _ => none
  | fuel + 1, chars =>
    match skipFiller false chars with
    | [] => some []
    | chars =>
      match statement chars with
      | none => none
      | some (found, rest) =>
        match endLine? rest with
        | none => none
        | some rest => (statements fuel rest).map (found :: ·)

/-- The pairs before the first header, and the sections of the headers. -/
def sectionsOf : List Statement → List Pair × List Section
  | [] => ([], [])
  | .pair found :: rest =>
    let (before, sections) := sectionsOf rest
    (found :: before, sections)
  | .header keys inSeries :: rest =>
    let (below, sections) := sectionsOf rest
    ([], ⟨keys, inSeries, below⟩ :: sections)

/-- Drop a mark of the byte order that stands first. -/
def dropByteOrderMark : List Char → List Char
  | '\ufeff' :: rest => rest
  | chars => chars

/-- Read a file: the table that it describes, unless it breaks a rule of the format. -/
def parse? (text : String) : Option Value := do
  let chars := dropByteOrderMark text.toList
  let found ← statements (chars.length + 1) chars
  let (pairs, sections) := sectionsOf found
  documentOf pairs sections

end EntityCatalog.Toml
