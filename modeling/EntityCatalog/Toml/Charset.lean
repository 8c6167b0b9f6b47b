/-!
# Characters of a configuration file

The classes of characters on which reading and writing a file rest. A line ends with a line feed
or with a carriage return and a line feed.
-/

namespace EntityCatalog.Toml

/-- A reader takes a result off the front of the characters. -/
abbrev Reader (α : Type) := List Char → Option (α × List Char)

/-- A blank within a line. -/
def isSpace (c : Char) : Bool := c == ' ' || c == '\t'

/-- A character that may stand in comments and within quotes: all but the control characters
other than the tab. -/
def isPlain (c : Char) : Bool := c == '\t' || (' ' ≤ c && c != '\x7f')

/-- A character of a key without quotes. -/
def isBare (c : Char) : Bool := c.isAlphanum || c == '_' || c == '-'

/-- A character that ends a literal. -/
def endsLiteral (c : Char) : Bool :=
  c == ' ' || c == '\t' || c == '\n' || c == '\r' || c == ',' || c == ']' || c == '\x7d' || c == '#'

/-- Drop blanks. -/
def skipSpaces (chars : List Char) : List Char := chars.dropWhile isSpace

/-- Drop one end of line. -/
def newline? : List Char → Option (List Char)
  | '\n' :: rest => some rest
  | '\r' :: '\n' :: rest => some rest
  | _ => none

/-- Drop blanks and ends of lines. -/
def skipLines : List Char → List Char
  | '\r' :: '\n' :: rest => skipLines rest
  | c :: rest => if isSpace c || c == '\n' then skipLines rest else c :: rest
  | [] => []

/-- Drop blanks, ends of lines and comments. -/
def skipFiller : (inComment : Bool) → List Char → List Char
  | _, [] => []
  | _, '\r' :: '\n' :: rest => skipFiller false rest
  | true, c :: rest =>
    if isPlain c then skipFiller true rest
    else if c == '\n' then skipFiller false rest
    else c :: rest
  | false, c :: rest =>
    if isSpace c || c == '\n' then skipFiller false rest
    else if c == '#' then skipFiller true rest
    else c :: rest

/-- Drop a comment at the front. -/
def skipComment : List Char → List Char
  | '#' :: rest => rest.dropWhile isPlain
  | chars => chars

/-- Drop blanks, a comment and the end of a line or of the file. -/
def endLine? (chars : List Char) : Option (List Char) :=
  match skipComment (skipSpaces chars) with
  | [] => some []
  | rest => newline? rest

/-- The value of a hexadecimal digit. -/
def hexValue? (c : Char) : Option Nat :=
  if c.isDigit then some (c.toNat - '0'.toNat)
  else if 'a' ≤ c && c ≤ 'f' then some (c.toNat - 'a'.toNat + 10)
  else if 'A' ≤ c && c ≤ 'F' then some (c.toNat - 'A'.toNat + 10)
  else none

/-- Read digits of a base onto a value that has been read so far. -/
def readBase? (base : Nat) : (value : Nat) → List Char → Option Nat
  | value, [] => some value
  | value, c :: rest =>
    match hexValue? c with
    | some digit => if digit < base then readBase? base (base * value + digit) rest else none
    | none => none

end EntityCatalog.Toml
