import EntityCatalog.Number.Shortest
import EntityCatalog.Toml.Charset

/-!
# Numbers

An integer is written in decimal with a sign, or in base sixteen, eight or two without one, and
has to fit in 64 bits. A number with a fraction or an exponent is taken to the nearest binary
number. Single underscores may stand between digits. The canonical spelling is the integer in
decimal, or the shortest decimal of the binary number.
-/

namespace EntityCatalog.Toml

/-- Read digits that single underscores may part; what is found is the digits. -/
def digitRun (isDigit : Char → Bool) : List Char → List Char × List Char
  | '_' :: c :: rest =>
    if isDigit c then
      let (digits, rest) := digitRun isDigit rest
      (c :: digits, rest)
    else ([], '_' :: c :: rest)
  | c :: rest =>
    if isDigit c then
      let (digits, rest) := digitRun isDigit rest
      (c :: digits, rest)
    else ([], c :: rest)
  | [] => ([], [])

/-- Read one digit at the least, the first without an underscore before it. -/
def digits (isDigit : Char → Bool) : Reader (List Char)
  | c :: rest => if isDigit c then some (digitRun isDigit (c :: rest)) else none
  | [] => none

/-- Read a sign, if there is one: whether it is a minus. -/
def sign : List Char → Bool × List Char
  | '-' :: rest => (true, rest)
  | '+' :: rest => (false, rest)
  | chars => (false, chars)

/-- Read an integer in decimal. Only zero itself starts with a zero. -/
def wholeDigits : Reader (List Char)
  | '0' :: rest => some (['0'], rest)
  | chars => digits Char.isDigit chars

/-- A natural from its decimal digits. -/
def ofDigits (digits : List Char) : Nat := (Text.readDigits 0 digits).getD 0

/-- The number of integers of either sign, zero among those of no sign, in 64 bits. -/
def signedBound : Nat := Nat.pow 2 63

/-- An integer in decimal, if it fits. -/
def integerText? (negative : Bool) (n : Nat) : Option String :=
  if negative && n ≠ 0 then
    if n ≤ signedBound then some ("-" ++ Text.decimal n) else none
  else if n < signedBound then some (Text.decimal n)
  else none

/-- The integer written with the given digits in a base. -/
def based? (base : Nat) (chars : List Char) : Option String :=
  let isDigit (c : Char) : Bool := (hexValue? c).any fun digit => digit < base
  match digits isDigit chars with
  | some (found, []) => (readBase? base 0 found).bind (integerText? false)
  | _ => none

/-- Decimal exponents beyond which a number is out of the range of the binary format. -/
def exponentBound : Int := 400

/-- The binary number nearest to `n * 10 ^ exponent`. A number far out of range is replaced by
another one that is out of range in the same direction. -/
def nearestBinary (n : Nat) (exponent : Int) : Binary64 :=
  let magnitude : Int := exponent + (Text.decimalChars n).length
  if n = 0 || magnitude < -exponentBound then .ofQuotient 0 1
  else if exponentBound < magnitude then .ofQuotient (Nat.pow 2 1024) 1
  else .ofQuotient (n * Nat.pow 10 exponent.toNat) (Nat.pow 10 (-exponent).toNat)

/-- The text of a signed binary number. Only negative numbers may be infinite. -/
def realText? (negative : Bool) (x : Binary64) : Option String :=
  if x.isFinite then some ((if negative then "-" else "") ++ x.text)
  else if negative then some "-inf"
  else none

/-- Read a fraction, if there is one: its digits. -/
def fractionPart : Reader (List Char)
  | '.' :: rest => digits Char.isDigit rest
  | chars => some ([], chars)

/-- Read an exponent, if there is one. -/
def exponentPart : Reader Int
  | c :: rest =>
    if c = 'e' || c = 'E' then
      let (negative, rest) := sign rest
      (digits Char.isDigit rest).map fun (found, rest) =>
        ((if negative then -(ofDigits found : Int) else ofDigits found), rest)
    else some (0, c :: rest)
  | [] => some (0, [])

/-- The canonical spelling of a number in decimal. -/
def decimal? (chars : List Char) : Option String := do
  let (negative, chars) := sign chars
  let (whole, rest) ← wholeDigits chars
  if rest.isEmpty then integerText? negative (ofDigits whole)
  else
    let (part, rest) ← fractionPart rest
    let (exponent, rest) ← exponentPart rest
    if rest.isEmpty then
      realText? negative (nearestBinary (ofDigits (whole ++ part)) (exponent - part.length))
    else none

/-- The canonical spelling of a number. -/
def numeral? : List Char → Option String
  | '0' :: 'x' :: rest => based? 16 rest
  | '0' :: 'o' :: rest => based? 8 rest
  | '0' :: 'b' :: rest => based? 2 rest
  | chars => decimal? chars

end EntityCatalog.Toml
