import EntityCatalog.Text.Decimal
import EntityCatalog.Toml.Charset

/-!
# Dates and times

A date, a time of day, or both, the latter perhaps with an offset from universal time. The
canonical spelling has a `T` between date and time, no zeros at the end of a fraction, and a
fraction of nine digits at most. Days that the calendar does not have are refused.
-/

namespace EntityCatalog.Toml

/-- Read a number of exactly `width` digits. -/
def fixedNumber (width : Nat) : Reader Nat := fun chars =>
  if (chars.take width).length < width then none
  else (Text.readDigits 0 (chars.take width)).map fun n => (n, chars.drop width)

/-- Read a number of two digits between two bounds. -/
def twoDigits (low high : Nat) : Reader Nat := fun chars =>
  match fixedNumber 2 chars with
  | some (n, rest) => if low ≤ n && n ≤ high then some (n, rest) else none
  | none => none

/-- Drop a given character. -/
def drop? (mark : Char) : List Char → Option (List Char)
  | c :: rest => if c = mark then some rest else none
  | [] => none

/-- The last day of a month. -/
def lastDay (year month : Nat) : Nat :=
  if month = 2 then if year % 4 = 0 && (year % 100 ≠ 0 || year % 400 = 0) then 29 else 28
  else if month = 4 || month = 6 || month = 9 || month = 11 then 30
  else 31

/-- Read a date; what is found is its spelling. -/
def date : Reader (List Char) := fun chars => do
  let (year, rest) ← fixedNumber 4 chars
  let (month, rest) ← twoDigits 1 12 (← drop? '-' rest)
  let (_, rest) ← twoDigits 1 (lastDay year month) (← drop? '-' rest)
  return (chars.take 10, rest)

/-- The digits of a fraction of a second that count. -/
def fractionDigits : Nat := 9

/-- The spelling of a fraction of a second. -/
def fractionText (digits : List Char) : List Char :=
  match ((digits.take fractionDigits).reverse.dropWhile (· == '0')).reverse with
  | [] => []
  | kept => '.' :: kept

/-- Read a fraction of a second, if there is one. -/
def fraction : Reader (List Char)
  | '.' :: rest =>
    match rest.takeWhile Char.isDigit with
    | [] => none
    | digits => some (fractionText digits, rest.dropWhile Char.isDigit)
  | chars => some ([], chars)

/-- Read a time of day; what is found is its canonical spelling. -/
def timeOfDay : Reader (List Char) := fun chars => do
  let (_, rest) ← twoDigits 0 23 chars
  let (_, rest) ← twoDigits 0 59 (← drop? ':' rest)
  let (_, rest) ← twoDigits 0 60 (← drop? ':' rest)
  let (part, rest) ← fraction rest
  return (chars.take 8 ++ part, rest)

/-- Read an offset, if there is one. An offset of nothing counts as ahead. -/
def offset : Reader (List Char)
  | 'Z' :: rest => some (['Z'], rest)
  | 'z' :: rest => some (['Z'], rest)
  | sign :: rest =>
    if sign = '+' || sign = '-' then do
      let (hours, after) ← twoDigits 0 23 rest
      let (minutes, after) ← twoDigits 0 59 (← drop? ':' after)
      let shown := if hours = 0 && minutes = 0 then '+' else sign
      return (shown :: rest.take 5, after)
    else some ([], sign :: rest)
  | [] => some ([], [])

/-- Read what follows a date. -/
def afterDate : Reader (List Char)
  | c :: rest =>
    if c = 'T' || c = 't' || c = ' ' then do
      let (time, rest) ← timeOfDay rest
      let (zone, rest) ← offset rest
      return ('T' :: (time ++ zone), rest)
    else some ([], c :: rest)
  | [] => some ([], [])

/-- The canonical spelling of a date, a time or both. -/
def moment? (chars : List Char) : Option String :=
  let found : Option (List Char × List Char) :=
    match date chars with
    | some (day, rest) => (afterDate rest).map fun (time, rest) => (day ++ time, rest)
    | none => timeOfDay chars
  match found with
  | some (text, []) => some (String.ofList text)
  | _ => none

end EntityCatalog.Toml
