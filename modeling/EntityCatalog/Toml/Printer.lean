import EntityCatalog.Toml.Charset
import EntityCatalog.Toml.Value

/-!
# Writing values

A value is written on one line, but for text that holds ends of lines. Text is quoted in the
first of four ways that needs no escapes, and with escapes if there is none.
-/

namespace EntityCatalog.Toml

/-- The length of the longest run of a character, given the length of the run before. -/
def longestRun (mark : Char) : (run : Nat) → List Char → Nat
  | run, [] => run
  | run, c :: rest =>
    if c = mark then longestRun mark (run + 1) rest else max run (longestRun mark 0 rest)

/-- Whether a character can only be written with an escape that gives its code. -/
def isControl (c : Char) : Bool := !isPlain c && c != '\n'

/-- The digit of a code in an escape. -/
def codeDigit (n : Nat) : Char := if n < 10 then Char.ofNat (48 + n) else Char.ofNat (55 + n)

/-- The escape of a character by its code. -/
def codeEscape (c : Char) : List Char :=
  let n := c.toNat
  ['\\', 'u', codeDigit (n / 4096), codeDigit (n / 256 % 16), codeDigit (n / 16 % 16),
   codeDigit (n % 16)]

/-- A character other than a quotation mark between quotation marks. -/
def escapeChar (overLines : Bool) (c : Char) : List Char :=
  match c with
  | '\x08' => ['\\', 'b']
  | '\t' => ['\\', 't']
  | '\n' => if overLines then ['\n'] else ['\\', 'n']
  | '\x0c' => ['\\', 'f']
  | '\r' => ['\\', 'r']
  | '\\' => ['\\', '\\']
  | c => if isControl c then codeEscape c else [c]

/-- Text between quotation marks, of which at most `allowed` in a row stand without an escape. -/
def escapeChars (overLines : Bool) (allowed : Nat) : (run : Nat) → List Char → List Char
  | _, [] => []
  | run, c :: rest =>
    if c = '"' then
      if run < allowed then c :: escapeChars overLines allowed (run + 1) rest
      else '\\' :: c :: escapeChars overLines allowed 0 rest
    else escapeChar overLines c ++ escapeChars overLines allowed 0 rest

/-- Text on one line in quotation marks. -/
def basicLine (chars : List Char) : List Char := '"' :: (escapeChars false 0 0 chars ++ ['"'])

/-- Text on one line in apostrophes. -/
def literalLine (chars : List Char) : List Char := '\'' :: (chars ++ ['\''])

/-- The end of line after the opening marks of a text that holds ends of lines. -/
def opening (chars : List Char) : List Char := if chars.contains '\n' then ['\n'] else []

/-- Text over several lines in quotation marks. -/
def basicBlock (chars : List Char) : List Char :=
  ['"', '"', '"'] ++ opening chars ++ escapeChars true 2 0 chars ++ ['"', '"', '"']

/-- Text over several lines in apostrophes. -/
def literalBlock (chars : List Char) : List Char :=
  ['\'', '\'', '\''] ++ opening chars ++ chars ++ ['\'', '\'', '\'']

/-- Text in quotes. -/
def quote (text : String) : String :=
  let chars := text.toList
  let marks := longestRun '"' 0 chars
  let apostrophes := longestRun '\'' 0 chars
  let broken := chars.contains '\n'
  let escaped := chars.contains '\\'
  String.ofList <|
    if chars.any isControl then if broken then basicBlock chars else basicLine chars
    else if !escaped && marks = 0 && !broken then basicLine chars
    else if apostrophes = 0 && !broken then literalLine chars
    else if !escaped && marks ≤ 2 then basicBlock chars
    else if apostrophes ≤ 2 then literalBlock chars
    else if broken then basicBlock chars
    else basicLine chars

/-- A key, in quotes if it has to be. A key stays on one line. -/
def printKey (key : String) : String :=
  let chars := key.toList
  if !chars.isEmpty && chars.all isBare then key
  else if !chars.any (fun c => isControl c || c == '\n') && chars.any (fun c => c == '"' || c == '\\')
      && !chars.contains '\'' then String.ofList (literalLine chars)
  else String.ofList (basicLine chars)

mutual

/-- A value as it is written in a file. -/
def Value.print : Value → String
  | .text text => quote text
  | .literal text => text
  | .array items => "[" ++ ", ".intercalate (printItems items) ++ "]"
  | .table [] => "\x7b\x7d"
  | .table entries => "\x7b " ++ ", ".intercalate (printEntries entries) ++ " \x7d"

/-- Values as they are written in a file. -/
def printItems : List Value → List String
  | [] => []
  | item :: rest => item.print :: printItems rest

/-- Entries as they are written in a table on one line. -/
def printEntries : List (String × Value) → List String
  | [] => []
  | (key, value) :: rest => (printKey key ++ " = " ++ value.print) :: printEntries rest

end

end EntityCatalog.Toml
