import EntityCatalog.Toml.Charset

/-!
# Quoted text

Text is quoted in four ways: on one line or over several, and with escapes (in quotation marks)
or as it stands (in apostrophes). A text over several lines starts after three marks, and the
first end of line after them is dropped. It ends with three marks, before which one or two marks
more belong to the text.
-/

namespace EntityCatalog.Toml

/-- The character that a letter after a backslash stands for. -/
def shortEscape? : Char → Option Char
  | 'b' => some '\x08'
  | 't' => some '\t'
  | 'n' => some '\n'
  | 'f' => some '\x0c'
  | 'r' => some '\r'
  | '"' => some '"'
  | '\\' => some '\\'
  | _ => none

/-- The character with the code point of that number. -/
def charOf? (code : Nat) : Option Char := if code.isValidChar then some (Char.ofNat code) else none

/-- Read a code point of exactly `width` hexadecimal digits. -/
def codePoint (width : Nat) : Reader Char := fun chars =>
  if (chars.take width).length < width then none
  else
    match (readBase? 16 0 (chars.take width)).bind charOf? with
    | some c => some (c, chars.drop width)
    | none => none

/-- Read what follows a backslash. -/
def escape : Reader Char
  | 'u' :: rest => codePoint 4 rest
  | 'U' :: rest => codePoint 8 rest
  | c :: rest => (shortEscape? c).map fun found => (found, rest)
  | [] => none

/-- Put a character before the text that a reader finds. -/
def before (c : Char) (found : Option (List Char × List Char)) : Option (List Char × List Char) :=
  found.map fun (text, rest) => (c :: text, rest)

/-- Read text with escapes up to its quotation mark. -/
def escapedLine : (fuel : Nat) → Reader (List Char)
  | 0, _ => none
  | _, [] => none
  | fuel + 1, c :: rest =>
    if c = '"' then some ([], rest)
    else if c = '\\' then
      match escape rest with
      | some (found, rest) => before found (escapedLine fuel rest)
      | none => none
    else if isPlain c then before c (escapedLine fuel rest)
    else none

/-- Read text as it stands up to its apostrophe. -/
def rawLine : Reader (List Char)
  | [] => none
  | c :: rest =>
    if c = '\'' then some ([], rest) else if isPlain c then before c (rawLine rest) else none

/-- The number of marks that end a text over several lines. -/
def closing : Nat := 3

/-- The marks that belong to a text before the three that end it. There are at most two. -/
def spareMarks (run : Nat) : Nat := min (run - closing) 2

/-- Read the marks at the front: either they end the text, after spare marks, or they belong to
the text and it goes on. -/
def marks (mark : Char) (goOn : Reader (List Char)) : Reader (List Char) := fun chars =>
  let run := (chars.takeWhile (· == mark)).length
  if run < closing then
    (goOn (chars.drop run)).map fun (text, rest) => (List.replicate run mark ++ text, rest)
  else some (List.replicate (spareMarks run) mark, chars.drop (closing + spareMarks run))

/-- Drop the end of a line, with the blanks before it and all blanks and ends of lines after it. -/
def joinedLine? (chars : List Char) : Option (List Char) :=
  (newline? (skipSpaces chars)).map skipLines

/-- Read text with escapes over several lines up to its three quotation marks. A backslash at the
end of a line joins it with the next text. -/
def escapedBlock : (fuel : Nat) → Reader (List Char)
  | 0, _ => none
  | _, [] => none
  | fuel + 1, c :: rest =>
    if c = '"' then marks '"' (escapedBlock fuel) (c :: rest)
    else if c = '\\' then
      match joinedLine? rest with
      | some rest => escapedBlock fuel rest
      | none =>
        match escape rest with
        | some (found, rest) => before found (escapedBlock fuel rest)
        | none => none
    else if isPlain c then before c (escapedBlock fuel rest)
    else
      match newline? (c :: rest) with
      | some rest => before '\n' (escapedBlock fuel rest)
      | none => none

/-- Read text as it stands over several lines up to its three apostrophes. -/
def rawBlock : (fuel : Nat) → Reader (List Char)
  | 0, _ => none
  | _, [] => none
  | fuel + 1, c :: rest =>
    if c = '\'' then marks '\'' (rawBlock fuel) (c :: rest)
    else if isPlain c then before c (rawBlock fuel rest)
    else
      match newline? (c :: rest) with
      | some rest => before '\n' (rawBlock fuel rest)
      | none => none

/-- Drop an end of line that stands first. -/
def dropFirstNewline (chars : List Char) : List Char := (newline? chars).getD chars

/-- Read text on one line with the quotes around it. -/
def quotedLine : Reader String
  | '"' :: rest => (escapedLine rest.length rest).map fun (text, rest) => (String.ofList text, rest)
  | '\'' :: rest => (rawLine rest).map fun (text, rest) => (String.ofList text, rest)
  | _ => none

/-- Read text with the quotes around it. -/
def quoted : Reader String
  | '"' :: '"' :: '"' :: rest =>
    (escapedBlock rest.length (dropFirstNewline rest)).map fun (text, rest) =>
      (String.ofList text, rest)
  | '\'' :: '\'' :: '\'' :: rest =>
    (rawBlock rest.length (dropFirstNewline rest)).map fun (text, rest) =>
      (String.ofList text, rest)
  | chars => quotedLine chars

end EntityCatalog.Toml
