import EntityCatalog.Bytes.Hex
import EntityCatalog.Rows.Basic
import EntityCatalog.Text.Cut

/-!
# Rows as a file

A store that is not open is a text file with a line for each row: the key and the value in
hexadecimal, with a blank between them.
-/

namespace EntityCatalog.Rows

/-- The line of a row. -/
def line (row : Row) : String := Hex.encode row.1 ++ " " ++ Hex.encode row.2

/-- The text of a file with the rows. -/
def fileText (rows : Rows) : String :=
  rows.toList.foldr (fun row rest => line row ++ "\n" ++ rest) ""

/-- Read a line. -/
def readLine? (chars : List Char) : Option Row := do
  let (key, value) ← Text.cutAt? ' ' chars
  let key ← (Hex.decode (String.ofList key)).toOption
  let value ← (Hex.decode (String.ofList value)).toOption
  return (key, value)

/-- Read the text of a file. Every line ends with a line feed. -/
def ofFileText? (text : String) : Option Rows := do
  let lines := Text.pieces '\n' text.toList
  if lines.getLast? = some [] then
    return ofList (← lines.dropLast.mapM readLine?)
  else none

end EntityCatalog.Rows
