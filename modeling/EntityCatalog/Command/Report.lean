import EntityCatalog.Error

/-!
# Reports of failures

When the tool fails it reports what failed and, where something else failed for that reason, the
cause below it.
-/

namespace EntityCatalog

/-- The character of that code between apostrophes. What cannot be shown is escaped. -/
def quoteByte (b : UInt8) : String :=
  let n := b.toNat
  let shown :=
    if n = 9 then "\\t"
    else if n = 10 then "\\n"
    else if n = 13 then "\\r"
    else if n = 0 then "\\0"
    else if n = 39 then "\\'"
    else if n = 92 then "\\\\"
    else if n < 32 || (127 ≤ n && n ≤ 160) || n = 173 then
      "\\u\x7b" ++ String.ofList (Nat.toDigits 16 n) ++ "\x7d"
    else String.ofList [Char.ofNat n]
  "'" ++ shown ++ "'"

/-- The wording of a fault in a hexadecimal text. -/
def Hex.Fault.text : Hex.Fault → String
  | .oddLength => "Odd number of digits"
  | .badDigit found position =>
    "Invalid character " ++ quoteByte found ++ " at position " ++ Text.decimal position

/-- What failed, and why. -/
structure Report where
  message : String
  cause : Option String
deriving DecidableEq, Repr

namespace Report

/-- The report of an error that needs no explanation. -/
def ofError (error : Error) : Report := ⟨error.message, none⟩

/-- The text of a report. -/
def text (report : Report) : String :=
  match report.cause with
  | none => "Error: " ++ report.message
  | some cause => "Error: " ++ report.message ++ "\n\nCaused by:\n    " ++ cause

end Report

end EntityCatalog
