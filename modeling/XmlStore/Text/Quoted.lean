import XmlStore.Text.Printable

/-!
# Quoted texts

`Text.quote` writes a text in double quotes so that it stays on one line and shows what it holds:
quotes, backslashes and the usual control characters have escapes of their own, other characters
that cannot be shown are written by number.
-/

namespace XmlStore.Text

/-- The digits of a number in base 16. -/
def hex (n : Nat) : String := String.ofList (Nat.toDigits 16 n)

/-- One character of a quoted text. -/
def escape (c : Char) : String :=
  if c = '"' then "\\\""
  else if c = '\\' then "\\\\"
  else if c = '\t' then "\\t"
  else if c = '\r' then "\\r"
  else if c = '\n' then "\\n"
  else if c = '\x00' then "\\0"
  else if isPrintable c then String.singleton c
  else "\\u\x7b" ++ hex c.toNat ++ "\x7d"

/-- A text in quotes. -/
def quote (text : String) : String :=
  "\"" ++ String.join (text.toList.map escape) ++ "\""

end XmlStore.Text
