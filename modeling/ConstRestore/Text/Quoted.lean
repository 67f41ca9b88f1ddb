/-
  Quoted text: a string between double quotes on one line.

  A quote and a backslash get a backslash; NUL, tab, newline and carriage
  return have short escapes; every other hidden character is written as its
  code point in hexadecimal between braces after `\u`.
-/
import ConstRestore.Text.Visible

namespace ConstRestore.Text

/-- The hexadecimal digits of a number, lower case. -/
def hex (n : Nat) : List Char := Nat.toDigits 16 n

/-- Four hexadecimal digits after `\u`, for a number below 65536. -/
def unitEscape (n : Nat) : String :=
  let digits := hex n
  String.ofList ('\\' :: 'u' :: List.replicate (4 - digits.length) '0' ++ digits)

/-- One character as it stands inside quotes. -/
def escapeChar (c : Char) : List Char :=
  if c = '"' ∨ c = '\\' then ['\\', c]
  else if c = '\x00' then ['\\', '0']
  else if c = '\t' then ['\\', 't']
  else if c = '\n' then ['\\', 'n']
  else if c = '\r' then ['\\', 'r']
  else if isVisible c then [c]
  else '\\' :: 'u' :: '\x7b' :: hex c.toNat ++ ['\x7d']

/-- The text between double quotes. -/
def quoted (s : String) : String :=
  String.ofList ('"' :: s.toList.flatMap escapeChar ++ ['"'])

end ConstRestore.Text
