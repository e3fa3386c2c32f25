/-
# Quoted texts

A quoted text stands between double quotes on one line. Tab, line feed, carriage return, NUL,
the double quote and the backslash have escapes of two characters, and every other character
that cannot be shown is written by its number in lower-case hexadecimal digits.
-/
import FishScript.Text.Basic
import FishScript.Text.Unprintable

namespace FishScript.Text

/-- The escape of a character that is written by its number. -/
def numberEscape (c : Char) : Text :=
  ['\\', 'u', '\x7b'] ++ Nat.toDigits 16 c.toNat ++ ['\x7d']

/-- How a character stands between the quotes. -/
def escaped (c : Char) : Text :=
  match c with
  | '\x00' => ['\\', '0']
  | '\t' => ['\\', 't']
  | '\n' => ['\\', 'n']
  | '\r' => ['\\', 'r']
  | '"' => ['\\', '"']
  | '\\' => ['\\', '\\']
  | c => if isUnprintable c then numberEscape c else [c]

/-- A text between quotes. -/
def quoted (t : Text) : Text := '"' :: (t.flatMap escaped ++ ['"'])

end FishScript.Text
