/-
# JSON documents

The values of JSON that reports consist of and their layout: two spaces for each level, one item
on a line, brackets without items side by side.
-/
import FishScript.Text.Basic

namespace FishScript.Json

/-- A value. -/
inductive Value
  /-- A text. -/
  | text (t : Text)
  /-- A number. -/
  | number (n : Nat)
  /-- An array. -/
  | array (items : List Value)
  /-- An object, its keys in the order in which they are written. -/
  | object (entries : List (Text × Value))
deriving Repr

/-! ## Texts -/

/-- A hexadecimal digit. -/
def hexDigit (n : Nat) : Char := (Nat.toDigits 16 n).head?.getD '0'

/-- A character as it is written between quotes. Quotes, backslashes and control characters are
escaped, everything else stands for itself. -/
def escaped (c : Char) : Text :=
  match c with
  | '"' => ['\\', '"']
  | '\\' => ['\\', '\\']
  | '\n' => ['\\', 'n']
  | '\r' => ['\\', 'r']
  | '\t' => ['\\', 't']
  | '\x08' => ['\\', 'b']
  | '\x0c' => ['\\', 'f']
  | c => if c < ' ' then ['\\', 'u', '0', '0', hexDigit (c.toNat / 16), hexDigit (c.toNat % 16)]
    else [c]

/-- A text with its quotes. -/
def quoted (t : Text) : Text := '"' :: (t.flatMap escaped ++ ['"'])

/-! ## Layout -/

/-- The start of a line at a level. -/
def newLine (level : Nat) : Text := '\n' :: List.replicate (2 * level) ' '

/-- Items between brackets, each on a line of its own one level below that of the brackets. -/
def bracketed (opening closing : Char) (level : Nat) (items : List Text) : Text :=
  if items.isEmpty then [opening, closing]
  else opening :: (Text.joined [','] (items.map (newLine (level + 1) ++ ·))
    ++ newLine level ++ [closing])

mutual

/-- A value written at a level. -/
def Value.layout (level : Nat) : Value → Text
  | .text t => quoted t
  | .number n => Text.ofNat n
  | .array items => bracketed '[' ']' level (layoutAll (level + 1) items)
  | .object entries => bracketed '\x7b' '\x7d' level (layoutEntries (level + 1) entries)

/-- The values of a list, each written at a level. -/
def layoutAll (level : Nat) : List Value → List Text
  | [] => []
  | v :: rest => v.layout level :: layoutAll level rest

/-- The entries of an object, each written at a level. -/
def layoutEntries (level : Nat) : List (Text × Value) → List Text
  | [] => []
  | (key, v) :: rest => (quoted key ++ ':' :: ' ' :: v.layout level) :: layoutEntries level rest

end

/-- A document that consists of a value. -/
def Value.document (v : Value) : Text := v.layout 0

end FishScript.Json
