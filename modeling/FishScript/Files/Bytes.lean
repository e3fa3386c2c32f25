/-
# Bytes of files

What files hold, and the text that it stands for if it is valid UTF-8.
-/
import FishScript.Text.Basic

namespace FishScript

/-- What a file holds. -/
abbrev Bytes := List UInt8

namespace Text

/-- The UTF-8 encoding of a text. -/
def utf8 (t : Text) : Bytes := t.flatMap String.utf8EncodeChar

end Text

namespace Bytes

/-- The text that bytes encode. -/
def text? (b : Bytes) : Option Text := (String.fromUTF8? ⟨b.toArray⟩).map String.toList

/-- The lines of bytes of which `current`, last byte first, is already read. -/
def linesFrom (current : Bytes) : Bytes → List Bytes
  | [] => if current.isEmpty then [] else [current.reverse]
  | x :: b =>
    if x = 10 then (x :: current).reverse :: linesFrom [] b else linesFrom (x :: current) b

/-- The lines of a file, each with its line feed. -/
def lines (b : Bytes) : List Bytes := linesFrom [] b

end Bytes

end FishScript
