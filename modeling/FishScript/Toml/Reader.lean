/-
# Reading config documents

A reader of TOML documents that hold only texts, integers, arrays and tables. Everything else,
other scalars and arrays of tables included, is refused like a document that is not well formed.
-/
import FishScript.Toml.Value

namespace FishScript.Toml

/-! ## Characters and lines -/

/-- Space or tab. -/
def isSpace (c : Char) : Bool := c == ' ' || c == '\t'

/-- A character that may stand in comments and texts: no control character but the tab. -/
def isPlain (c : Char) : Bool := c == '\t' || (' ' ≤ c && c != '\x7f')

/-- The text after spaces. -/
def skipSpace (t : Text) : Text := t.dropWhile isSpace

/-- The text after an end of line, which the end of the document also is. -/
def newline? : Text → Option Text
  | [] => some []
  | '\n' :: t => some t
  | '\r' :: '\n' :: t => some t
  | _ => none

/-- The text after the rest of a line on which only a comment may still stand. -/
def lineEnd? (t : Text) : Option Text :=
  match skipSpace t with
  | '#' :: rest => newline? (rest.dropWhile isPlain)
  | rest => newline? rest

/-- The text after spaces, comments and ends of lines; `comment` says that a comment is open. -/
def skipBlank? (comment : Bool) : Text → Option Text
  | [] => some []
  | '\n' :: t => skipBlank? false t
  | '\r' :: '\n' :: t => skipBlank? false t
  | c :: t =>
    if comment then (if isPlain c then skipBlank? true t else none)
    else if isSpace c then skipBlank? false t
    else if c = '#' then skipBlank? true t
    else some (c :: t)

/-! ## Texts -/

/-- What is read and what follows it. -/
abbrev Read (α : Type) := Option (α × Text)

/-- The character that an escape names by one letter. -/
def shortEscape? : Char → Option Char
  | 'b' => some '\x08'
  | 't' => some '\t'
  | 'n' => some '\n'
  | 'f' => some '\x0c'
  | 'r' => some '\r'
  | '"' => some '"'
  | '\\' => some '\\'
  | _ => none

/-- The character that hexadecimal digits name. -/
def numberedChar? (digits : Text) : Option Char :=
  (digits.digits? 16).bind fun n => if n.isValidChar then some (Char.ofNat n) else none

/-- A text between double quotes, after the first of them. -/
def basicText? (read : Text) : Text → Read Text
  | [] => none
  | '"' :: t => some (read.reverse, t)
  | '\\' :: 'u' :: a :: b :: c :: d :: t =>
    (numberedChar? [a, b, c, d]).bind fun x => basicText? (x :: read) t
  | '\\' :: 'U' :: a :: b :: c :: d :: e :: f :: g :: h :: t =>
    (numberedChar? [a, b, c, d, e, f, g, h]).bind fun x => basicText? (x :: read) t
  | '\\' :: c :: t => (shortEscape? c).bind fun x => basicText? (x :: read) t
  | c :: t => if isPlain c && c != '\\' then basicText? (c :: read) t else none

/-- A text between single quotes, after the first of them. -/
def literalText? (read : Text) : Text → Read Text
  | [] => none
  | '\'' :: t => some (read.reverse, t)
  | c :: t => if isPlain c then literalText? (c :: read) t else none

/-- A backslash stands before the end of a line. -/
def continuesLine (t : Text) : Bool :=
  match skipSpace t with
  | '\n' :: _ => true
  | '\r' :: '\n' :: _ => true
  | _ => false

/-- A text of several lines between triple double quotes, after the first three of them;
`joining` says that a backslash at the end of a line has joined the lines and white space is
passed over. -/
def basicLines? (joining : Bool) (read : Text) : Text → Read Text
  | [] => none
  | '"' :: '"' :: '"' :: '"' :: '"' :: t => some (('"' :: '"' :: read).reverse, t)
  | '"' :: '"' :: '"' :: '"' :: t => some (('"' :: read).reverse, t)
  | '"' :: '"' :: '"' :: t => some (read.reverse, t)
  | '\n' :: t => basicLines? joining (if joining then read else '\n' :: read) t
  | '\r' :: '\n' :: t => basicLines? joining (if joining then read else '\n' :: read) t
  | '\\' :: 'u' :: a :: b :: c :: d :: t =>
    (numberedChar? [a, b, c, d]).bind fun x => basicLines? false (x :: read) t
  | '\\' :: 'U' :: a :: b :: c :: d :: e :: f :: g :: h :: t =>
    (numberedChar? [a, b, c, d, e, f, g, h]).bind fun x => basicLines? false (x :: read) t
  | '\\' :: c :: t =>
    if continuesLine (c :: t) then basicLines? true read (c :: t)
    else (shortEscape? c).bind fun x => basicLines? false (x :: read) t
  | c :: t =>
    if joining && isSpace c then basicLines? true read t
    else if isPlain c && c != '\\' then basicLines? false (c :: read) t
    else none

/-- A text of several lines between triple single quotes, after the first three of them. -/
def literalLines? (read : Text) : Text → Read Text
  | [] => none
  | '\'' :: '\'' :: '\'' :: '\'' :: '\'' :: t => some (('\'' :: '\'' :: read).reverse, t)
  | '\'' :: '\'' :: '\'' :: '\'' :: t => some (('\'' :: read).reverse, t)
  | '\'' :: '\'' :: '\'' :: t => some (read.reverse, t)
  | '\n' :: t => literalLines? ('\n' :: read) t
  | '\r' :: '\n' :: t => literalLines? ('\n' :: read) t
  | c :: t => if isPlain c then literalLines? (c :: read) t else none

/-- A line feed right after the opening quotes does not belong to the text. -/
def dropFirstNewline : Text → Text
  | '\n' :: t => t
  | '\r' :: '\n' :: t => t
  | t => t

/-- A text of one line with its quotes. -/
def quotedText? : Text → Read Text
  | '"' :: t => basicText? [] t
  | '\'' :: t => literalText? [] t
  | _ => none

/-- A text with its quotes. -/
def text? : Text → Read Text
  | '"' :: '"' :: '"' :: t => basicLines? false [] (dropFirstNewline t)
  | '\'' :: '\'' :: '\'' :: t => literalLines? [] (dropFirstNewline t)
  | t => quotedText? t

/-! ## Integers -/

/-- The number written by digits of a base. Single underscores may stand between digits. -/
def grouped? (base : Nat) (t : Text) : Option Nat :=
  let groups := t.pieces '_'
  if groups.any List.isEmpty then none else Text.digits? base groups.flatten

/-- A decimal number has no zero before its other digits. -/
def decimal? (t : Text) : Option Nat :=
  match t with
  | '0' :: _ :: _ => none
  | _ => grouped? 10 t

/-- The integer that a text is. -/
def integer? (t : Text) : Option Int :=
  match t with
  | '0' :: 'x' :: digits => (grouped? 16 digits).map Int.ofNat
  | '0' :: 'o' :: digits => (grouped? 8 digits).map Int.ofNat
  | '0' :: 'b' :: digits => (grouped? 2 digits).map Int.ofNat
  | '+' :: digits => (decimal? digits).map Int.ofNat
  | '-' :: digits => (decimal? digits).map fun n => -Int.ofNat n
  | digits => (decimal? digits).map Int.ofNat

/-- A character of an integer. -/
def isNumeral (c : Char) : Bool := c.isAlphanum || c == '_' || c == '+' || c == '-'

/-! ## Keys -/

/-- A character of a key without quotes. -/
def isBare (c : Char) : Bool := c.isAlphanum || c == '_' || c == '-'

/-- One part of a key. -/
def keyPart? (t : Text) : Read Text :=
  match t with
  | '"' :: _ => quotedText? t
  | '\'' :: _ => quotedText? t
  | _ =>
    let part := t.takeWhile isBare
    if part.isEmpty then none else some (part, t.dropWhile isBare)

/-- A key: the parts before the last, and the last. At most `fuel` parts are read. -/
def key? (fuel : Nat) (t : Text) : Read (List Text × Text) :=
  match fuel with
  | 0 => none
  | fuel + 1 =>
    (keyPart? t).bind fun (part, rest) =>
      match skipSpace rest with
      | '.' :: more =>
        (key? fuel (skipSpace more)).map fun ((path, last), rest) => ((part :: path, last), rest)
      | rest => some (([], part), rest)

/-! ## Values -/

mutual

/-- A value. The fuel bounds the steps into it. -/
def value? (fuel : Nat) (t : Text) : Read Value :=
  match fuel with
  | 0 => none
  | fuel + 1 =>
    match t with
    | '"' :: _ => (text? t).map fun (x, rest) => (.text x, rest)
    | '\'' :: _ => (text? t).map fun (x, rest) => (.text x, rest)
    | '[' :: rest => (items? fuel [] rest).map fun (xs, rest) => (.array xs, rest)
    | '\x7b' :: rest =>
      match skipSpace rest with
      | '\x7d' :: rest => some (.table .inlined [], rest)
      | rest => (pairs? fuel [] rest).map fun (entries, rest) => (.table .inlined entries, rest)
    | _ =>
      (integer? (t.takeWhile isNumeral)).map fun n => (.integer n, t.dropWhile isNumeral)

/-- The items of an array from some place on, those before it last first. -/
def items? (fuel : Nat) (read : List Value) (t : Text) : Read (List Value) :=
  match fuel with
  | 0 => none
  | fuel + 1 =>
    (skipBlank? false t).bind fun
      | ']' :: rest => some (read.reverse, rest)
      | t =>
        (value? fuel t).bind fun (x, rest) =>
          (skipBlank? false rest).bind fun
            | ',' :: rest => items? fuel (x :: read) rest
            | ']' :: rest => some ((x :: read).reverse, rest)
            | _ => none

/-- A key with its value. -/
def pair? (fuel : Nat) (t : Text) : Read ((List Text × Text) × Value) :=
  match fuel with
  | 0 => none
  | fuel + 1 =>
    (key? (t.length + 1) t).bind fun (key, rest) =>
      match rest with
      | '=' :: rest => (value? fuel (skipSpace rest)).map fun (x, rest) => ((key, x), rest)
      | _ => none

/-- The entries of a table between braces from some place on. -/
def pairs? (fuel : Nat) (entries : Entries) (t : Text) : Read Entries :=
  match fuel with
  | 0 => none
  | fuel + 1 =>
    (pair? fuel (skipSpace t)).bind fun (((path, key), x), rest) =>
      match insertDotted? path key x .inlined entries with
      | some (.table _ entries) =>
        match skipSpace rest with
        | ',' :: rest => pairs? fuel entries rest
        | '\x7d' :: rest => some (entries, rest)
        | _ => none
      | _ => none

end

/-! ## Documents -/

/-- A document read in part. -/
structure Draft where
  /-- The entries so far. -/
  entries : Entries
  /-- The table to which keys are added, by its path. -/
  current : List Text

namespace Draft

/-- The document after a change of its entries. -/
def ofChange? (p : Draft) : Option Value → Option Draft
  | some (.table _ entries) => some { p with entries }
  | _ => none

/-- The document after a header. -/
def enter? (p : Draft) (path : List Text) (key : Text) : Option Draft :=
  ({ p with current := path ++ [key] } : Draft).ofChange?
    (changeAt? false (openTable? key) path .header p.entries)

/-- The document after a key with its value. -/
def insert? (p : Draft) (path : List Text) (key : Text) (x : Value) : Option Draft :=
  p.ofChange? (changeAt? false (insertDotted? path key x) p.current .header p.entries)

end Draft

/-- The entries of a document of which the part before some line is read. The fuel bounds the
number of lines. -/
def documentFrom? (fuel : Nat) (p : Draft) (t : Text) : Option Entries :=
  match fuel with
  | 0 => none
  | fuel + 1 =>
    match skipSpace t with
    | [] => some p.entries
    | '[' :: rest =>
      (key? (rest.length + 1) (skipSpace rest)).bind fun ((path, key), rest) =>
        match rest with
        | ']' :: rest => do
          let rest ← lineEnd? rest
          let p ← p.enter? path key
          documentFrom? fuel p rest
        | _ => none
    | t =>
      match lineEnd? t with
      | some rest => documentFrom? fuel p rest
      | none => do
        let (((path, key), x), rest) ← pair? (t.length + 2) t
        let rest ← lineEnd? rest
        let p ← p.insert? path key x
        documentFrom? fuel p rest

/-- The entries of a document. A byte order mark before it is passed over. -/
def document? (t : Text) : Option Entries :=
  let body := match t with
    | '\uFEFF' :: rest => rest
    | _ => t
  documentFrom? (body.length + 1) ⟨[], []⟩ body

end FishScript.Toml
