/-
# Values of config documents

The values that a TOML document can hold, as far as a config file needs them: texts, integers,
arrays and tables. Which parts of a document may still add to a table depends on how the table
came about, so a table remembers its origin.
-/
import FishScript.Text.Basic

namespace FishScript.Toml

/-- How a table came about. -/
inductive Origin
  /-- By a header of its own. -/
  | header
  /-- On the way to a table with a header. -/
  | implied
  /-- By a dotted key. -/
  | dotted
  /-- Between braces; nothing can be added to it. -/
  | inlined
deriving DecidableEq, Repr

/-- A value. -/
inductive Value
  /-- A text. -/
  | text (t : Text)
  /-- An integer. -/
  | integer (n : Int)
  /-- An array. -/
  | array (items : List Value)
  /-- A table, its keys in the order in which they came up. -/
  | table (origin : Origin) (entries : List (Text × Value))
deriving Repr

/-- The entries of a table. -/
abbrev Entries := List (Text × Value)

namespace Entries

/-- The value of a key. -/
def get? (key : Text) (entries : Entries) : Option Value :=
  (entries.find? (·.1 == key)).map Prod.snd

/-- Give a key a value, in its place if it has one already. -/
def set (key : Text) (value : Value) (entries : Entries) : Entries :=
  if entries.any (·.1 == key) then
    entries.map fun e => if e.1 == key then (key, value) else e
  else entries ++ [(key, value)]

end Entries

/-! ## Adding to tables -/

/-- Change the table at the end of a path, with the tables on the way made where they are
missing. A dotted path leads through no table that has a header, no path leads through a table
between braces or another value. -/
def changeAt? (dotted : Bool) (change : Origin → Entries → Option Value) :
    List Text → Origin → Entries → Option Value
  | [], origin, entries => change origin entries
  | key :: path, origin, entries =>
    let changed := match entries.get? key with
      | none => changeAt? dotted change path (if dotted then .dotted else .implied) []
      | some (.table inner content) =>
        if inner == Origin.inlined || (dotted && inner == Origin.header) then none
        else changeAt? dotted change path inner content
      | some _ => none
    changed.map fun value => .table origin (entries.set key value)

/-- The table with a new key. -/
def insertNew? (key : Text) (value : Value) (origin : Origin) (entries : Entries) :
    Option Value :=
  if entries.any (·.1 == key) then none else some (.table origin (entries ++ [(key, value)]))

/-- The table with a new dotted key, given by the keys before the last and the last. A table that
only a header implied takes no dotted keys. -/
def insertDotted? (path : List Text) (key : Text) (value : Value) (origin : Origin)
    (entries : Entries) : Option Value :=
  changeAt? true
    (fun o es => if !path.isEmpty && o != Origin.dotted then none else insertNew? key value o es)
    path origin entries

/-- The table with a header for one of its keys. A table that is only implied so far gets the
header, everything else is there already. -/
def openTable? (key : Text) (origin : Origin) (entries : Entries) : Option Value :=
  match entries.get? key with
  | none => some (.table origin (entries ++ [(key, .table .header [])]))
  | some (.table .implied content) =>
    some (.table origin (entries.set key (.table .header content)))
  | some _ => none

end FishScript.Toml
