/-
# Arguments of the command line

The words after the program's name: paths, options with a value and flags. Options and paths may
come in any order; after a lone `--` every word is a path. A word that starts with a dash is never
taken for the value of an option, except for the dash alone, which stands for standard input.

An option is judged when its last word has been seen, that is when the next option or path begins.
An unknown option is refused at once, whatever is wrong before it.
-/
import FishScript.Diagnostic.Code

namespace FishScript.CommandLine

/-- How reports are printed. -/
inductive OutputFormat
  /-- Lines for a reader. -/
  | text
  /-- A JSON document. -/
  | json
deriving DecidableEq, Repr

namespace OutputFormat

/-- The name of a format. -/
def name : OutputFormat → String
  | .text => "text"
  | .json => "json"

/-- The format with a name. -/
def ofName? (t : Text) : Option OutputFormat := [text, json].find? (·.name.toList == t)

end OutputFormat

/-- What a run is asked to do. -/
structure Arguments where
  /-- The scripts and directories to look at. -/
  paths : List Text
  /-- The function for whose sake every script counts as loaded. -/
  autoloadName : Option Text
  /-- How the reports are printed. -/
  format : OutputFormat
  /-- The config file to use in place of the one that would be found. -/
  config : Option Text
  /-- Codes that are not reported. -/
  disabled : List Code
  /-- Print syntax trees and report nothing. -/
  dumpTree : Bool
  /-- Never colour the reports. -/
  noColor : Bool
deriving DecidableEq, Repr

/-- Why a command line does not say what to do. -/
inductive UsageError
  /-- There is no such option. -/
  | unknownOption
  /-- An option lacks its value or has one that it does not take, or a path is empty. -/
  | invalidValue
  /-- A value names no code. -/
  | invalidCode
  /-- An option that is given once is given again. -/
  | repeatedOption
  /-- A flag has a value. -/
  | valueOfFlag
  /-- A description of the options is asked for. -/
  | helpWanted
  /-- The version is asked for. -/
  | versionWanted
deriving DecidableEq, Repr

namespace UsageError

/-- The status with which a program ends that is called in this way. -/
def status : UsageError → Nat
  | .helpWanted | .versionWanted => 0
  | _ => 2

end UsageError

/-! ## Options -/

/-- The options with a value. -/
inductive ValueOption
  /-- The name for whose sake scripts are loaded. -/
  | autoloadName
  /-- The format of the reports. -/
  | format
  /-- The config file. -/
  | config
  /-- A code that is not reported. -/
  | disable
deriving DecidableEq, Repr

/-- The options without a value. -/
inductive Flag
  /-- Print syntax trees. -/
  | dumpTree
  /-- No colours. -/
  | noColor
  /-- Describe the options. -/
  | help
  /-- Tell the version. -/
  | version
deriving DecidableEq, Repr

/-- An option of either sort. -/
inductive LongOption
  /-- One with a value. -/
  | valued (o : ValueOption)
  /-- One without. -/
  | flag (f : Flag)
deriving DecidableEq, Repr

namespace LongOption

/-- All options with the names that follow their two dashes. -/
def table : List (String × LongOption) :=
  [("autoload-name", .valued .autoloadName), ("format", .valued .format),
    ("config", .valued .config), ("disable", .valued .disable), ("dump-tree", .flag .dumpTree),
    ("no-color", .flag .noColor), ("help", .flag .help), ("version", .flag .version)]

/-- The option with a name. -/
def ofName? (name : Text) : Option LongOption :=
  (table.find? (·.1.toList == name)).map Prod.snd

end LongOption

/-- The flag that a letter after one dash stands for. -/
def Flag.ofLetter? : Char → Option Flag
  | 'h' => some .help
  | 'V' => some .version
  | _ => none

/-- A word of the command line by its looks. -/
inductive Word
  /-- The two dashes after which only paths come. -/
  | separator
  /-- An option written with two dashes, and its value after an equals sign. -/
  | long (name : Text) (value : Option Text)
  /-- Letters after one dash, the first of them. -/
  | short (letter : Char)
  /-- A path, or the value of an option. -/
  | plain (t : Text)
deriving DecidableEq, Repr

namespace Word

/-- The word that a text is. -/
def ofText : Text → Word
  | ['-', '-'] => .separator
  | '-' :: '-' :: body =>
    match Text.cut? '=' body with
    | some (name, value) => .long name (some value)
    | none => .long body none
  | '-' :: letter :: _ => .short letter
  | t => .plain t

end Word

/-! ## Reading the words -/

/-- What the words so far have settled. -/
structure Draft where
  /-- The paths. -/
  paths : List Text
  /-- The name for whose sake scripts are loaded. -/
  autoloadName : Option Text
  /-- The format. -/
  format : Option OutputFormat
  /-- The config file. -/
  config : Option Text
  /-- The codes that are not reported. -/
  disabled : List Code
  /-- Syntax trees are printed. -/
  dumpTree : Bool
  /-- There are no colours. -/
  noColor : Bool
deriving DecidableEq, Repr

/-- What is still open after a word. -/
inductive Pending
  /-- Nothing. -/
  | nothing
  /-- An option, with its value if it has come. -/
  | option (o : ValueOption) (value : Option Text)
  /-- Paths, the last first. -/
  | paths (ps : List Text)
deriving DecidableEq, Repr

namespace Draft

/-- Nothing is settled. -/
def empty : Draft := ⟨[], none, none, none, [], false, false⟩

/-- A value for something that has none so far. -/
def once {α : Type} (old : Option α) (value : Except UsageError α) :
    Except UsageError (Option α) :=
  if old.isSome then .error .repeatedOption else value.map some

/-- A text that must not be empty. -/
def nonempty (t : Text) : Except UsageError Text :=
  if t.isEmpty then .error .invalidValue else .ok t

/-- The draft with an option and its value. -/
def withOption (d : Draft) (o : ValueOption) (value : Text) : Except UsageError Draft :=
  match o with
  | .autoloadName => (once d.autoloadName (.ok value)).map fun v => { d with autoloadName := v }
  | .format =>
    (once d.format ((OutputFormat.ofName? value).elim (.error .invalidValue) .ok)).map
      fun v => { d with format := v }
  | .config => (once d.config (nonempty value)).map fun v => { d with config := v }
  | .disable =>
    match Code.ofText? value with
    | some code => .ok { d with disabled := d.disabled ++ [code] }
    | none => .error .invalidCode

/-- The draft with a flag. Two of the flags end the reading. -/
def withFlag (d : Draft) : Flag → Except UsageError Draft
  | .dumpTree => if d.dumpTree then .error .repeatedOption else .ok { d with dumpTree := true }
  | .noColor => if d.noColor then .error .repeatedOption else .ok { d with noColor := true }
  | .help => .error .helpWanted
  | .version => .error .versionWanted

/-- The draft with what was open. -/
def settle (d : Draft) : Pending → Except UsageError Draft
  | .nothing => .ok d
  | .option _ none => .error .invalidValue
  | .option o (some value) => d.withOption o value
  | .paths ps =>
    if ps.any List.isEmpty then .error .invalidValue
    else .ok { d with paths := d.paths ++ ps.reverse }

/-- The arguments when no more words come. -/
def arguments (d : Draft) : Arguments :=
  ⟨d.paths, d.autoloadName, d.format.getD .text, d.config, d.disabled, d.dumpTree, d.noColor⟩

end Draft

/-- The state between two words. -/
structure Reading where
  /-- What is settled. -/
  draft : Draft
  /-- What is open. -/
  pending : Pending
  /-- Only paths come from now on. -/
  onlyPaths : Bool
deriving DecidableEq, Repr

namespace Reading

/-- The state before the first word. -/
def start : Reading := ⟨.empty, .nothing, false⟩

/-- The state after a path. -/
def withPath (r : Reading) (path : Text) : Except UsageError Reading :=
  match r.pending with
  | .paths ps => .ok { r with pending := .paths (path :: ps) }
  | pending =>
    (r.draft.settle pending).map fun d => { r with draft := d, pending := .paths [path] }

/-- The state after a flag. -/
def withFlag (r : Reading) (f : Flag) : Except UsageError Reading := do
  let d ← r.draft.settle r.pending
  return { r with draft := ← d.withFlag f, pending := .nothing }

/-- The state after an option and, if it is part of the same word, its value. -/
def withOption (r : Reading) (o : ValueOption) (value : Option Text) :
    Except UsageError Reading := do
  let d ← r.draft.settle r.pending
  match value with
  | none => return { r with draft := d, pending := .option o none }
  | some v => return { r with draft := ← d.withOption o v, pending := .nothing }

/-- The state after a word. -/
def step (r : Reading) (t : Text) : Except UsageError Reading :=
  if r.onlyPaths then r.withPath t
  else match Word.ofText t with
    | .separator => .ok { r with onlyPaths := true }
    | .long name value =>
      match LongOption.ofName? name with
      | none => .error .unknownOption
      | some (.flag f) => if value.isSome then .error .valueOfFlag else r.withFlag f
      | some (.valued o) => r.withOption o value
    | .short letter =>
      match Flag.ofLetter? letter with
      | none => .error .unknownOption
      | some f => r.withFlag f
    | .plain t =>
      match r.pending with
      | .option o none => .ok { r with pending := .option o (some t) }
      | _ => r.withPath t

end Reading

namespace Arguments

/-- The arguments that the words of a command line make up. -/
def ofWords (words : List Text) : Except UsageError Arguments := do
  let r ← words.foldlM Reading.step .start
  return (← r.draft.settle r.pending).arguments

end Arguments

end FishScript.CommandLine
