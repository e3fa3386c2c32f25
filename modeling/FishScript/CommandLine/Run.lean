/-
# Runs

A run reads the scripts it is asked about, checks each under the config and prints the reports,
or prints the syntax trees of the scripts. What it sees of the world is given as a value, and what
it prints is kept also if it fails.
-/
import FishScript.CommandLine.Arguments
import FishScript.CommandLine.Failure
import FishScript.Tree.Dump

namespace FishScript.CommandLine

/-- What a run sees of the world. -/
structure World where
  /-- The files. -/
  root : FileTree
  /-- The absolute path of the working directory. -/
  directory : Text
  /-- Where the user keeps a config, if there is such a place. -/
  userConfig : Option Text
  /-- What stands on standard input. -/
  input : Bytes
  /-- Standard output shows colours. -/
  colorful : Bool

namespace World

/-- The names on the way from the root to the working directory. -/
def here (w : World) : List Text := Path.components w.directory

/-- What stands at a path. -/
def look (w : World) : Lookup := w.root.look w.here

/-- The text of the file at a path. -/
def readText (w : World) (path : Text) : Except ReadFault Text := w.root.readText w.here path

/-- A regular file stands at a path. -/
def hasFile (w : World) (path : Text) : Bool :=
  match w.look path with
  | .ok t => t.isFile
  | .error _ => false

end World

/-! ## Scripts -/

/-- The path that stands for standard input. -/
def inputPath : Text := ['-']

/-- What standard input is called in reports. -/
def inputLabel : Text := "<stdin>".toList

/-- The script on standard input. -/
def inputScript (input : Bytes) : Except Failure Script :=
  match input.text? with
  | some source => .ok ⟨inputLabel, source, .anonymous⟩
  | none => .error (.standardInput .notText)

/-- The script in a file. -/
def fileScript (w : World) (path : Text) : Except Failure Script :=
  match w.readText path with
  | .ok source => .ok ⟨path, source, .ofPath path⟩
  | .error fault => .error (.script path fault)

/-- The scripts at paths, when `input` is what is left on standard input. It is read to its end
the first time it is asked for. -/
def readScripts (w : World) (input : Bytes) : List Text → Except Failure (List Script)
  | [] => .ok []
  | path :: rest =>
    if path == inputPath then do
      let s ← inputScript input
      return s :: (← readScripts w [] rest)
    else do
      let s ← fileScript w path
      return s :: (← readScripts w input rest)

/-- The script as one that is loaded for the sake of a function, if the arguments name one. -/
def withAutoload (args : Arguments) (s : Script) : Script :=
  match args.autoloadName with
  | some name => { s with document := s.document.withAutoloadName name }
  | none => s

/-- The paths of the scripts that a path stands for. -/
def expand (w : World) (path : Text) : Except Failure (List Text) :=
  (w.root.expand w.here path).mapError (.walk path)

/-- The paths to read. Without any, standard input is read. -/
def scriptPaths (w : World) (args : Arguments) : Except Failure (List Text) := do
  let paths := if args.paths.isEmpty then [inputPath] else args.paths
  return (← paths.mapM (expand w)).flatten

/-- The scripts that the arguments ask about. -/
def scripts (w : World) (args : Arguments) : Except Failure (List Script) := do
  let ss ← readScripts w w.input (← scriptPaths w args)
  return ss.map (withAutoload args)

/-! ## Config -/

/-- The name of the config file of a project. -/
def projectConfig : Text := "fishlint.toml".toList

/-- The config in the file at a path, which is shown as `shown`. -/
def configAt (w : World) (path shown : Text) : Except ConfigFault LintConfig :=
  match w.readText path with
  | .ok t => (LintConfig.ofToml t).mapError .senseless
  | .error fault => .error (.unreadable shown fault)

/-- The config that is found: that of the project in the working directory, or else that of the
user, or else the default one. -/
def foundConfig (w : World) : Except ConfigFault LintConfig :=
  if w.hasFile projectConfig then
    configAt w projectConfig (Path.join w.directory projectConfig)
  else
    match w.userConfig.filter w.hasFile with
    | some path => configAt w path path
    | none => .ok .default

/-- The config under which scripts are checked before the arguments disable codes. -/
def loadedConfig (w : World) (args : Arguments) : Except Failure LintConfig :=
  match args.config with
  | some path => (configAt w path path).mapError (.config (.named path))
  | none => (foundConfig w).mapError (.config (.found w.directory))

/-- The config under which scripts are checked. -/
def config (w : World) (args : Arguments) : Except Failure LintConfig :=
  (loadedConfig w args).map fun base => args.disabled.foldl .disable base

/-! ## Printing -/

/-- What a run has printed. -/
structure Output where
  /-- On standard output. -/
  out : Text
  /-- On standard error. -/
  err : Text
deriving DecidableEq, Repr

/-- A program that prints and may fail. What it has printed before it fails stays printed. -/
abbrev Program := ExceptT Failure (StateM Output)

/-- A result as a program that prints nothing. -/
def settled {α : Type} (r : Except Failure α) : Program α := ExceptT.mk (pure r)

/-- Print on standard output. -/
def printOut (t : Text) : Program Unit := modify fun o => { o with out := o.out ++ t }

/-- Print on standard error. -/
def printErr (t : Text) : Program Unit := modify fun o => { o with err := o.err ++ t }

/-- The syntax tree of a script on one line. -/
def dumpLine (s : Script) : Except Failure Text :=
  match (parse s.source).bind Tree.root with
  | .ok root => .ok (root.dump s.source ++ ['\n'])
  | .error r => .error (.tree r)

/-- Print the syntax trees of scripts. -/
def printTrees (ss : List Script) : Program Unit :=
  ss.forM fun s => do printOut (← settled (dumpLine s))

/-- Print the reports of scripts as lines of text, and how many problems there are. -/
def printText (color : Bool) (checked : List (Script × Report)) : Program Unit := do
  checked.forM fun (s, r) => do
    printOut (← settled ((r.render s.source color).mapError .display))
  match Report.summary? (checked.map Prod.snd) with
  | some line => printErr (line ++ ['\n'])
  | none => pure ()

/-- Print the reports of scripts as a JSON document. -/
def printJson (checked : List (Script × Report)) : Program Unit :=
  printOut ((Json.Value.array (checked.map fun c => c.2.json)).document ++ ['\n'])

/-! ## Runs -/

/-- The program that the arguments ask for, with the status it ends with. -/
def program (w : World) (args : Arguments) : Program Nat := do
  let ss ← settled (scripts w args)
  if args.dumpTree then
    printTrees ss
    return 0
  else
    let c ← settled (config w args)
    let checked ← settled
      (ss.mapM fun s => ((s.check c).mapError Failure.check).map (s, ·))
    match args.format with
    | .text => printText (w.colorful && !args.noColor) checked
    | .json => printJson checked
    return if checked.any (·.2.hasErrors) then 1 else 0

/-- What comes of a run. -/
structure Run where
  /-- What it has printed. -/
  output : Output
  /-- The status it ends with, or why it fails. -/
  ending : Except Failure Nat

namespace Run

/-- The status of a program whose run fails. -/
def failed : Nat := 2

/-- The status of the program. -/
def status (r : Run) : Nat :=
  match r.ending with
  | .ok status => status
  | .error _ => failed

end Run

/-- The run that the arguments ask for. -/
def run (w : World) (args : Arguments) : Run :=
  let (ending, output) := (program w args).run.run ⟨[], []⟩
  ⟨output, ending⟩

end FishScript.CommandLine
