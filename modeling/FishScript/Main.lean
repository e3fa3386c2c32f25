/-
# The program

The words of the command line, the files they name and standard input are read, the run is made,
and what it prints is printed.

Only files are read here, and no directory is listed. So to a run from here a directory among its
paths is something that the system refuses to show, and the scripts in it have to be named one by
one; a run that is given all files walks through it.
-/
import FishScript.CommandLine.Run

namespace FishScript.CommandLine

/-! ## Usage -/

/-- How the program is called. -/
def usage : String :=
  "Usage: fishlint [--autoload-name NAME] [--format text|json] [--config PATH] [--disable CODE]...\n"
    ++ "                [--dump-tree] [--no-color] [PATH]..."

namespace UsageError

/-- What is wrong with a command line. -/
def message : UsageError → String
  | .unknownOption => "error: unexpected argument"
  | .invalidValue => "error: a value is missing or invalid"
  | .invalidCode => "error: unknown diagnostic code"
  | .repeatedOption => "error: an option cannot be used multiple times"
  | .valueOfFlag => "error: unexpected value for a flag"
  | .helpWanted => "Diagnostics for fish shell scripts"
  | .versionWanted => "fishlint 0.1.0"

end UsageError

/-! ## The world -/

/-- The names on the way from the root to a path, with the steps back to parents made. -/
def absoluteNames (here : List Text) (path : Text) : List Text :=
  (Path.components path).foldl
    (fun names c => if c == ['.', '.'] then names.dropLast else names ++ [c])
    (if Path.isAbsolute path then [] else here)

/-- What the system says of an error. -/
def systemMessage : IO.Error → Text
  | .noFileOrDirectory .. => ReadFault.message .missing
  | .inappropriateType .. => ReadFault.message .notDirectory
  | .permissionDenied .. => "Permission denied (os error 13)".toList
  | e => (toString e).toList

/-- A directory stands at a path: the path of the directory in itself can be opened. -/
def isDirectory (path : Text) : IO Bool := do
  try
    let _ ← IO.FS.Handle.mk (String.ofList (path ++ ['/', '.'])) .read
    return true
  catch _ => return false

/-- What stands at a path. Directories come without their entries. -/
def load (path : Text) : IO FileTree := do
  try
    if ← isDirectory path then return .empty
    let bytes ← IO.FS.readBinFile (String.ofList path)
    return .file bytes.data.toList
  catch e => return .refused (systemMessage e)

/-- What is said of a directory whose scripts are asked for. -/
def unlisted : FileTree := .refused "directories are not listed".toList

/-- The files with those at some paths added. -/
def loadAll (here : List Text) (root : FileTree) (paths : List Text) : IO FileTree :=
  paths.foldlM (fun root path => do return (← load path).put (absoluteNames here path) root) root

/-- The files with those of scripts added. Directories come last, so that none of them seems to hold
the scripts that are named besides and nothing else. -/
def loadScripts (here : List Text) (root : FileTree) (paths : List Text) : IO FileTree := do
  let directories ← paths.filterM isDirectory
  let root ← loadAll here root (paths.filter (!directories.contains ·))
  return directories.foldl (fun root path => unlisted.put (absoluteNames here path) root) root

/-- The bytes of a stream from some place on. -/
partial def drain (stream : IO.FS.Stream) (read : ByteArray) : IO ByteArray := do
  let chunk ← stream.read 65536
  if chunk.isEmpty then return read else drain stream (read ++ chunk)

/-- The place of the user's config. -/
def userConfigPath : IO (Option Text) := do
  let base ← match ← IO.getEnv "XDG_CONFIG_HOME" with
    | some dir => if dir.startsWith "/" then pure (some dir) else pure none
    | none => pure none
  match base with
  | some dir => return some (Path.join dir.toList "fishlint/config.toml".toList)
  | none =>
    return (← IO.getEnv "HOME").map fun home =>
      Path.join home.toList ".config/fishlint/config.toml".toList

/-- Standard output shows colours and the user does not mind them. -/
def wantsColor : IO Bool := do
  let plain := (← IO.getEnv "NO_COLOR").isSome || (← IO.getEnv "TERM") == some "dumb"
  return !plain && (← (← IO.getStdout).isTty)

/-- What a run with the given arguments can see. -/
def observe (args : Arguments) : IO World := do
  let directory := (toString (← IO.currentDir)).toList
  let here := Path.components directory
  let userConfig ← userConfigPath
  let configs := args.config.toList ++ [projectConfig] ++ userConfig.toList
  let root ← loadAll here (FileTree.empty.put here .empty) configs
  let root ← loadScripts here root (args.paths.filter (· != inputPath))
  let asksForInput := args.paths.isEmpty || args.paths.contains inputPath
  let input ← if asksForInput then drain (← IO.getStdin) .empty else pure .empty
  return ⟨root, directory, userConfig, input.data.toList, ← wantsColor⟩

end FishScript.CommandLine

open FishScript FishScript.CommandLine in
/-- Make the run that the words ask for and end with its status. -/
def main (words : List String) : IO UInt32 := do
  match Arguments.ofWords (words.map String.toList) with
  | .error e =>
    if e.status = 0 then IO.println e.message else IO.eprintln e.message
    unless e = .versionWanted do
      if e.status = 0 then IO.println usage else IO.eprintln usage
    return e.status.toUInt32
  | .ok args =>
    let r := run (← observe args) args
    IO.print (String.ofList r.output.out)
    IO.eprint (String.ofList r.output.err)
    match r.ending with
    | .ok _ => pure ()
    | .error e => IO.eprintln (String.ofList e.report)
    return r.status.toUInt32
