/-
# Failures of a run

A run fails when something it needs cannot be read or makes no sense. A failure is told as a
chain of messages, each the cause of the one before it.
-/
import FishScript.Config.File
import FishScript.Files.Scripts
import FishScript.Report

namespace FishScript.CommandLine

/-- Where a config comes from. -/
inductive ConfigOrigin
  /-- The command line names the file. -/
  | named (path : Text)
  /-- It was found for a working directory. -/
  | found (directory : Text)
deriving DecidableEq, Repr

namespace ConfigOrigin

/-- The wording of a failure to load the config. -/
def message : ConfigOrigin → Text
  | .named path => "Failed to load config ".toList ++ path
  | .found directory => "Failed to load config for ".toList ++ directory

end ConfigOrigin

/-- Why a config cannot be loaded. -/
inductive ConfigFault
  /-- The file cannot be read. -/
  | unreadable (path : Text) (fault : ReadFault)
  /-- The file makes no sense. -/
  | senseless (e : ConfigError)
deriving DecidableEq, Repr

namespace ConfigFault

/-- The messages of a fault. -/
def chain : ConfigFault → List Text
  | .unreadable path fault =>
    ["failed to read config from ".toList ++ path ++ ": ".toList ++ fault.message, fault.message]
  | .senseless .malformed => ["failed to parse config".toList]
  | .senseless (.unknownCode e) => [e.message]

end ConfigFault

/-- Why a run fails. -/
inductive Failure
  /-- The scripts in a directory cannot be found. -/
  | walk (path : Text) (fault : WalkFault)
  /-- A script cannot be read. -/
  | script (path : Text) (fault : ReadFault)
  /-- Standard input cannot be read. -/
  | standardInput (fault : ReadFault)
  /-- The config cannot be loaded. -/
  | config (origin : ConfigOrigin) (fault : ConfigFault)
  /-- A script cannot be checked. -/
  | check (e : CheckFailure)
  /-- A script has no syntax tree. -/
  | tree (r : Refusal)
  /-- A diagnostic cannot be shown. -/
  | display (e : SplitCharacter)
deriving DecidableEq, Repr

namespace Failure

/-- The messages of a failure, each the cause of the one before it. -/
def chain : Failure → List Text
  | .walk path fault => ["Failed to walk ".toList ++ path, fault.message]
  | .script path fault => ["Failed to read ".toList ++ path, fault.message]
  | .standardInput fault => ["Failed to read standard input".toList, fault.message]
  | .config origin fault => origin.message :: fault.chain
  | .check e => [e.message, e.cause.message]
  | .tree r => [r.message]
  | .display e => ["byte ".toList ++ Text.ofNat e.offset ++ " is inside a character".toList]

/-- The causes of a failure, numbered if there are several. -/
def causeLines : List Text → Text
  | [] => []
  | [cause] => "\n\nCaused by:\n    ".toList ++ cause
  | causes => "\n\nCaused by:".toList
    ++ (causes.zipIdx.flatMap fun (cause, i) =>
      "\n    ".toList ++ Text.ofNat i ++ ": ".toList ++ cause)

/-- The lines that tell a failure. -/
def report (e : Failure) : Text :=
  match e.chain with
  | [] => "Error".toList
  | message :: causes => "Error: ".toList ++ message ++ causeLines causes

end Failure

end FishScript.CommandLine
