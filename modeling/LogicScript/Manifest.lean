import LogicScript.Files.Path
import LogicScript.Log
import LogicScript.Text.Quoted

/-! Manifests: the settings of a project. -/
namespace LogicScript

structure Settings where
  name : String := ""
  entry : String := ""
  level : String := ""
  format : String := ""
  maxDepth : Int64 := 0
  printResult : Bool := false
  deriving DecidableEq, Repr

/-- Settings that passed the validation, and the path they were read from. -/
structure Manifest where
  path : String := ""
  name : String := ""
  entry : String := ""
  level : Log.Level := .info
  format : Option Log.Format := none
  maxDepth : Nat := 0
  printResult : Bool := false
  deriving DecidableEq, Repr

inductive SettingsIssue
  | noName
  | noEntry
  | unknownLevel (level : String)
  | unknownFormat (format : String)
  | negativeDepth
  deriving DecidableEq, Repr

def SettingsIssue.text : SettingsIssue → String
  | .noName => "name must be provided"
  | .noEntry => "entry must be provided"
  | .unknownLevel level =>
    "log.level " ++ Text.quote level ++ " is not one of debug, info, warn, error"
  | .unknownFormat format =>
    "log.format " ++ Text.quote format ++ " is not one of console, json"
  | .negativeDepth => "resolution.max_depth must not be negative"

def SettingsIssue.report (issues : List SettingsIssue) : String :=
  "manifest validation failed:" ++ String.join (issues.map fun i => "\n- " ++ i.text)

namespace Settings

/-- The settings without blanks around them, words in small letters, and with the level that holds
if none is given. -/
def normalize (s : Settings) : Settings :=
  let level := Text.lowercase (Text.trim s.level)
  { s with
    name := Text.trim s.name
    entry := Text.trim s.entry
    level := if level = "" then Log.Level.info.name else level
    format := Text.lowercase (Text.trim s.format) }

def issues (s : Settings) : List SettingsIssue :=
  (if s.name = "" then [.noName] else [])
  ++ (if s.entry = "" then [.noEntry] else [])
  ++ (if (Log.Level.ofName? s.level).isNone then [.unknownLevel s.level] else [])
  ++ (if s.format ≠ "" ∧ (Log.Format.ofName? s.format).isNone then [.unknownFormat s.format]
      else [])
  ++ (if s.maxDepth < 0 then [.negativeDepth] else [])

/-- The manifest of settings in which nothing is wrong. -/
def validate (s : Settings) (path : String) : Except (List SettingsIssue) Manifest :=
  let s := s.normalize
  if s.issues.isEmpty then
    .ok {
      path
      name := s.name
      entry := s.entry
      level := (Log.Level.ofName? s.level).getD .info
      format := Log.Format.ofName? s.format
      maxDepth := s.maxDepth.toInt.toNat
      printResult := s.printResult }
  else .error s.issues

end Settings

/-- The path of the program that a manifest names, which is relative to the directory of the
manifest. -/
def Manifest.entryPath (m : Manifest) : String :=
  if m.entry = "" || Path.isAbsolute m.entry || m.path = "" then m.entry
  else ((Path.ofString m.path).parent.append m.entry).toString

end LogicScript
