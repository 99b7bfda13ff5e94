import LogicScript.Files.FileSystem
import LogicScript.Manifest.Decode

/-! Manifests in files: reading one, and finding the nearest one. -/
namespace LogicScript

def Manifest.fileName : String := "sigh.yml"

/-- Why there is no manifest. -/
inductive ManifestError
  | emptyPath
  | unopened (path reason : String)
  | unparsed (path : String)
  | empty (path : String)
  | invalid (issues : List SettingsIssue)
  | unsearchable (path reason : String)
  deriving DecidableEq, Repr

def ManifestError.message : ManifestError → String
  | .emptyPath => "manifest: empty path"
  | .unopened path reason =>
    "manifest: open " ++ path ++ ": open " ++ path ++ ": " ++ reason
  | .unparsed path => "manifest: parse " ++ path ++ ": no valid settings"
  | .empty path => "manifest: " ++ path ++ " is empty"
  | .invalid issues => SettingsIssue.report issues
  | .unsearchable path reason =>
    "manifest: stat " ++ path ++ ": stat " ++ path ++ ": " ++ reason

namespace Manifest

def ofFile (path text : String) : Except ManifestError Manifest :=
  match Settings.ofYaml? text with
  | none => .error (.unparsed path)
  | some none => .error (.empty path)
  | some (some settings) => (settings.validate path).mapError .invalid

variable {m : Type → Type} [Monad m]

def load (files : FileSystem m) (path : String) : m (Except ManifestError Manifest) := do
  if path = "" then return .error .emptyPath
  let path := (Path.absolute files.workingDirectory path).toString
  match ← files.read path with
  | .text text => return ofFile path text
  | .directory => return .error (.unparsed path)
  | .unopened reason => return .error (.unopened path reason)

def candidate (directory : Path) : String := (directory.append fileName).toString

/-- The manifest of a directory, or of the nearest one above it. A directory of its name is none. The
search ends at the directory that is its own parent. -/
def search (files : FileSystem m) (directory : Path) : m (Except ManifestError (Option String)) := do
  match ← files.stat (candidate directory) with
  | .file => return .ok (some (candidate directory))
  | .failed reason => return .error (.unsearchable (candidate directory) reason)
  | .absent | .directory =>
    if _ : directory.parent = directory then return .ok none
    else search files directory.parent
termination_by directory.steps.length
decreasing_by all_goals exact Path.depth_parent_lt ‹_›

def find (files : FileSystem m) (directory : String) : m (Except ManifestError (Option String)) :=
  search files (Path.absolute files.workingDirectory directory)

end Manifest
end LogicScript
