import LogicScript.Document.Json
import LogicScript.Files.FileSystem
import LogicScript.Tree.Decode
import LogicScript.Yaml.Reader

/-! Programs in files. -/
namespace LogicScript

inductive ProgramFileError
  | unread (path reason : String)
  | unparsed (path : String)
  | empty (path : String)
  | undecoded (path : String) (error : DecodeError)

def ProgramFileError.message : ProgramFileError → String
  | .unread path reason => "program: read " ++ path ++ ": " ++ reason
  | .unparsed path => "program: parse " ++ path ++ ": no valid document"
  | .empty path => "program: " ++ path ++ " is empty"
  | .undecoded path error => "program: decode " ++ path ++ ": " ++ error.message

/-- The entries of the mapping that a JSON text describes: `none` if it describes something else,
and `some none` if it describes nothing. -/
def Document.ofJsonText? (text : String) : Option (Option (List (String × Document))) :=
  match Document.ofJson? text with
  | some (.mapping entries) => some (some entries)
  | some .null => some none
  | _ => none

/-- The document in a file; its name tells the format. -/
def Document.ofFile? (path text : String) : Option (Option (List (String × Document))) :=
  if Path.isJson path then Document.ofJsonText? text else Document.ofYaml? text

def Program.ofFile (path text : String) : Except ProgramFileError Program :=
  match Document.ofFile? path text with
  | none => .error (.unparsed path)
  | some none => .error (.empty path)
  | some (some entries) => (Program.decode entries).mapError (.undecoded path)

def Program.load {m : Type → Type} [Monad m] (files : FileSystem m) (path : String) :
    m (Except ProgramFileError Program) := do
  match ← files.read path with
  | .text text => return Program.ofFile path text
  | .directory => return .error (.unread path ("read " ++ path ++ ": is a directory"))
  | .unopened reason => return .error (.unread path ("open " ++ path ++ ": " ++ reason))

end LogicScript
