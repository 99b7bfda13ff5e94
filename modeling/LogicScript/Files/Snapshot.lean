import LogicScript.Files.FileSystem

/-! Fixed sets of files and directories. -/
namespace LogicScript

/-- What stands at the end of a path, whose first step comes first. -/
structure FileEntry where
  steps : List String
  /-- The text of a file; a directory has none. -/
  text : Option String
  deriving DecidableEq, Repr

structure Snapshot where
  workingDirectory : String
  entries : List FileEntry

namespace Snapshot

/-- The entry of a name below a directory; a name that ends in a slash is that of a directory. -/
def entry (directory : String) (name text : String) : FileEntry :=
  { steps := ((Path.ofString directory).append name).steps.reverse
    text := if name.toList.getLast? == some '/' then none else some text }

/-- The files below a directory, which is there even if it is empty. -/
def ofFiles (directory workingDirectory : String) (files : List (String × String)) : Snapshot :=
  { workingDirectory
    entries := entry directory "/" "" :: files.map fun (name, text) => entry directory name text }

/-- Whether a directory is there: as such or because something is in it. -/
def isDirectory (s : Snapshot) (steps : List String) : Bool :=
  steps.isEmpty || s.entries.any fun e =>
    steps.isPrefixOf e.steps && (e.text.isNone || steps.length < e.steps.length)

def textOf? (s : Snapshot) (steps : List String) : Option String :=
  s.entries.findSome? fun e => if e.steps = steps then e.text else none

def longestName : Nat := 255

def longestPath : Nat := 4095

/-- The reason that a path cannot be followed if it or one of its names is too long. -/
def tooLong : Status := .failed "file name too long"

/-- Follows the parts of a path from a directory or file. Every part but the last has to lead to a
directory. -/
def walk (s : Snapshot) : List String → List String → Status × Option String
  | reached, [] =>
    match s.textOf? reached with
    | some text => (.file, some text)
    | none => if s.isDirectory reached then (.directory, none) else (.absent, none)
  | reached, part :: rest =>
    if (s.textOf? reached).isSome then (.failed "not a directory", none)
    else if !s.isDirectory reached then (.absent, none)
    else if part = "" || part = "." then s.walk reached rest
    else if part = ".." then s.walk reached.dropLast rest
    else if longestName < part.utf8ByteSize then (tooLong, none)
    else s.walk (reached ++ [part]) rest

def find (s : Snapshot) (path : String) : Status × Option String :=
  if path = "" then (.absent, none)
  else if path.toList.contains '\x00' then (.failed "invalid argument", none)
  else if longestPath < path.utf8ByteSize then (tooLong, none)
  else
    let start := if Path.isAbsolute path then Path.root else Path.ofString s.workingDirectory
    s.walk start.steps.reverse (Path.parts path)

def contents (s : Snapshot) (path : String) : Contents :=
  match s.find path with
  | (.file, text) => .text (text.getD "")
  | (.directory, _) => .directory
  | (.absent, _) => .unopened absentReason
  | (.failed reason, _) => .unopened reason

def fileSystem (s : Snapshot) : FileSystem Id where
  workingDirectory := s.workingDirectory
  stat path := (s.find path).1
  read path := s.contents path

end Snapshot
end LogicScript
