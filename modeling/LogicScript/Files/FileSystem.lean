import LogicScript.Files.Path

/-! What a program can ask about files. The answers are effects of a monad: of the identity for a
fixed set of files, of the outer world for the files of a machine. -/
namespace LogicScript

inductive Status
  | absent
  | directory
  | file
  | failed (reason : String)
  deriving DecidableEq, Repr

/-- What reading gives. A directory can be opened and not read. -/
inductive Contents
  | text (text : String)
  | directory
  | unopened (reason : String)
  deriving DecidableEq, Repr

structure FileSystem (m : Type → Type) where
  workingDirectory : String
  stat : String → m Status
  read : String → m Contents

def absentReason : String := "no such file or directory"

end LogicScript
