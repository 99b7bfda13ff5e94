import LogicScript.Text.Lowercase

/-! Paths of files. A path is kept without superfluous parts: no empty step, no step to the same
directory, and a step to the parent only where nothing is in front that it could undo. -/
namespace LogicScript

/-- A path. The last step comes first. -/
structure Path where
  rooted : Bool := false
  steps : List String := []
  deriving DecidableEq, Repr, Inhabited

namespace Path

def splitSlashes : List Char → List (List Char)
  | [] => [[]]
  | c :: cs =>
    if c = '/' then [] :: splitSlashes cs
    else
      match splitSlashes cs with
      | [] => [[c]]
      | part :: parts => (c :: part) :: parts

def parts (s : String) : List String := (splitSlashes s.toList).map String.ofList

def root : Path := { rooted := true }

/-- One step further. There is nothing above the root. -/
def enter (p : Path) (step : String) : Path :=
  if step = "" || step = "." then p
  else if step = ".." then
    match p.steps with
    | [] => if p.rooted then p else { p with steps := [".."] }
    | last :: before => { p with steps := if last = ".." then ".." :: p.steps else before }
  else { p with steps := step :: p.steps }

def append (p : Path) (relative : String) : Path := (parts relative).foldl enter p

def isAbsolute (s : String) : Bool := s.toList.head? == some '/'

def ofString (s : String) : Path := ({ rooted := isAbsolute s } : Path).append s

def toString (p : Path) : String :=
  let text := "/".intercalate p.steps.reverse
  if p.rooted then "/" ++ text
  else if p.steps.isEmpty then "." else text

/-- The path of a text, which is relative to a directory unless it is rooted. -/
def absolute (workingDirectory : String) (s : String) : Path :=
  if isAbsolute s then ofString s else (ofString workingDirectory).append s

/-- The directory that holds what the path leads to. The root holds itself. -/
def parent (p : Path) : Path := { p with steps := p.steps.tail }

/-- Only what has no steps is its own parent. -/
theorem depth_parent_lt {p : Path} (h : p.parent ≠ p) : p.parent.steps.length < p.steps.length := by
  obtain ⟨rooted, steps⟩ := p
  cases steps with
  | nil => exact absurd rfl h
  | cons step steps => exact Nat.lt_succ_self steps.length

/-- The last step of a text from its last point on, if it has one. -/
def extension (s : String) : List Char :=
  let last := (splitSlashes s.toList).getLastD []
  let behind := last.reverse.takeWhile (· ≠ '.')
  if behind.length < last.length then '.' :: behind.reverse else []

/-- The letter that stands for all forms of a letter when case is ignored: the small one, and also
for the long s. -/
def foldCase (c : Char) : Char := if c.toNat = 0x17f then 's' else Text.lower c

def isJson (s : String) : Bool := (extension s).map foldCase == ".json".toList

end Path
end LogicScript
