import LogicScript.Number.Format
import LogicScript.Number.Reader

/-! Documents: the values that a JSON or YAML text describes. -/
namespace LogicScript

/-- A number of a document. A JSON text gives the number's own text; a YAML text gives an integer
of 64 bits, signed if it fits and unsigned otherwise, or a double. -/
inductive Numeral
  | text (written : String)
  | int (value : Int64)
  | uint (value : UInt64)
  | float (value : Binary64)
  deriving Repr, Inhabited

inductive Document
  | null
  | bool (value : Bool)
  | text (value : String)
  | number (value : Numeral)
  | time (written : String)
  | list (items : List Document)
  | mapping (entries : List (String × Document))
  | table (entries : List (Document × Document))
  deriving Repr, Inhabited

namespace Document

/-- The last of the entries of a key. -/
def lookup (key : String) : List (String × Document) → Option Document
  | [] => none
  | (k, v) :: rest => (lookup key rest).or (if k = key then some v else none)

mutual

def depth : Document → Nat
  | .list items => depthList items + 1
  | .mapping entries => depthEntries entries + 1
  | _ => 0

def depthList : List Document → Nat
  | [] => 0
  | d :: ds => max d.depth (depthList ds)

def depthEntries : List (String × Document) → Nat
  | [] => 0
  | (_, d) :: rest => max d.depth (depthEntries rest)

end

def typeName : Document → String
  | .null => "<nil>"
  | .bool _ => "bool"
  | .text _ => "string"
  | .number (.text _) => "json.Number"
  | .number (.int _) => "int"
  | .number (.uint _) => "uint64"
  | .number (.float _) => "float64"
  | .time _ => "time.Time"
  | .list _ => "[]interface {}"
  | .mapping _ => "map[string]interface {}"
  | .table _ => "map[interface {}]interface {}"

theorem depth_lt_of_lookup {key : String} {entries : List (String × Document)} {d : Document}
    (h : lookup key entries = some d) : d.depth < (Document.mapping entries).depth := by
  have bounded : ∀ {entries : List (String × Document)}, lookup key entries = some d →
      d.depth ≤ depthEntries entries := by
    intro entries
    induction entries with
    | nil => simp [lookup]
    | cons e rest ih =>
      intro h
      simp only [lookup, Option.or_eq_some_iff] at h
      simp only [depthEntries]
      rcases h with h | ⟨_, h⟩
      · exact Nat.le_trans (ih h) (Nat.le_max_right _ _)
      · split at h
        · simp only [Option.some.injEq] at h
          subst h
          exact Nat.le_max_left _ _
        · simp at h
  simpa [depth, Nat.lt_succ_iff] using bounded h

theorem depth_lt_of_mem {items : List Document} {d : Document} (h : d ∈ items) :
    d.depth < (Document.list items).depth := by
  have bounded : d.depth ≤ depthList items := by
    induction items with
    | nil => simp at h
    | cons e rest ih =>
      rcases List.mem_cons.1 h with rfl | h
      · exact Nat.le_max_left _ _
      · exact Nat.le_trans (ih h) (Nat.le_max_right _ _)
  simpa [depth, Nat.lt_succ_iff] using bounded

end Document

end LogicScript
