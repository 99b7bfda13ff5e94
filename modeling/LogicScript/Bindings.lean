/-! Finite maps from names, kept as lists of pairs in order of first insertion. -/
namespace LogicScript

/-- A finite map from names. Writing a name that is already bound keeps its place. -/
structure Bindings (α : Type) where
  toList : List (String × α) := []
  deriving Repr, DecidableEq, Inhabited

namespace Bindings

variable {α : Type}

instance : EmptyCollection (Bindings α) := ⟨⟨[]⟩⟩

def find : List (String × α) → String → Option α
  | [], _ => none
  | (k, v) :: rest, name => if k = name then some v else find rest name

def put : List (String × α) → String → α → List (String × α)
  | [], name, a => [(name, a)]
  | (k, v) :: rest, name, a => if k = name then (k, a) :: rest else (k, v) :: put rest name a

def get? (b : Bindings α) (name : String) : Option α := find b.toList name

def contains (b : Bindings α) (name : String) : Bool := (b.get? name).isSome

def set (b : Bindings α) (name : String) (a : α) : Bindings α := ⟨put b.toList name a⟩

def names (b : Bindings α) : List String := b.toList.map (·.1)

def sortedNames (b : Bindings α) : List String := b.names.mergeSort (fun x y => decide (x ≤ y))

def size (b : Bindings α) : Nat := b.toList.length

@[simp] theorem get?_empty (name : String) : (∅ : Bindings α).get? name = none := rfl

theorem find_put_self (l : List (String × α)) (name : String) (a : α) :
    find (put l name a) name = some a := by
  induction l with
  | nil => simp [put, find]
  | cons p rest ih => by_cases h : p.1 = name <;> simp [put, find, h, ih]

theorem find_put_ne (l : List (String × α)) {name other : String} (a : α) (h : other ≠ name) :
    find (put l name a) other = find l other := by
  induction l with
  | nil => simp [put, find, h.symm]
  | cons p rest ih =>
    by_cases hp : p.1 = name
    · simp [put, find, hp, h.symm]
    · simp [put, find, hp, ih]

@[simp] theorem get?_set_self (b : Bindings α) (name : String) (a : α) :
    (b.set name a).get? name = some a := find_put_self b.toList name a

theorem get?_set_ne (b : Bindings α) {name other : String} (a : α) (h : other ≠ name) :
    (b.set name a).get? other = b.get? other := find_put_ne b.toList a h

theorem names_put (l : List (String × α)) (name : String) (a : α) :
    (put l name a).map (·.1) =
      if name ∈ l.map (·.1) then l.map (·.1) else l.map (·.1) ++ [name] := by
  induction l with
  | nil => simp [put]
  | cons p rest ih =>
    by_cases h : p.1 = name
    · simp [put, h]
    · simp only [put, h, if_false, List.map_cons, ih, List.mem_cons, Ne.symm h, false_or]
      split <;> rfl

theorem mem_names_iff {b : Bindings α} {name : String} : name ∈ b.names ↔ b.contains name = true := by
  obtain ⟨l⟩ := b
  unfold names contains get?
  induction l with
  | nil => simp [find]
  | cons p rest ih =>
    by_cases hp : p.1 = name
    · simp [find, hp]
    · simpa [find, hp, Ne.symm hp] using ih

theorem mem_names_of_get? {b : Bindings α} {name : String} {a : α} (h : b.get? name = some a) :
    name ∈ b.names := mem_names_iff.mpr (by simp [contains, h])

/-- Writing a name that is bound already adds no name. -/
theorem names_set {b : Bindings α} {name : String} (h : b.contains name = true) (a : α) :
    (b.set name a).names = b.names := by
  have hmem : name ∈ b.toList.map (·.1) := mem_names_iff.mpr h
  exact (names_put b.toList name a).trans (if_pos hmem)

end Bindings

end LogicScript
