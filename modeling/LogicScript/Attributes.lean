import LogicScript.Scope

/-! What the analysis finds out about the nodes of a program. -/
namespace LogicScript

structure Attributes where
  scope : Option ScopeId := none
  decl : Option Decl := none
  type : Option Ty := none
  bodyScope : Option ScopeId := none
  deriving Inhabited

inductive AttributeKey
  | scope | decl | type | bodyScope
  deriving DecidableEq, Repr

namespace AttributeKey

def ofName? : String → Option AttributeKey
  | "scope" => some .scope
  | "decl" => some .decl
  | "type" => some .type
  | "bodyScope" => some .bodyScope
  | _ => none

end AttributeKey

def Attributes.erase (a : Attributes) : AttributeKey → Attributes
  | .scope => { a with scope := none }
  | .decl => { a with decl := none }
  | .type => { a with type := none }
  | .bodyScope => { a with bodyScope := none }

/-- The attributes of all nodes, filed under the numbers of the nodes, and the scopes they
refer to. -/
structure Table where
  nodes : Array Attributes := #[]
  scopes : Scopes := {}
  deriving Inhabited

namespace Table

def attributes (t : Table) (id : Nat) : Attributes := t.nodes.getD id {}

def reserve (nodes : Array Attributes) (id : Nat) : Array Attributes :=
  if id < nodes.size then nodes
  else nodes ++ Array.replicate (id + 1 - nodes.size) ({} : Attributes)

def update (t : Table) (id : Nat) (f : Attributes → Attributes) : Table :=
  { t with nodes := (reserve t.nodes id).modify id f }

def setScope (t : Table) (id : Nat) (s : ScopeId) : Table :=
  t.update id fun a => { a with scope := some s }

def setDecl (t : Table) (id : Nat) (d : Decl) : Table :=
  t.update id fun a => { a with decl := some d }

def setType (t : Table) (id : Nat) (ty : Ty) : Table :=
  t.update id fun a => { a with type := some ty }

def setBodyScope (t : Table) (id : Nat) (s : ScopeId) : Table :=
  t.update id fun a => { a with bodyScope := some s }

def hide (t : Table) (id : Nat) (key : AttributeKey) : Table := t.update id (·.erase key)

/-- The static type of a node; a node without one counts as Void. -/
def typeOf (t : Table) (m : Mark) : Ty := (t.attributes m.id).type.getD .void

theorem reserve_getD (nodes : Array Attributes) (id j : Nat) :
    (reserve nodes id).getD j {} = nodes.getD j {} := by
  unfold reserve
  split
  · rfl
  · simp only [Array.getD_eq_getD_getElem?, Array.getElem?_append, Array.getElem?_replicate]
    split
    · rfl
    · split <;> simp_all

theorem lt_size_reserve (nodes : Array Attributes) (id : Nat) : id < (reserve nodes id).size := by
  unfold reserve
  split
  · assumption
  · simp; omega

theorem attributes_update (t : Table) (id j : Nat) (f : Attributes → Attributes) :
    (t.update id f).attributes j = if id = j then f (t.attributes id) else t.attributes j := by
  have hs := lt_size_reserve t.nodes id
  have hr := reserve_getD t.nodes id j
  unfold update attributes
  simp only [Array.getD_eq_getD_getElem?, Array.getElem?_modify] at hr ⊢
  split
  · subst_vars
    rw [← hr]
    simp [hs]
  · exact hr

end Table

end LogicScript
