import LogicScript.Yaml.Node

/-! What the nodes of a YAML text describe, with aliases replaced and mappings merged. -/
namespace LogicScript
namespace Yaml

/-- A datum. A scalar keeps its text beside its value. A mapping has names for keys, a table any
scalars. -/
inductive Datum
  | scalar (value : Document) (text : String)
  | list (items : List Datum)
  | mapping (entries : List (String × Datum))
  | table (entries : List (Document × Datum))
  deriving Repr, Inhabited

/-! Aliases can make a small text describe a huge datum. Nodes are counted where they are visited,
and a datum that comes nearly all from aliases is refused. -/

/-- How many nodes have been visited, and how many of them inside of aliases. -/
structure Tally where
  total : Nat := 0
  aliased : Nat := 0
  deriving DecidableEq, Repr

namespace Tally

/-- Up to that many visits, 99 of 100 may come from aliases. -/
def smallTotal : Nat := 400000

/-- From that many visits on, 10 of 100 may come from aliases. -/
def largeTotal : Nat := 4000000

/-- How many hundredths of the visits may come from aliases, as a fraction. Between the small and
the large total the share falls evenly. -/
def allowed (total : Nat) : Nat × Nat :=
  if total ≤ smallTotal then (99, 1)
  else if largeTotal ≤ total then (10, 1)
  else
    let width := largeTotal - smallTotal
    (99 * width - 89 * (total - smallTotal), width)

/-- Whether too many of the visits come from aliases. A few are always allowed. -/
def isExcessive (t : Tally) : Bool :=
  let (share, unit) := allowed t.total
  100 < t.aliased && 1000 < t.total && t.total * share < t.aliased * 100 * unit

def visit (t : Tally) (aliased : Bool) : Tally :=
  ⟨t.total + 1, if aliased then t.aliased + 1 else t.aliased⟩

@[simp] theorem total_visit (t : Tally) (aliased : Bool) :
    (t.visit aliased).total = t.total + 1 := rfl

end Tally

abbrev Describing := StateT Tally Option

def visit (aliased : Bool) : Describing Unit := do
  let t := (← get).visit aliased
  if t.isExcessive then failure
  set t

/-! Keys. -/

def sameKey : Document → Document → Bool
  | .null, .null => true
  | .bool a, .bool b => a = b
  | .text a, .text b => a = b
  | .time a, .time b => a = b
  | .number (.int a), .number (.int b) => a = b
  | .number (.uint a), .number (.uint b) => a = b
  | .number (.float a), .number (.float b) => a.equal b
  | _, _ => false

/-- The name that a scalar is as a key: the text of any value, but null names nothing. -/
def keyName? (text : String) : Document → Option String
  | .null => none
  | .text s => some s
  | _ => some text

/-- The key that a node is, which has to be a scalar: its name, or else its value. -/
def Node.key (named : Bool) : Bool → Node → Describing (Option Document)
  | aliased, .scalar form text => do
    visit aliased
    let value ← form.value? text
    return if named then (keyName? text value).map .text else some value
  | aliased, .alias _ target => do
    visit aliased
    target.key named true
  | _, _ => failure

def keyValues (aliased : Bool) : List (Node × Node) → Describing (List Document)
  | [] => return []
  | (key, _) :: rest => do
    let value ← key.key false aliased
    return value.toList ++ (← keyValues aliased rest)

def namedEntries : List (Document × Datum) → List (String × Datum)
  | [] => []
  | (.text name, d) :: rest => (name, d) :: namedEntries rest
  | _ :: rest => namedEntries rest

/-! Data. The argument `names` of the following functions tells in how many levels of mappings all
keys are taken as names; in the others they are if their forms say so. The argument `taken` holds
the keys that a merged mapping does not change. -/

abbrev Entries := List (Document × Datum) × List Document

mutual

def Node.datum (names : Nat) : Bool → Node → Describing Datum
  | aliased, .scalar form text => do
    visit aliased
    return .scalar (← form.value? text) text
  | aliased, .sequence items => do
    visit aliased
    return .list (← itemData (names - 1) aliased items)
  | aliased, .mapping entries => do
    visit aliased
    if !distinctKeys entries then failure
    let named := 0 < names || entries.all (·.1.isName)
    let own ← ownEntries (names - 1) named aliased none entries
    let merged ← mergedEntries (names - 1) named aliased entries none entries
    let all := own.1 ++ merged.1
    return if named then .mapping (namedEntries all) else .table all
  | aliased, .alias _ target => do
    visit aliased
    target.datum names true
  | _, .loop _ => failure
termination_by structural _ n => n

def itemData (names : Nat) : Bool → List Node → Describing (List Datum)
  | _, [] => return []
  | aliased, item :: rest => do
    let d ← item.datum names aliased
    return d :: (← itemData names aliased rest)
termination_by structural _ ns => ns

/-- The entries of a mapping itself. Those whose keys are taken are left out, and those whose keys
are null where names are wanted. -/
def ownEntries (names : Nat) (named : Bool) :
    Bool → Option (List Document) → List (Node × Node) → Describing Entries
  | _, taken, [] => return ([], taken.getD [])
  | aliased, taken, (key, value) :: rest => do
    if key.isMerge then ownEntries names named aliased taken rest
    else
      match ← key.key named aliased with
      | none => ownEntries names named aliased taken rest
      | some k =>
        if (taken.getD []).any (sameKey k) then ownEntries names named aliased taken rest
        else
          let d ← value.datum names aliased
          let (entries, taken) ←
            ownEntries names named aliased (taken.map (k :: ·)) rest
          return ((k, d) :: entries, taken)
termination_by structural _ _ es => es

/-- The entries that are merged into a mapping. Its own keys are not changed: they are taken, unless
the mapping itself is merged and the keys that are taken are known. -/
def mergedEntries (names : Nat) (named : Bool) :
    Bool → List (Node × Node) → Option (List Document) → List (Node × Node) → Describing Entries
  | _, _, taken, [] => return ([], taken.getD [])
  | aliased, whole, taken, (key, value) :: rest => do
    if key.isMerge then
      let taken ← match taken with
        | some taken => pure taken
        | none => keyValues aliased whole
      mergeNode names named true aliased taken value
    else mergedEntries names named aliased whole taken rest
termination_by structural _ _ _ es => es

/-- What a mapping adds, or a sequence of mappings where `list` allows one. -/
def mergeNode (names : Nat) (named : Bool) :
    Bool → Bool → List Document → Node → Describing Entries
  | true, aliased, taken, .sequence items => mergeItems names named aliased taken items
  | _, aliased, taken, .mapping entries => do
    visit aliased
    if !distinctKeys entries then failure
    let (own, taken) ← ownEntries names named aliased (some taken) entries
    let (merged, taken) ← mergedEntries names named aliased entries (some taken) entries
    return (own ++ merged, taken)
  | _, aliased, taken, .alias _ target => do
    visit aliased
    mergeNode names named false true taken target
  | _, _, _, _ => failure
termination_by structural _ _ _ n => n

def mergeItems (names : Nat) (named : Bool) :
    Bool → List Document → List Node → Describing Entries
  | _, taken, [] => return ([], taken)
  | aliased, taken, item :: rest => do
    let (entries, taken) ← mergeNode names named false aliased taken item
    let (more, taken) ← mergeItems names named aliased taken rest
    return (entries ++ more, taken)
termination_by structural _ _ ns => ns

end

end Yaml
end LogicScript
