import LogicScript.Proofs.Numbering
import Mathlib.Data.List.Forall2

/-! What the lists of a document are decoded as.

A list of children is one child for each entry, in order; an entry that is not a mapping, or not
the mapping of such a child, is an error. What stands in the place of a list and is not one counts
as the empty list, without an error. -/
namespace LogicScript

/-- The keys under which a node has a list of children. -/
inductive ListKey
  | statements | elements | arguments | parameters | fields
  deriving DecidableEq, Repr

def ListKey.name : ListKey → String
  | .statements => "statements"
  | .elements => "elements"
  | .arguments => "arguments"
  | .parameters => "parameters"
  | .fields => "fields"

/-- The list key of a node with the children under it; none if its kind has no list key. -/
def Node.list? : Node → Option (ListKey × List Node)
  | .program p => some (.statements, p.statements.map .statement)
  | .statement (.block b) => some (.statements, b.statements.map .statement)
  | .statement (.function d) => some (.parameters, d.parameters.map .parameter)
  | .statement (.struct d) => some (.fields, d.fields.map .field)
  | .statement (.fact d) => some (.arguments, d.arguments.map .expression)
  | .statement (.rule d) => some (.parameters, d.parameters.map .parameter)
  | .expression (.array _ elements) => some (.elements, elements.map .expression)
  | .expression (.call _ _ arguments) => some (.arguments, arguments.map .expression)
  | .expression (.logic (.call _ _ arguments)) => some (.arguments, arguments.map .expression)
  | _ => none

/-- A node of a kind that has no list of children. -/
def Node.Unlisted (node : Node) : Prop := node.list? = none

/-- A document stands somewhere in another. -/
inductive Document.Within (d : Document) : Document → Prop
  | here : Within d d
  | item {items : List Document} {e : Document} : e ∈ items → Within d e → Within d (.list items)
  | entry {entries : List (String × Document)} {key : String} {e : Document} :
    Document.lookup key entries = some e → Within d e → Within d (.mapping entries)

theorem Document.Within.trans {d e f : Document} (h : d.Within e) (h' : e.Within f) :
    d.Within f := by
  induction h' with
  | here => exact h
  | item hmem _ ih => exact .item hmem ih
  | entry hkey _ ih => exact .entry hkey ih

namespace Decode

variable {α β : Type}

/-- What a decoder can yield, whatever number it begins with. -/
def Results (x : Decoder α) (a : α) : Prop := ∃ n n', x n = .ok (a, n')

/-- Everything that a decoder can yield is of a kind. -/
def Ensures (x : Decoder α) (Q : α → Prop) : Prop := ∀ a, Results x a → Q a

namespace Ensures

variable {x : Decoder α}

theorem pure {a : α} {Q : α → Prop} (h : Q a) : Ensures (Pure.pure a) Q := by
  rintro _ ⟨n, _, ⟨⟩⟩
  exact h

theorem throw {e : DecodeError} {Q : α → Prop} :
    Ensures (MonadExcept.throw e : Decoder α) Q := by
  rintro _ ⟨n, _, ⟨⟩⟩

theorem bind {f : α → Decoder β} {Q : β → Prop} (h : ∀ a, Results x a → Ensures (f a) Q) :
    Ensures (x >>= f) Q := by
  rintro b ⟨n, n'', hb⟩
  have hstep : (x >>= f) n = (x n >>= fun r => f r.1 r.2) := rfl
  rw [hstep] at hb
  cases hn : x n with
  | error e =>
    rw [hn] at hb
    cases hb
  | ok r =>
    obtain ⟨a, n'⟩ := r
    rw [hn] at hb
    exact h a ⟨n, n', hn⟩ b ⟨n', n'', hb⟩

theorem mono {P Q : α → Prop} (hP : Ensures x P) (h : ∀ a, P a → Q a) : Ensures x Q :=
  fun a ha => h a (hP a ha)

end Ensures

/-- A node is what a mapping is decoded as. -/
def From (inner : Entries) (child : Node) : Prop := ∃ depth, Results (node depth inner) child

/-- A field is what a mapping is decoded as, whatever kind the mapping claims to be. -/
def FieldFrom (inner : Entries) (f : FieldDecl) : Prop :=
  f.name = text inner "name" ∧ f.mark.span = lenientSpan inner ∧
    ∃ depth, Results (type (node depth) inner "annotation") f.type

/-- A child is what an entry under a list key is decoded as. -/
def EntryFrom (key : ListKey) (d : Document) (child : Node) : Prop :=
  ∃ inner, d = .mapping inner ∧
    match key, child with
    | .statements, .statement s => From inner (.statement s)
    | .elements, .expression e => From inner (.expression e)
    | .arguments, .expression e => From inner (.expression e)
    | .parameters, .parameter p => From (withType inner .parameter) (.parameter p)
    | .fields, .field f => FieldFrom inner f
    | _, _ => False

/-- The children are what the value of a list key is decoded as: the entries of a list one by one;
anything else as no child at all. -/
def ListedFrom (key : ListKey) : Document → List Node → Prop
  | .list entries, children => List.Forall₂ (EntryFrom key) entries children
  | _, children => children = []

/-- A node that may have lists of children is decoded from a mapping that stands in a document. -/
def Stems (d : Document) (child : Node) : Prop :=
  child.Unlisted ∨ ∃ inner, (Document.mapping inner).Within d ∧ From inner child

/-- All nodes stem from a document. -/
def AllStem (d : Document) (nodes : List Node) : Prop := ∀ child ∈ nodes, Stems d child

section Stemming

variable {d e : Document} {nodes nodes' : List Node} {child : Node}

theorem AllStem.within (h : AllStem d nodes) (hwithin : d.Within e) : AllStem e nodes := by
  intro child hmem
  obtain hnone | ⟨inner, hinner, hfrom⟩ := h child hmem
  · exact .inl hnone
  · exact .inr ⟨inner, hinner.trans hwithin, hfrom⟩

@[simp] theorem allStem_nil : AllStem d [] := fun _ h => nomatch h

@[simp] theorem allStem_cons : AllStem d (child :: nodes) ↔ Stems d child ∧ AllStem d nodes :=
  List.forall_mem_cons

@[simp] theorem allStem_append :
    AllStem d (nodes ++ nodes') ↔ AllStem d nodes ∧ AllStem d nodes' := List.forall_mem_append

theorem allStem_type (t : TypeExpr) : AllStem d t.nodes := by
  induction t with
  | simple m name =>
    rw [TypeExpr.nodes, allStem_cons]
    exact ⟨.inl rfl, allStem_nil⟩
  | array m element ih =>
    rw [TypeExpr.nodes, allStem_cons]
    exact ⟨.inl rfl, ih⟩

theorem allStem_parameters (ps : List Parameter) : AllStem d (ps.flatMap Parameter.nodes) := by
  intro child hmem
  obtain ⟨p, -, hp⟩ := List.mem_flatMap.mp hmem
  obtain rfl | ht := List.mem_cons.mp hp
  · exact .inl rfl
  · exact allStem_type p.type child ht

theorem allStem_fields (fs : List FieldDecl) : AllStem d (fs.flatMap FieldDecl.nodes) := by
  intro child hmem
  obtain ⟨f, -, hf⟩ := List.mem_flatMap.mp hmem
  obtain rfl | ht := List.mem_cons.mp hf
  · exact .inl rfl
  · exact allStem_type f.type child ht

theorem allStem_optional (t : Option TypeExpr) : AllStem d ((t.map TypeExpr.nodes).getD []) := by
  cases t with
  | none => exact allStem_nil
  | some t => exact allStem_type t

theorem stem_reference (r : Reference) : Stems d r.node := .inl rfl

end Stemming

section Children

variable {depth : Nat}

theorem within_of_value {entries inner : Entries} {key : String}
    (h : value entries key = .mapping inner) :
    (Document.mapping inner).Within (.mapping entries) := by
  unfold value at h
  cases hlookup : Document.lookup key entries with
  | none =>
    rw [hlookup] at h
    cases h
  | some d =>
    rw [hlookup] at h
    exact .entry hlookup (h ▸ .here)

/-- A list of children: what it is decoded as, and where the nodes below it stem from. -/
structure Listing (key : ListKey) (d : Document) (ds : List Document) (children : List Node)
    (nodes : List Node) : Prop where
  entries : List.Forall₂ (EntryFrom key) ds children
  stem : (∀ e ∈ ds, e.Within d) → AllStem d nodes

theorem listing_items {entries : Entries} {key : ListKey} {children nodes : List Node}
    (h : Listing key (.mapping entries) (items entries key.name) children nodes) :
    ListedFrom key (value entries key.name) children ∧ AllStem (.mapping entries) nodes := by
  obtain ⟨hentries, hstem⟩ := h
  unfold items at hentries hstem
  constructor
  · cases hvalue : value entries key.name with
    | list ds =>
      rw [hvalue] at hentries
      exact hentries
    | _ =>
      rw [hvalue] at hentries
      exact List.forall₂_nil_left_iff.mp hentries
  · refine hstem fun e he => ?_
    cases hvalue : value entries key.name with
    | list ds =>
      rw [hvalue] at he
      unfold value at hvalue
      cases hlookup : Document.lookup key.name entries with
      | none =>
        rw [hlookup] at hvalue
        cases hvalue
      | some d =>
        rw [hlookup] at hvalue
        obtain rfl : d = .list ds := hvalue
        exact .entry hlookup (.item he .here)
    | _ =>
      rw [hvalue] at he
      cases he

variable (hd : ∀ inner, Ensures (node depth inner) fun child => AllStem (.mapping inner) child.nodes)
include hd

theorem stem_childOf {wanted : Category} {select : Node → Option α} {f : α → List Node}
    (hf : ∀ child a, select child = some a → child.nodes = f a) (entries : Entries) (key : String) :
    Ensures (childOf (node depth) wanted select entries key) fun a =>
      AllStem (.mapping entries) (f a) := by
  have hchild : Ensures (child (node depth) entries key) fun c =>
      AllStem (.mapping entries) c.nodes := by
    unfold child
    split
    · rename_i inner hvalue
      exact (hd inner).mono fun c hc => hc.within (within_of_value hvalue)
    · exact .throw
  refine .bind fun c hc => ?_
  split
  · rename_i a ha
    exact .pure (hf c a ha ▸ hchild c hc)
  · exact .throw

theorem stem_expression (entries : Entries) (key : String) :
    Ensures (expression (node depth) entries key) fun e => AllStem (.mapping entries) e.nodes := by
  refine stem_childOf hd (fun c e h => ?_) entries key
  unfold asExpression? at h
  split at h <;> cases h
  rfl

theorem stem_statement (entries : Entries) (key : String) :
    Ensures (statement (node depth) entries key) fun s => AllStem (.mapping entries) s.nodes := by
  refine stem_childOf hd (fun c s h => ?_) entries key
  unfold asStatement? at h
  split at h <;> cases h
  rfl

theorem stem_block (entries : Entries) (key : String) :
    Ensures (block (node depth) entries key) fun b =>
      AllStem (.mapping entries) (Stmt.block b).nodes := by
  refine stem_childOf hd (fun c b h => ?_) entries key
  unfold asBlock? at h
  split at h <;> cases h
  rfl

theorem stem_goal (entries : Entries) (key : String) :
    Ensures (goal (node depth) entries key) fun g => AllStem (.mapping entries) g.nodes := by
  refine stem_childOf hd (fun c g h => ?_) entries key
  unfold asGoal? at h
  split at h <;> cases h
  simp only [Node.nodes, Expr.nodes]

theorem stem_predicateCall (entries : Entries) (key : String) :
    Ensures (predicateCall (node depth) entries key) fun c =>
      AllStem (.mapping entries) c.goal.nodes := by
  refine stem_childOf hd (fun c p h => ?_) entries key
  unfold asPredicateCall? at h
  split at h <;> cases h
  simp only [Node.nodes, Expr.nodes, PredicateCall.goal]

omit hd in
theorem stem_optional {get : Entries → String → Decoder α} {d : Document} {f : α → List Node}
    {entries : Entries} {key : String}
    (hget : Ensures (get entries key) fun a => AllStem d (f a)) :
    Ensures (optional get entries key) fun o => AllStem d ((o.map f).getD []) := by
  unfold optional
  split
  · exact .pure allStem_nil
  · exact .bind fun a ha => .pure (hget a ha)

theorem listing_statements {d : Document} (ds : List Document) :
    Ensures (statements (node depth) ds) fun sts =>
      Listing .statements d ds (sts.map .statement) (Stmt.nodesOfList sts) := by
  fun_induction statements (node depth) ds with
  | case1 => exact .pure ⟨.nil, fun _ => allStem_nil⟩
  | case2 inner rest ih =>
    refine .bind fun c hc => ?_
    have hstem := hd inner c hc
    cases c with
    | statement s =>
      refine .bind fun sts hsts => .pure ⟨.cons ⟨inner, rfl, depth, hc⟩ (ih sts hsts).entries,
        fun hds => ?_⟩
      obtain ⟨hfirst, hrest⟩ := List.forall_mem_cons.mp hds
      exact allStem_append.mpr ⟨hstem.within hfirst, (ih sts hsts).stem hrest⟩
    | _ => exact .throw
  | case3 => exact .throw

theorem listing_expressions {d : Document} (key : ListKey)
    (hkey : key = .elements ∨ key = .arguments) (ds : List Document) :
    Ensures (expressions (node depth) ds) fun es =>
      Listing key d ds (es.map .expression) (Expr.nodesOfList es) := by
  fun_induction expressions (node depth) ds with
  | case1 => exact .pure ⟨.nil, fun _ => allStem_nil⟩
  | case2 inner rest ih =>
    refine .bind fun c hc => ?_
    have hstem := hd inner c hc
    cases c with
    | expression e =>
      have hentry : EntryFrom key (.mapping inner) (.expression e) := by
        obtain rfl | rfl := hkey <;> exact ⟨inner, rfl, depth, hc⟩
      refine .bind fun es hes => .pure ⟨.cons hentry (ih es hes).entries, fun hds => ?_⟩
      obtain ⟨hfirst, hrest⟩ := List.forall_mem_cons.mp hds
      exact allStem_append.mpr ⟨hstem.within hfirst, (ih es hes).stem hrest⟩
    | _ => exact .throw
  | case3 => exact .throw

omit hd in
theorem listing_parameters {d : Document} (ds : List Document) :
    Ensures (parameters (node depth) ds) fun ps =>
      Listing .parameters d ds (ps.map .parameter) (ps.flatMap Parameter.nodes) := by
  refine .mono (P := fun ps => List.Forall₂ (EntryFrom .parameters) ds (ps.map .parameter)) ?_
    fun ps h => ⟨h, fun _ => allStem_parameters ps⟩
  fun_induction parameters (node depth) ds with
  | case1 => exact .pure .nil
  | case2 inner rest ih =>
    refine .bind fun c hc => ?_
    cases c with
    | parameter p =>
      exact .bind fun ps hps => .pure (.cons ⟨inner, rfl, depth, hc⟩ (ih ps hps))
    | _ => exact .throw
  | case3 => exact .throw

omit hd in
theorem listing_fields {d : Document} (ds : List Document) :
    Ensures (fields (node depth) ds) fun fs =>
      Listing .fields d ds (fs.map .field) (fs.flatMap FieldDecl.nodes) := by
  refine .mono (P := fun fs => List.Forall₂ (EntryFrom .fields) ds (fs.map .field)) ?_
    fun fs h => ⟨h, fun _ => allStem_fields fs⟩
  fun_induction fields (node depth) ds with
  | case1 => exact .pure .nil
  | case2 inner rest ih =>
    exact .bind fun id _ => .bind fun t ht => .bind fun fs hfs =>
      .pure (.cons ⟨inner, rfl, rfl, rfl, depth, ht⟩ (ih fs hfs))
  | case3 => exact .throw

/-- What a node and the nodes below it have to do with the mapping that it is decoded from. -/
structure Faithful (entries : Entries) (child : Node) : Prop where
  lists : ∀ key children, child.list? = some (key, children) →
    ListedFrom key (value entries key.name) children
  below : ∃ nodes, child.nodes = child :: nodes ∧ AllStem (.mapping entries) nodes

omit hd in
theorem Faithful.unlisted {entries : Entries} {child : Node} {nodes : List Node}
    (hnodes : child.nodes = child :: nodes) (hstem : AllStem (.mapping entries) nodes)
    (h : child.Unlisted := by rfl) : Faithful entries child where
  lists key children hkey := by cases h.symm.trans hkey
  below := ⟨nodes, hnodes, hstem⟩

omit hd in
theorem Faithful.listed {entries : Entries} {child : Node} {key : ListKey}
    {children nodes : List Node} (hkey : child.list? = some (key, children))
    (hlist : ListedFrom key (value entries key.name) children)
    (hnodes : child.nodes = child :: nodes) (hstem : AllStem (.mapping entries) nodes) :
    Faithful entries child where
  lists key' children' hkey' := by
    cases hkey.symm.trans hkey'
    exact hlist
  below := ⟨nodes, hnodes, hstem⟩

theorem faithful_body (entries : Entries) (kind : NodeKind) :
    Ensures (body (node depth) entries kind) fun build => ∀ m, Faithful entries (build m) := by
  have hexpression := stem_expression hd entries
  have hgoal := stem_goal hd entries
  cases kind with
  | root =>
    refine .bind fun sts hsts => .pure fun m => ?_
    obtain ⟨hlist, hstem⟩ := listing_items (listing_statements hd _ sts hsts)
    exact .listed rfl hlist rfl hstem
  | block =>
    refine .bind fun sts hsts => .pure fun m => ?_
    obtain ⟨hlist, hstem⟩ := listing_items (listing_statements hd _ sts hsts)
    exact .listed rfl hlist (by rw [Node.nodes, Stmt.nodes]) hstem
  | expressionStatement =>
    refine .bind fun e he => .pure fun m => .unlisted ?_ (hexpression _ e he)
    rw [Node.nodes, Stmt.nodes]
  | varDeclaration =>
    refine .bind fun t _ => .bind fun e he => .pure fun m => .unlisted ?_
      (allStem_append.mpr ⟨allStem_optional t, stem_optional (hexpression _) e he⟩)
    rw [Node.nodes, Stmt.nodes, VarDecl.nodes]
  | parameter =>
    exact .bind fun t _ => .pure fun m => .unlisted rfl (allStem_type t)
  | functionDeclaration =>
    refine .bind fun ps hps => .bind fun t _ => .bind fun b hb => .pure fun m => ?_
    obtain ⟨hlist, hstem⟩ := listing_items (listing_parameters _ ps hps)
    have hbody := stem_block hd _ _ b hb
    obtain ⟨mark, sts⟩ := b
    refine .listed rfl hlist (by rw [Node.nodes, Stmt.nodes]) ?_
    rw [Stmt.nodes] at hbody
    exact allStem_append.mpr ⟨allStem_append.mpr ⟨hstem, allStem_optional t⟩, hbody⟩
  | fieldDeclaration =>
    exact .bind fun t _ => .pure fun m => .unlisted rfl (allStem_type t)
  | structDeclaration =>
    refine .bind fun fs hfs => .pure fun m => ?_
    obtain ⟨hlist, hstem⟩ := listing_items (listing_fields _ fs hfs)
    exact .listed rfl hlist (by rw [Node.nodes, Stmt.nodes, StructDecl.nodes]) hstem
  | ifStatement =>
    refine .bind fun e he => .bind fun yes hyes => .bind fun no hno => .pure fun m => ?_
    have hfirst := allStem_append.mpr ⟨hexpression _ e he, stem_statement hd _ _ yes hyes⟩
    have hsecond := stem_optional (stem_statement hd _ _) no hno
    cases no with
    | none => exact .unlisted (by rw [Node.nodes, Stmt.nodes]) hfirst
    | some no =>
      refine .unlisted ?_ (allStem_append.mpr ⟨hfirst, hsecond⟩)
      rw [Node.nodes, Stmt.nodes, Option.map_some, Option.getD_some]
  | whileStatement =>
    refine .bind fun e he => .bind fun s hs => .pure fun m => .unlisted ?_
      (allStem_append.mpr ⟨hexpression _ e he, stem_statement hd _ _ s hs⟩)
    rw [Node.nodes, Stmt.nodes]
  | returnStatement =>
    refine .bind fun e he => .pure fun m => ?_
    have hvalue := stem_optional (hexpression _) e he
    cases e with
    | none => exact .unlisted (by rw [Node.nodes, Stmt.nodes]) allStem_nil
    | some e =>
      refine .unlisted ?_ hvalue
      rw [Node.nodes, Stmt.nodes, Option.map_some, Option.getD_some]
  | intLiteral | floatLiteral =>
    exact .bind fun _ _ => .pure fun m => .unlisted (by simp [Node.nodes, Expr.nodes]) allStem_nil
  | stringLiteral | boolLiteral | nullLiteral | reference | constructor =>
    exact .pure fun m => .unlisted (by simp [Node.nodes, Expr.nodes]) allStem_nil
  | arrayLiteral =>
    refine .bind fun es hes => .pure fun m => ?_
    obtain ⟨hlist, hstem⟩ :=
      listing_items (listing_expressions hd .elements (.inl rfl) _ es hes)
    exact .listed rfl hlist (by rw [Node.nodes, Expr.nodes]) hstem
  | fieldAccess | parenthesized =>
    refine .bind fun e he => .pure fun m => .unlisted ?_ (hexpression _ e he)
    rw [Node.nodes, Expr.nodes]
  | arrayAccess | assignment =>
    refine .bind fun e he => .bind fun e' he' => .pure fun m => .unlisted ?_
      (allStem_append.mpr ⟨hexpression _ e he, hexpression _ e' he'⟩)
    rw [Node.nodes, Expr.nodes]
  | functionCall =>
    refine .bind fun e he => .bind fun es hes => .pure fun m => ?_
    obtain ⟨hlist, hstem⟩ :=
      listing_items (listing_expressions hd .arguments (.inr rfl) _ es hes)
    exact .listed rfl hlist (by rw [Node.nodes, Expr.nodes])
      (allStem_append.mpr ⟨hexpression _ e he, hstem⟩)
  | unaryExpression =>
    refine .bind fun e he => ?_
    split
    · exact .throw
    · refine .pure fun m => .unlisted ?_ (hexpression _ e he)
      rw [Node.nodes, Expr.nodes]
  | binaryExpression =>
    refine .bind fun e he => .bind fun e' he' => ?_
    split
    · refine .pure fun m => .unlisted ?_
        (allStem_append.mpr ⟨hexpression _ e he, hexpression _ e' he'⟩)
      rw [Node.nodes, Expr.nodes]
    · exact .throw
  | simpleType =>
    exact .pure fun m => .unlisted rfl allStem_nil
  | arrayType =>
    exact .bind fun t _ => .pure fun m => .unlisted rfl (allStem_type t)
  | atomLiteral =>
    refine .pure fun m => .unlisted ?_ allStem_nil
    rw [Node.nodes, Expr.nodes, Goal.nodes]
  | atomDeclaration =>
    exact .pure fun m => .unlisted (by rw [Node.nodes, Stmt.nodes]) allStem_nil
  | factDeclaration =>
    refine .bind fun es hes => .pure fun m => ?_
    obtain ⟨hlist, hstem⟩ :=
      listing_items (listing_expressions hd .arguments (.inr rfl) _ es hes)
    exact .listed rfl hlist (by rw [Node.nodes, Stmt.nodes, FactDecl.nodes]) hstem
  | ruleDeclaration =>
    refine .bind fun ps hps => .bind fun g hg => .pure fun m => ?_
    obtain ⟨hlist, hstem⟩ := listing_items (listing_parameters _ ps hps)
    exact .listed rfl hlist (by rw [Node.nodes, Stmt.nodes, RuleDecl.nodes])
      (allStem_append.mpr ⟨hstem, hgoal _ g hg⟩)
  | predicateCall =>
    refine .bind fun es hes => .pure fun m => ?_
    obtain ⟨hlist, hstem⟩ :=
      listing_items (listing_expressions hd .arguments (.inr rfl) _ es hes)
    exact .listed rfl hlist (by rw [Node.nodes, Expr.nodes, Goal.nodes]) hstem
  | unification =>
    refine .bind fun c hc => .bind fun c' hc' => .pure fun m => .unlisted ?_
      (allStem_append.mpr ⟨stem_predicateCall hd _ _ c hc, stem_predicateCall hd _ _ c' hc'⟩)
    rw [Node.nodes, Stmt.nodes]
  | unboundParameter =>
    refine .bind fun t _ => .pure fun m => .unlisted ?_ (allStem_type t)
    rw [Node.nodes, Expr.nodes]
  | logicParenthesized | logicNot =>
    refine .bind fun g hg => .pure fun m => .unlisted ?_ (hgoal _ g hg)
    rw [Node.nodes, Expr.nodes, Goal.nodes]
  | logicBinary =>
    refine .bind fun g hg => .bind fun g' hg' => ?_
    split
    · refine .pure fun m => .unlisted ?_ (allStem_append.mpr ⟨hgoal _ g hg, hgoal _ g' hg'⟩)
      rw [Node.nodes, Expr.nodes, Goal.nodes]
    · exact .throw
  | boolQuery =>
    refine .bind fun r _ => .bind fun e he => .pure fun m => .unlisted ?_
      (allStem_cons.mpr ⟨stem_reference r, hexpression _ e he⟩)
    rw [Node.nodes, Expr.nodes]
  | builtinDeclaration => exact .throw

end Children

theorem faithful_node {depth : Nat}
    (hd : ∀ inner, Ensures (node depth inner) fun child => AllStem (.mapping inner) child.nodes)
    (entries : Entries) : Ensures (node (depth + 1) entries) (Faithful entries) := by
  refine .bind fun id _ => ?_
  dsimp only
  split
  · exact .bind fun build hbuild => .bind fun place _ =>
      .pure (faithful_body hd entries _ build hbuild _)
  · exact .throw

theorem stem_node (depth : Nat) (entries : Entries) :
    Ensures (node depth entries) fun child => AllStem (.mapping entries) child.nodes := by
  induction depth generalizing entries with
  | zero => exact .throw
  | succ depth ih =>
    intro child hchild
    obtain ⟨nodes, hnodes, hstem⟩ := (faithful_node ih entries child hchild).below
    rw [hnodes, allStem_cons]
    exact ⟨.inr ⟨entries, .here, depth + 1, hchild⟩, hstem⟩

theorem From.lists {inner : Entries} {child : Node} (h : From inner child) {key : ListKey}
    {children : List Node} (hkey : child.list? = some (key, children)) :
    ListedFrom key (value inner key.name) children := by
  obtain ⟨depth, h⟩ := h
  cases depth with
  | zero => exact (Ensures.throw (Q := fun _ => False) child h).elim
  | succ depth => exact (faithful_node (stem_node depth) inner child h).lists key children hkey

end Decode

/-- The lists of an accepted document: a node that has children under a list key is decoded from
a mapping of the document, and whatever mapping it is decoded from, the children are the entries of
the list that the key holds, one by one. They are none if the key holds anything else. -/
theorem Program.decode_lists {entries : List (String × Document)} {p : Program}
    (h : Program.decode entries = .ok p) {child : Node} (hchild : child ∈ p.nodes) {key : ListKey}
    {children : List Node} (hkey : child.list? = some (key, children)) :
    (∃ inner, (Document.mapping inner).Within (.mapping entries) ∧ Decode.From inner child) ∧
      ∀ inner, Decode.From inner child →
        Decode.ListedFrom key (Decode.value inner key.name) children := by
  refine ⟨?_, fun inner hfrom => hfrom.lists hkey⟩
  unfold Program.decode at h
  cases hnode : (Decode.node (Document.mapping entries).depth entries).run 0 with
  | error e =>
    rw [hnode] at h
    cases h
  | ok r =>
    obtain ⟨root, n⟩ := r
    rw [hnode] at h
    have hstem := Decode.stem_node _ _ root ⟨0, n, hnode⟩
    cases root with
    | program q =>
      cases h
      obtain hnone | hfrom := hstem child hchild
      · cases hnone.symm.trans hkey
      · exact hfrom
    | _ => cases h

namespace Decode.Sample

/-- The fact `p(null, true).` as a document. -/
def stating : List (String × Document) :=
  [("type", .text "Root"), ("statements", .list [.mapping
    [("type", .text "FactDeclaration"), ("functor", .text "p"), ("arguments", .list
      [.mapping [("type", .text "NullLiteral")],
        .mapping [("type", .text "BoolLiteral"), ("value", .bool true)]])]])]

def statedFact : FactDecl :=
  ⟨⟨1, {}⟩, "p", [.null ⟨2, {}⟩, .bool ⟨3, {}⟩ true]⟩

theorem decode_stating : Program.decode stating = .ok ⟨⟨0, {}⟩, [.fact statedFact]⟩ := rfl

/-- The arguments of the fact are the two entries of its list. -/
theorem stating_lists :
    (∃ inner, (Document.mapping inner).Within (.mapping stating) ∧
      From inner (.statement (.fact statedFact))) ∧
      ∀ inner, From inner (.statement (.fact statedFact)) →
        ListedFrom .arguments (value inner "arguments")
          [.expression (.null ⟨2, {}⟩), .expression (.bool ⟨3, {}⟩ true)] :=
  have hfact : Node.statement (.fact statedFact) ∈
      Program.nodes ⟨⟨0, {}⟩, [.fact statedFact]⟩ := by
    simp [Program.nodes, Stmt.nodesOfList, Stmt.nodes, FactDecl.nodes]
  Program.decode_lists decode_stating hfact rfl

/-- A program with a number in the place of its statements. -/
def numbered : List (String × Document) :=
  [("type", .text "Root"), ("statements", .number (.text "7"))]

/-- A value that is not a list is dropped without an error: the program with a number in the place
of its statements is accepted as the empty program. -/
theorem drops_number : ¬ ∀ (entries : List (String × Document)) (p : Program),
    Program.decode entries = .ok p → ∀ child ∈ p.nodes, ∀ key children,
      child.list? = some (key, children) → ∀ inner, From inner child →
        value inner key.name = .null ∨ ∃ ds, value inner key.name = .list ds ∧
          List.Forall₂ (EntryFrom key) ds children := by
  intro h
  obtain hnull | ⟨ds, hlist, -⟩ := h numbered ⟨⟨0, {}⟩, []⟩ rfl (.program ⟨⟨0, {}⟩, []⟩)
    List.mem_cons_self .statements [] rfl numbered
    ⟨(Document.mapping numbered).depth, 0, 1, rfl⟩
  · cases hnull
  · cases hlist

end Decode.Sample

end LogicScript
