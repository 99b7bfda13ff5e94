import LogicScript.Proofs.Numbering
import LogicScript.Proofs.Numerals
import LogicScript.Proofs.Writing

/-! How decoding reads the parts of a written document.

A decoder is given the nodes that it is to meet. From this follows what the lists, the optional
children and the bare names of a document are decoded as, whatever the nodes below them are. -/
namespace LogicScript

namespace Document

theorem lookup_append (key : String) (es es' : List (String × Document)) :
    lookup key (es ++ es') = (lookup key es').or (lookup key es) := by
  induction es with
  | nil => simp [lookup]
  | cons e es ih =>
    obtain ⟨k, d⟩ := e
    simp [lookup, ih, Option.or_assoc]

end Document

namespace Style

open Decode

variable (w : Style) {α β : Type}

/-- The texts of the doubles among some nodes are read back. -/
def Reads (nodes : List Node) : Prop :=
  ∀ m x, Node.expression (.float m x) ∈ nodes → readFloat64 (w.float x) = .ok x

/-- A decoder meets some nodes and yields a result, if the nodes are numbered in order from where it
stands. -/
def Yields (x : Decoder α) (nodes : List Node) (a : α) : Prop :=
  w.Reads nodes → ∀ n, numbers nodes = List.range' n nodes.length →
    x n = .ok (a, n + nodes.length)

variable {w}

theorem Reads.mono {nodes nodes' : List Node} (h : w.Reads nodes) (hsub : nodes' ⊆ nodes) :
    w.Reads nodes' := fun m x hmem => h m x (hsub hmem)

namespace Yields

variable {x : Decoder α} {nodes nodes' : List Node} {a : α} {b : β}

theorem pure {a' : α} (h : a' = a) : w.Yields (Pure.pure a') [] a := by
  rintro - n -
  rw [h]
  rfl

theorem bind {f : α → Decoder β} (hx : w.Yields x nodes a) (hf : w.Yields (f a) nodes' b) :
    w.Yields (x >>= f) (nodes ++ nodes') b := by
  intro hreads n hn
  -- The numbers run on from the first nodes to the others.
  have hsplit : numbers nodes ++ numbers nodes' =
      List.range' n nodes.length ++ List.range' (n + nodes.length) nodes'.length := by
    rw [← numbers_append, hn, List.length_append, List.range'_append_1]
  obtain ⟨hfirst, hrest⟩ := List.append_inj hsplit (by simp [numbers])
  have hstep : (x >>= f) n = (x n >>= fun r => f r.1 r.2) := rfl
  rw [hstep, hx (hreads.mono (List.subset_append_left ..)) n hfirst]
  show f a (n + nodes.length) = _
  rw [hf (hreads.mono (List.subset_append_right ..)) _ hrest, List.length_append, Nat.add_assoc]

theorem last {f : α → Decoder β} (hx : w.Yields x nodes a) (hf : f a = Pure.pure b := by rfl) :
    w.Yields (x >>= f) nodes b := by
  have h : w.Yields (x >>= f) (nodes ++ []) b := hx.bind (hf ▸ pure rfl)
  rwa [List.append_nil] at h

theorem lift {e : Except DecodeError α} (h : e = .ok a) : w.Yields (liftM e) [] a := by
  rintro - n -
  rw [h]
  rfl

theorem fresh (node : Node) : w.Yields Decode.fresh [node] node.mark.id := by
  intro _ n hn
  have hid : node.mark.id = n := by simpa using hn
  rw [hid]
  rfl

end Yields

/-- The children of a node have other keys than its kind and its place. -/
structure Plain (fields : Entries) : Prop where
  type : Document.lookup "type" fields = none
  span : Document.lookup "span" fields = none

/-- The entries hold the children of a node and its place. -/
structure Holds (es : Entries) (m : Mark) (fields : Entries) : Prop where
  plain : Plain fields
  lookup : ∀ key, key ≠ "type" → key ≠ "span" →
    Document.lookup key es = Document.lookup key fields
  span : Decode.span es = .ok m.span

theorem integer_of_lookup {key : String} {i : Int64} {es : Entries}
    (h : Document.lookup key es = some (integer i)) : Decode.integer es key = .ok i := by
  have hvalue : value es key = .number (.text (toString i)) := by
    rw [value, h]
    rfl
  simp only [Decode.integer, hvalue, readInt64_toString]
  rfl

theorem lookup_place (s : Span) {key : String} (h : key ≠ "span") :
    Document.lookup key (place s) = none := by
  unfold place
  split <;> simp [Document.lookup, h.symm]

theorem span_of_lookup {es : Entries} {s : Span}
    (h : Document.lookup "span" es = Document.lookup "span" (place s)) :
    Decode.span es = .ok s := by
  by_cases hknown : s.known
  · have hvalue : value es "span" =
        .mapping [("line", integer s.line), ("column", integer s.column)] := by
      simp [value, h, place, hknown, Document.lookup]
    have hline : Decode.integer [("line", integer s.line), ("column", integer s.column)] "line" =
        .ok s.line := integer_of_lookup (by simp [Document.lookup])
    have hcolumn : Decode.integer [("line", integer s.line), ("column", integer s.column)]
        "column" = .ok s.column := integer_of_lookup (by simp [Document.lookup])
    simp only [Decode.span, hvalue, hline, hcolumn]
    rfl
  · have hvalue : value es "span" = .null := by
      simp [value, h, place, hknown, Document.lookup]
    have hs : s = {} := by simpa [Span.known] using hknown
    simp only [Decode.span, hvalue, hs]
    rfl

theorem lookup_optional (key key' : String) (child : Option Document) :
    Document.lookup key (optional key' child) = if key' = key then child else none := by
  cases child <;> simp [optional, Document.lookup]

theorem holds_place {m : Mark} {fields : Entries} (h : Plain fields) :
    Holds (place m.span ++ fields) m fields where
  plain := h
  lookup key _ hspan := by simp [Document.lookup_append, lookup_place _ hspan]
  span := span_of_lookup (by simp [Document.lookup_append, h.span])

theorem Holds.cons {es : Entries} {m : Mark} {fields : Entries} (h : Holds es m fields)
    (d : Document) : Holds (("type", d) :: es) m fields where
  plain := h.plain
  lookup key htype hspan := by simp [Document.lookup, htype.symm, h.lookup key htype hspan]
  span := by
    have hvalue : value (("type", d) :: es) "span" = value es "span" := by
      simp [value, Document.lookup]
    rw [← h.span, Decode.span, Decode.span, hvalue]

theorem holds_entries (kind : NodeKind) {m : Mark} {fields : Entries} (h : Plain fields) :
    Holds (entries kind m fields) m fields := (holds_place h).cons _

variable (w) in
/-- A document is decoded as a node. -/
def Decodes (d : Document) (a : Node) : Prop :=
  ∃ es, d = .mapping es ∧ ∀ depth, d.depth ≤ depth → w.Yields (Decode.node depth es) a.nodes a

variable (w) in
/-- A list of documents is decoded. -/
def DecodesAll (get : (Entries → Decoder Node) → List Document → Decoder α) (ds : List Document)
    (nodes : List Node) (a : α) : Prop :=
  ∀ depth, Document.depthList ds ≤ depth → w.Yields (get (Decode.node depth) ds) nodes a

variable (w) in
/-- A document is decoded as a child of some category. -/
structure Gets (get : (Entries → Decoder Node) → Entries → String → Decoder α) (d : Document)
    (nodes : List Node) (a : α) : Prop where
  present : d ≠ .null
  yields : ∀ depth es key, value es key = d → d.depth ≤ depth →
    w.Yields (get (Decode.node depth) es key) nodes a

/-- The entries hold a node, for decoding down to a depth below it. -/
structure Inside (depth : Nat) (es : Entries) (m : Mark) (fields : Entries) : Prop
    extends Holds es m fields where
  depth : (Document.mapping es).depth ≤ depth + 1

namespace Inside

variable {depth : Nat} {es fields : Entries} {m : Mark} {key : String} {d : Document}

theorem lookup_of_fields (h : Inside depth es m fields)
    (hfield : Document.lookup key fields = some d) : Document.lookup key es = some d := by
  rw [h.lookup key, hfield]
  · rintro rfl
    simp [h.plain.type] at hfield
  · rintro rfl
    simp [h.plain.span] at hfield

theorem value (h : Inside depth es m fields) (hfield : Document.lookup key fields = some d) :
    Decode.value es key = d := by
  rw [Decode.value, h.lookup_of_fields hfield]
  rfl

theorem text (h : Inside depth es m fields) (key : String) {t : String}
    (hfield : Document.lookup key fields = some (.text t) := by
      simp [Document.lookup, Document.lookup_append, lookup_optional]) :
    Decode.text es key = t := by
  rw [Decode.text, h.value hfield]

theorem depth_lt (h : Inside depth es m fields) (hfield : Document.lookup key fields = some d) :
    d.depth < depth + 1 :=
  Nat.lt_of_lt_of_le (Document.depth_lt_of_lookup (h.lookup_of_fields hfield)) h.depth

theorem child (h : Inside depth es m fields) (key : String)
    {get : (Entries → Decoder Node) → Entries → String → Decoder α} {nodes : List Node} {a : α}
    (hget : w.Gets get d nodes a)
    (hfield : Document.lookup key fields = some d := by
      simp [Document.lookup, Document.lookup_append, lookup_optional]) :
    w.Yields (get (Decode.node depth) es key) nodes a :=
  hget.yields depth es key (h.value hfield) (Nat.lt_succ_iff.mp (h.depth_lt hfield))

theorem list (h : Inside depth es m fields) (key : String)
    {get : (Entries → Decoder Node) → List Document → Decoder α} {ds : List Document}
    {nodes : List Node} {a : α} (hall : w.DecodesAll get ds nodes a)
    (hfield : Document.lookup key fields = some (.list ds) := by
      simp [Document.lookup, Document.lookup_append, lookup_optional]) :
    w.Yields (get (Decode.node depth) (items es key)) nodes a := by
  have hitems : items es key = ds := by rw [items, h.value hfield]
  rw [hitems]
  have hdepth := h.depth_lt hfield
  rw [Document.depth] at hdepth
  exact hall depth (by omega)

theorem absent (h : Inside depth es m fields) (key : String) (get : Entries → String → Decoder α)
    (hkey : key ≠ "type" ∧ key ≠ "span" := by decide)
    (hfield : Document.lookup key fields = none := by
      simp [Document.lookup, Document.lookup_append, lookup_optional]) :
    w.Yields (Decode.optional get es key) [] none := by
  have hnull : isNull es key = true := by
    rw [isNull, Decode.value, h.lookup key hkey.1 hkey.2, hfield]
    rfl
  rw [Decode.optional, hnull]
  exact .pure rfl

theorem present (h : Inside depth es m fields) (key : String)
    {get : (Entries → Decoder Node) → Entries → String → Decoder α} {nodes : List Node} {a : α}
    (hget : w.Gets get d nodes a)
    (hfield : Document.lookup key fields = some d := by
      simp [Document.lookup, Document.lookup_append, lookup_optional]) :
    w.Yields (Decode.optional (get (Decode.node depth)) es key) nodes (some a) := by
  have hnull : isNull es key = false := by
    rw [isNull, h.value hfield]
    split
    · exact absurd rfl hget.present
    · rfl
  rw [Decode.optional, hnull]
  exact (h.child key hget hfield).last

theorem optional (h : Inside depth es m fields) (key : String)
    {get : (Entries → Decoder Node) → Entries → String → Decoder α} {write : α → Document}
    {nodes : α → List Node} (o : Option α) (hget : ∀ a, w.Gets get (write a) (nodes a) a)
    (hkey : key ≠ "type" ∧ key ≠ "span" := by decide)
    (hfield : Document.lookup key fields = o.map write := by
      simp [Document.lookup, Document.lookup_append, lookup_optional]) :
    w.Yields (Decode.optional (get (Decode.node depth)) es key) ((o.map nodes).getD []) o := by
  cases o with
  | none => exact h.absent key _ hkey hfield
  | some a => exact h.present key (hget a) hfield

end Inside

theorem yields_node {kind : NodeKind} {m : Mark} {fields : Entries} (b : Mark → Node)
    {rest : List Node}
    (hbody : ∀ depth es, Inside depth es m fields → w.Reads [b m] →
      w.Yields (body (Decode.node depth) es kind) rest b)
    (hnodes : (b m).nodes = b m :: rest) (hmark : (b m).mark = m) {depth : Nat} {es : Entries}
    (h : Holds es m fields) (htype : Decode.text es "type" = kind.name)
    (hdepth : (Document.mapping es).depth ≤ depth) :
    w.Yields (Decode.node depth es) (b m).nodes (b m) := by
  cases depth with
  | zero => simp [Document.depth] at hdepth
  | succ depth =>
    rw [hnodes]
    intro hreads
    have hhead : w.Reads [b m] := hreads.mono (by simp)
    have hchildren := hbody depth es ⟨h, hdepth⟩ hhead
    have hnumber : w.Yields Decode.fresh [b m] (b m).mark.id := .fresh (b m)
    refine hnumber.bind ?_ hreads
    simp only [htype, NodeKind.ofName?_name, hmark]
    have hplace : w.Yields
        (liftM (Decode.span es) >>= fun s => (Pure.pure (b ⟨m.id, s⟩) : Decoder Node)) [] (b m) :=
      (Yields.lift h.span).last
    have hall := Yields.bind
      (f := fun build => liftM (Decode.span es) >>= fun s => Pure.pure (build ⟨m.id, s⟩))
      hchildren hplace
    rwa [List.append_nil] at hall

theorem text_entries {kind : NodeKind} {m : Mark} {fields : Entries} (h : Plain fields) :
    Decode.text (entries kind m fields) "type" = kind.name := by
  simp [Decode.text, Decode.value, entries, Document.lookup, Document.lookup_append, h.type,
    lookup_place]

theorem decodes_node {kind : NodeKind} {m : Mark} {fields : Entries} (b : Mark → Node)
    {rest : List Node}
    (hbody : ∀ depth es, Inside depth es m fields → w.Reads [b m] →
      w.Yields (body (Decode.node depth) es kind) rest b)
    (hnodes : (b m).nodes = b m :: rest) (hmark : (b m).mark = m)
    (hplain : Plain fields := by
      constructor <;> simp [Document.lookup, Document.lookup_append, lookup_optional]) :
    w.Decodes (node kind m fields) (b m) :=
  ⟨entries kind m fields, rfl, fun _ hdepth =>
    yields_node b hbody hnodes hmark (holds_entries kind hplain) (text_entries hplain) hdepth⟩

/-! The children of each category. -/

theorem Decodes.gets {d : Document} {a : Node} (h : w.Decodes d a) {wanted : Category}
    {select : Node → Option α} {c : α} (hselect : select a = some c) :
    w.Gets (fun decode => childOf decode wanted select) d a.nodes c := by
  obtain ⟨inner, rfl, hnode⟩ := h
  refine ⟨nofun, fun depth es key hvalue hdepth => ?_⟩
  have hchild : child (Decode.node depth) es key = Decode.node depth inner := by
    rw [child, hvalue]
  show w.Yields (childOf _ _ _ _ _) _ _
  unfold childOf
  rw [hchild]
  exact (hnode depth hdepth).last (by rw [hselect])

theorem Decodes.expression {d : Document} {e : Expr} (h : w.Decodes d (.expression e)) :
    w.Gets Decode.expression d e.nodes e := h.gets rfl

theorem Decodes.statement {d : Document} {s : Stmt} (h : w.Decodes d (.statement s)) :
    w.Gets Decode.statement d s.nodes s := h.gets rfl

theorem Decodes.block {d : Document} {b : Block} (h : w.Decodes d (.statement (.block b))) :
    w.Gets Decode.block d (Stmt.block b).nodes b := h.gets rfl

theorem Decodes.goal {d : Document} {g : Goal} (h : w.Decodes d (.expression (.logic g))) :
    w.Gets Decode.goal d g.nodes g := by
  have hget : w.Gets Decode.goal d (Node.expression (.logic g)).nodes g := h.gets rfl
  rwa [Node.nodes, Expr.nodes] at hget

theorem Decodes.predicateCall {d : Document} {c : PredicateCall}
    (h : w.Decodes d (.expression (.logic c.goal))) :
    w.Gets Decode.predicateCall d c.goal.nodes c := by
  have hget : w.Gets Decode.predicateCall d (Node.expression (.logic c.goal)).nodes c := h.gets rfl
  rwa [Node.nodes, Expr.nodes] at hget

/-- What may also be a bare name is decoded from a mapping as any other child. -/
theorem Decodes.gets_unnamed {d : Document} {a : Node} (h : w.Decodes d a) {nodes : List Node}
    {c : α} {get get' : (Entries → Decoder Node) → Entries → String → Decoder α}
    (hget : w.Gets get d nodes c)
    (hsame : ∀ decode es key inner, value es key = .mapping inner →
      get' decode es key = get decode es key) : w.Gets get' d nodes c := by
  obtain ⟨inner, rfl, -⟩ := h
  refine ⟨hget.present, fun depth es key hvalue hdepth => ?_⟩
  rw [hsame _ es key inner hvalue]
  exact hget.yields depth es key hvalue hdepth

theorem Decodes.reference {d : Document} {r : Reference}
    (h : w.Decodes d (.expression (.reference r))) : w.Gets Decode.reference d [r.node] r := by
  have hget : w.Gets (fun decode => childOf decode .reference asReference?) d
      (Node.expression (.reference r)).nodes r := h.gets rfl
  have hnodes : (Node.expression (.reference r)).nodes = [r.node] := by
    simp [Node.nodes, Expr.nodes, Reference.node]
  rw [hnodes] at hget
  exact h.gets_unnamed hget fun _ _ _ _ hvalue => by simp only [Decode.reference, hvalue]

theorem Decodes.type {d : Document} {t : TypeExpr} (h : w.Decodes d (.type t)) :
    w.Gets Decode.type d t.nodes t := by
  have hget : w.Gets (fun decode => childOf decode .type asType?) d (Node.type t).nodes t :=
    h.gets rfl
  exact h.gets_unnamed hget fun _ _ _ _ hvalue => by simp only [Decode.type, hvalue]

theorem gets_named {kind : NodeKind} {m : Mark} {name : String}
    {get : (Entries → Decoder Node) → Entries → String → Decoder α} (make : Mark → α) {b : Node}
    (hname : ∀ decode es key, value es key = .text name →
      get decode es key = fresh >>= fun id => Pure.pure (make ⟨id, {}⟩))
    (hnode : w.Gets get (node kind m [("name", .text name)]) [b] (make m)) (hmark : b.mark = m) :
    w.Gets get (w.named kind m name) [b] (make m) := by
  unfold named
  split
  · rename_i hbare
    have hspan : m.span = {} := by simpa [Span.known] using hbare.2
    refine ⟨nofun, fun depth es key hvalue _ => ?_⟩
    rw [hname _ es key hvalue]
    refine Yields.last (.fresh b) ?_
    rw [hmark, ← hspan]
  · exact hnode

theorem gets_type : ∀ t : TypeExpr, w.Gets Decode.type (w.type t) t.nodes t
  | .simple m name =>
    gets_named (fun m => TypeExpr.simple m name)
      (fun _ _ _ hvalue => by simp only [Decode.type, hvalue])
      (decodes_node (fun m => .type (.simple m name))
        (fun _ _ h _ => .pure (by rw [h.text "name" (t := name)])) rfl rfl).type rfl
  | .array m element =>
    (decodes_node (fun m => .type (.array m element))
      (fun _ _ h _ => (h.child "element" (gets_type element)).last) rfl rfl).type

theorem gets_target (r : Reference) :
    w.Gets Decode.reference (w.named .reference r.mark r.name) [r.node] r :=
  gets_named (fun m => (⟨m, r.name⟩ : Reference))
    (fun _ _ _ hvalue => by simp only [Decode.reference, hvalue])
    (decodes_node (fun m => .expression (.reference ⟨m, r.name⟩))
      (fun _ _ h _ => .pure (by rw [h.text "name" (t := r.name)]))
      (by simp [Node.nodes, Expr.nodes]) rfl).reference rfl

/-! The entries of the lists. -/

theorem decodesAll_nil {get : (Entries → Decoder Node) → List Document → Decoder (List α)}
    (hget : ∀ decode, get decode [] = Pure.pure [] := by intro _; rfl) :
    w.DecodesAll get [] [] [] := fun _ _ => by
  rw [hget]
  exact .pure rfl

theorem depth_of_cons {d : Document} {ds : List Document} {depth : Nat}
    (h : Document.depthList (d :: ds) ≤ depth) :
    d.depth ≤ depth ∧ Document.depthList ds ≤ depth := by
  rw [Document.depthList] at h
  omega

theorem Decodes.cons_expressions {d : Document} {e : Expr} {ds : List Document} {es : List Expr}
    (h : w.Decodes d (.expression e))
    (hall : w.DecodesAll Decode.expressions ds (Expr.nodesOfList es) es) :
    w.DecodesAll Decode.expressions (d :: ds) (Expr.nodesOfList (e :: es)) (e :: es) := by
  obtain ⟨inner, rfl, hnode⟩ := h
  intro depth hdepth
  obtain ⟨hfirst, hrest⟩ := depth_of_cons hdepth
  rw [Decode.expressions, Expr.nodesOfList]
  exact (hnode depth hfirst).bind (hall depth hrest).last

theorem Decodes.cons_statements {d : Document} {s : Stmt} {ds : List Document} {ss : List Stmt}
    (h : w.Decodes d (.statement s))
    (hall : w.DecodesAll Decode.statements ds (Stmt.nodesOfList ss) ss) :
    w.DecodesAll Decode.statements (d :: ds) (Stmt.nodesOfList (s :: ss)) (s :: ss) := by
  obtain ⟨inner, rfl, hnode⟩ := h
  intro depth hdepth
  obtain ⟨hfirst, hrest⟩ := depth_of_cons hdepth
  rw [Decode.statements, Stmt.nodesOfList]
  exact (hnode depth hfirst).bind (hall depth hrest).last

theorem holds_entry (kind : NodeKind) {m : Mark} {fields : Entries} (h : Plain fields) :
    ∃ inner, w.entry kind m fields = .mapping inner ∧ Holds inner m fields ∧
      withType inner kind = entries kind m fields ∧
      (Document.mapping inner).depth = (node kind m fields).depth := by
  refine ⟨_, rfl, ?_⟩
  by_cases himplied : w.implied m
  · simp only [himplied, if_true]
    refine ⟨holds_place h, ?_, ?_⟩
    · simp [withType, Document.lookup_append, lookup_place, h.type, entries]
    · simp [node, entries, Document.depth, Document.depthEntries]
  · simp only [himplied]
    refine ⟨holds_entries kind h, ?_, rfl⟩
    simp [withType, Document.lookup, entries]

theorem plain_annotated (name : String) (t : TypeExpr) : Plain (w.annotated name t) := by
  constructor <;> simp [annotated, Document.lookup]

theorem Inside.annotated {depth : Nat} {es : Entries} {m : Mark} {name : String} {t : TypeExpr}
    (h : Inside depth es m (w.annotated name t)) :
    Decode.text es "name" = name ∧
      w.Yields (Decode.type (Decode.node depth) es "annotation") t.nodes t :=
  ⟨h.text "name" (by simp [Style.annotated, Document.lookup]),
    h.child "annotation" (gets_type t) (by simp [Style.annotated, Document.lookup])⟩

theorem decodes_parameter (p : Parameter) :
    w.Decodes (node .parameter p.mark (w.annotated p.name p.type)) (.parameter p) :=
  decodes_node (fun m => .parameter ⟨m, p.name, p.type⟩)
    (fun _ _ h _ => h.annotated.2.last (by rw [h.annotated.1])) rfl rfl (plain_annotated ..)

theorem decodes_parameters (ps : List Parameter) :
    w.DecodesAll Decode.parameters (ps.map w.parameter) (ps.flatMap Parameter.nodes) ps := by
  induction ps with
  | nil => exact decodesAll_nil
  | cons p ps ih =>
    intro depth hdepth
    obtain ⟨hfirst, hrest⟩ := depth_of_cons hdepth
    obtain ⟨inner, hinner, -, htype, hsame⟩ := holds_entry (w := w) .parameter
      (m := p.mark) (plain_annotated (w := w) p.name p.type)
    obtain ⟨es, hes, hnode⟩ := decodes_parameter (w := w) p
    obtain rfl : entries _ _ _ = es := by simpa [node] using hes
    rw [parameter, hinner, hsame] at hfirst
    rw [List.map_cons, parameter, hinner, Decode.parameters, htype, List.flatMap_cons]
    exact (hnode depth hfirst).bind (ih depth hrest).last

/-- The entries of a field list are decoded as fields whatever kind they have. -/
theorem decodes_fields (fs : List FieldDecl) :
    w.DecodesAll Decode.fields (fs.map w.field) (fs.flatMap FieldDecl.nodes) fs := by
  induction fs with
  | nil => exact decodesAll_nil
  | cons f fs ih =>
    intro depth hdepth
    obtain ⟨hfirst, hrest⟩ := depth_of_cons hdepth
    obtain ⟨inner, hinner, hholds, -⟩ := holds_entry (w := w) .fieldDeclaration
      (m := f.mark) (plain_annotated (w := w) f.name f.type)
    rw [field, hinner] at hfirst
    rw [List.map_cons, field, hinner, Decode.fields, List.flatMap_cons, FieldDecl.nodes]
    have h : Inside depth inner f.mark _ := ⟨hholds, Nat.le_succ_of_le hfirst⟩
    have hspan : lenientSpan inner = f.mark.span := by
      rw [lenientSpan, h.span]
      rfl
    have hnumber : w.Yields Decode.fresh [.field f] f.mark.id := .fresh (.field f)
    refine hnumber.bind (h.annotated.2.bind ((ih depth hrest).last ?_))
    rw [hspan, h.annotated.1]

end Style

end LogicScript
