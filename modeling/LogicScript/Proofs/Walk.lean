import Mathlib.Data.List.Nodup
import LogicScript.Proofs.Visits

/-! The analysis of a whole program.

First the outermost scope is opened, then the program is walked, and in the end the postponed names
are resolved. The walk comes to every statement, expression and parameter of the program. -/
namespace LogicScript

open Analysis

namespace Analysis

variable {all : List Node} {s : State}

theorem Step.enterAll {I : Share} (i : ScopeId) {ds : List Decl}
    (hds : ∀ d ∈ ds, d.isBuiltin = true) : Step all I s (s.after (enterAll i ds)) := by
  induction ds generalizing s with
  | nil => exact .refl s
  | cons d ds ih =>
    have henter : Adds all I i d s (s.after (enter i d.name d)) := .enter i d.name d
    have hrest := ih (s := s.after (enter i d.name d)) fun d hd => hds d (List.mem_cons_of_mem _ hd)
    refine ⟨henter.toKept.trans hrest.toKept, fun he => ?_⟩
    rcases hrest.entries he with hold | hnew
    · refine (henter.only hold).imp_right ?_
      rintro ⟨-, rfl⟩
      exact .inl (hds _ List.mem_cons_self)
    · exact .inr hnew

/-- What resolving the postponed names does. -/
def settles (qs : List Pending) : Share := fun duty id =>
  (duty = .scope ∨ duty = .decl) ∧ ∃ q ∈ qs, q.mark.id = id

/-- A node has the declaration that its name is resolved to. -/
def Settled (scopes : Scopes) (q : Pending) (a : Attributes) : Prop :=
  ∃ d owner, scopes.find q.scope q.name = some (d, owner) ∧ a.decl = some d ∧ a.scope = some owner

theorem settle_files (q : Pending) : Ends s (settle q) fun s' _ =>
    Plain all (settles [q]) s s' ∧ s'.table.scopes = s.table.scopes ∧
    ∀ id, s'.table.attributes id = s.table.attributes id ∨
      q.mark.id = id ∧ Settled s.table.scopes q (s'.table.attributes id) := by
  have hfind : Ends s (find q.scope q.name) fun s' found =>
      s' = s ∧ found = s.table.scopes.find q.scope q.name := ⟨rfl, rfl⟩
  refine hfind.bind ?_
  rintro s₁ found ⟨rfl, hfound⟩
  have hstay : Ends s₁ (pure () : Pass Unit) fun s' _ =>
      Plain all (settles [q]) s₁ s' ∧ s'.table.scopes = s₁.table.scopes ∧
      ∀ id, s'.table.attributes id = s₁.table.attributes id ∨
        q.mark.id = id ∧ Settled s₁.table.scopes q (s'.table.attributes id) :=
    ⟨.refl s₁, rfl, fun _ => .inl rfl⟩
  cases found with
  | none => exact hstay
  | some pair =>
    obtain ⟨d, owner⟩ := pair
    have hown : ∀ duty, duty = .scope ∨ duty = .decl → settles [q] duty q.mark.id :=
      fun _ hduty => ⟨hduty, q, List.mem_singleton_self q, rfl⟩
    have hfile : Ends s₁ (setDecl q.mark d >>= fun _ => setScope q.mark owner) fun s' _ =>
        Plain all (settles [q]) s₁ s' ∧ s'.table.scopes = s₁.table.scopes ∧
        ∀ id, s'.table.attributes id = s₁.table.attributes id ∨
          q.mark.id = id ∧ Settled s₁.table.scopes q (s'.table.attributes id) := by
      refine ⟨.trans (.setDecl (hown _ (.inr rfl))) (.setScope (hown _ (.inl rfl))), rfl,
        fun id => ?_⟩
      have hset : ((s₁.after (setDecl q.mark d)).after (setScope q.mark owner)).table.attributes id =
          ((s₁.table.setDecl q.mark.id d).setScope q.mark.id owner).attributes id := rfl
      by_cases hid : q.mark.id = id
      · subst hid
        refine .inr ⟨rfl, d, owner, hfound.symm, ?_, ?_⟩
        · exact (Table.decl_setScope ..).trans (Table.decl_setDecl_self ..)
        · exact Table.scope_setScope_self ..
      · refine .inl (hset.trans ?_)
        rw [Table.setScope, Table.attributes_update, if_neg hid, Table.setDecl,
          Table.attributes_update, if_neg hid]
    dsimp only
    split
    all_goals
      split
      · exact hfile
      · exact hstay

theorem settleAll_files (qs : List Pending) : Ends s (settleAll qs) fun s' _ =>
    Plain all (settles qs) s s' ∧ s'.table.scopes = s.table.scopes ∧
    ∀ id, s'.table.attributes id = s.table.attributes id ∨
      ∃ q ∈ qs, q.mark.id = id ∧ Settled s.table.scopes q (s'.table.attributes id) := by
  induction qs generalizing s with
  | nil => exact ⟨.refl s, rfl, fun _ => .inl rfl⟩
  | cons q qs ih =>
    refine (settle_files q : Ends s _ fun s' _ => Plain all _ s s' ∧ _).bind fun s₁ _ h₁ => ?_
    obtain ⟨hplain, hscopes, hattr⟩ : Plain all _ s₁ _ ∧ _ := ih (s := s₁)
    refine ⟨(h₁.1.mono ?_).trans (hplain.mono ?_), hscopes.trans h₁.2.1, fun id => ?_⟩
    · rintro _ _ ⟨hduty, q', hq', hid⟩
      exact ⟨hduty, q', by rw [List.mem_singleton.mp hq']; exact List.mem_cons_self, hid⟩
    · rintro _ _ ⟨hduty, q', hq', hid⟩
      exact ⟨hduty, q', List.mem_cons_of_mem _ hq', hid⟩
    · rcases hattr id with hold | ⟨q', hq', hid, hsettled⟩
      · rw [hold]
        rcases h₁.2.2 id with hold' | ⟨hid, hsettled⟩
        · exact .inl hold'
        · exact .inr ⟨q, List.mem_cons_self, hid, hsettled⟩
      · rw [h₁.2.1] at hsettled
        exact .inr ⟨q', List.mem_cons_of_mem _ hq', hid, hsettled⟩

end Analysis

namespace Program

variable {p : Program}

/-- The state in which the analysis ends. -/
def settled (p : Program) : State := p.walked.after (settleAll p.walked.pending)

theorem analyze_eq (p : Program) : analyze p = (p.settled.table, p.settled.issues) := by
  have hafter : analyze p = ((({} : State).after (Analysis.program p)).table,
      (({} : State).after (Analysis.program p)).issues) := by
    unfold analyze StateT.run
    with_reducible rfl
  rw [hafter, after_program]
  rfl

theorem settled_sound (hp : p.Numbered) : p.settled.Sound (· ∈ p.functions) := by
  have hdoes := (Does.program hp (sound_empty _)).1
  rwa [show (Analysis.program p {}).2 = p.settled from after_program p] at hdoes

/-- What is done before the walk begins. -/
structure Opened (p : Program) (s : State) : Prop where
  step : Step p.nodes ((Share.one .scope p.mark.id).or (hoists p.statements)) {} s
  size : 0 < s.table.scopes.all.size
  root : (s.table.attributes p.mark.id).scope = some 0
  hoisted : ∀ st ∈ p.statements, isHoisted st = true →
    (s.table.attributes st.ref.mark.id).scope = some 0

theorem opening_files (hp : p.Numbered) : Ends {} p.opening fun s' _ => p.Opened s' := by
  have hd : Distinct ([.program p] ++ Stmt.nodesOfList p.statements) := hp
  have hstatements : Distinct (Stmt.nodesOfList p.statements) := (List.nodup_cons.mp hp).2
  have hmem : ∀ st ∈ p.statements, .statement st ∈ p.nodes := fun st hst =>
    List.mem_cons_of_mem _ (Stmt.mem_nodesOfList.mpr ⟨st, hst, st.self_mem_nodes⟩)
  have hapart : ¬ hoists p.statements .scope p.mark.id := fun hh =>
    hd.apart p.mark.id ⟨_, List.mem_singleton_self _, rfl⟩ (hoists_within _ _ _ hh).marks
  have hopen : Ends {} (openScope ⟨.root, p.mark⟩ none) fun s' root => root = 0 ∧
      0 < s'.table.scopes.all.size ∧ Plain p.nodes (.one .scope p.mark.id) {} s' := by
    obtain ⟨hroot, hsize, hplain⟩ := openScope_fresh p.nodes (.one .scope p.mark.id) (s := {})
      ⟨.root, p.mark⟩ none
    exact ⟨hroot, Nat.lt_of_le_of_lt (Nat.zero_le _) hsize, hplain⟩
  refine hopen.bind ?_
  rintro s₁ root ⟨rfl, hsize, h₁⟩
  have hset : Ends s₁ (setScope p.mark 0) fun s' _ => Plain p.nodes (.one .scope p.mark.id) {} s' ∧
      0 < s'.table.scopes.all.size ∧ (s'.table.attributes p.mark.id).scope = some 0 :=
    ⟨h₁.trans (.setScope (Share.one_self ..)), hsize, Table.scope_setScope_self ..⟩
  refine hset.bind fun s₂ _ h₂ => ?_
  have henter : Ends s₂ (enterAll 0 builtins) fun s' _ => Step p.nodes (fun _ _ => False) s₂ s' := by
    refine Step.enterAll 0 fun d hd => ?_
    revert d
    decide
  refine henter.bind fun s₃ _ h₃ => ?_
  have hstep : Step p.nodes (.one .scope p.mark.id) {} s₃ :=
    h₂.1.step.trans h₃ (fun _ _ h => h) (fun _ _ h => h.elim) fun _ _ _ h => h
  have hscope : (s₃.table.attributes p.mark.id).scope = some 0 :=
    (h₃.scope fun h => h).trans h₂.2.2
  have hhoist : Ends s₃ (hoist p.statements 0) fun s' _ =>
      Step p.nodes (hoists p.statements) s₃ s' ∧ ∀ st ∈ p.statements, isHoisted st = true →
        (s'.table.attributes st.ref.mark.id).scope = some 0 :=
    Step.hoist (hoists_nodup hstatements) hmem
  refine hhoist.bind fun s₄ _ h₄ => ⟨?_, ?_, (h₄.1.scope hapart).trans hscope, h₄.2⟩
  · refine hstep.trans h₄.1 (fun _ _ h => .inl h) (fun _ _ h => .inr h) ?_
    rintro _ _ ⟨rfl, rfl⟩
    exact hapart
  · exact Nat.lt_of_lt_of_le h₂.2.1 (Nat.le_trans h₃.size h₄.1.size)

theorem known_empty (all : List Node) : ({} : State).Known all := by
  intro i name d h
  have hempty : ({} : State).table.scopes.findLocal i name = none := rfl
  rw [hempty] at h
  cases h

theorem opened_opened (hp : p.Numbered) : p.Opened p.opened := opening_files hp

theorem walk_trace (hp : p.Numbered) :
    Trace p.nodes (stmtsShare p.statements) p.opened p.walked p.visits := by
  have hopen := opened_opened hp
  refine Trace.statements p.statements ⟨(List.nodup_cons.mp hp).2, List.subset_cons_self .., ?_,
    hopen.size⟩
  exact hopen.step.known (known_empty _)

theorem opening_apart (hp : p.Numbered) :
    ((Share.one .scope p.mark.id).or (hoists p.statements)).Apart (stmtsShare p.statements) := by
  have hd : Distinct ([.program p] ++ Stmt.nodesOfList p.statements) := hp
  refine Share.Apart.or_left ?_ (hoists_apart (List.nodup_cons.mp hp).2)
  rintro _ _ ⟨rfl, rfl⟩ h
  exact hd.apart p.mark.id ⟨_, List.mem_singleton_self _, rfl⟩ (stmtsShare_within _ _ _ h).marks

theorem trace (hp : p.Numbered) :
    Trace p.nodes (files p.nodes) {} p.walked p.visits := by
  have hbelow : (files (Stmt.nodesOfList p.statements)).Within (files p.nodes) := fun _ _ =>
    files_mono (List.subset_cons_self ..)
  refine (Trace.of_step (opened_opened hp).step).append (walk_trace hp) (opening_apart hp) ?_
    ((stmtsShare_within _).trans hbelow)
  refine Share.Within.or (Share.one_le ?_) ((hoists_within _).trans hbelow)
  exact files_self (n := .program p) List.mem_cons_self rfl

theorem follows (hp : p.Numbered) {v w : Visit} (hv : v ∈ p.visits) (hw : w ∈ p.visits) :
    v = w ∨ Trails p.nodes v w ∨ Trails p.nodes w v := by
  obtain ⟨i, hi, rfl⟩ := List.mem_iff_getElem.mp hv
  obtain ⟨j, hj, rfl⟩ := List.mem_iff_getElem.mp hw
  have hordered := List.pairwise_iff_getElem.mp (trace hp).ordered
  rcases Nat.lt_trichotomy i j with hlt | rfl | hlt
  · exact .inr (.inl (hordered i j hi hj hlt))
  · exact .inl rfl
  · exact .inr (.inr (hordered j i hj hi hlt))

theorem Numbered.eq (hp : p.Numbered) {n n' : Node} (hn : n ∈ p.nodes) (hn' : n' ∈ p.nodes)
    (h : n.mark.id = n'.mark.id) : n = n' :=
  List.inj_on_of_nodup_map hp hn hn' h

theorem pending_logic (hp : p.Numbered) {q : Pending} (hq : q ∈ p.walked.pending) :
    ∃ g, .expression (.logic g) ∈ p.nodes ∧ g.mark.id = q.mark.id := by
  rcases (trace hp).step.postponed q hq with hold | ⟨n, hn, hid, hduty⟩
  · cases hold
  · cases n with
    | expression e =>
      cases e with
      | logic g => exact ⟨g, hn, hid⟩
      | _ => cases hduty
    | statement st => cases st <;> cases hduty
    | _ => cases hduty

/-- Resolving the postponed names changes nothing that was filed on the walk. -/
theorem settles_apart (hp : p.Numbered) :
    (files p.nodes).Apart (settles p.walked.pending) := by
  rintro duty id ⟨n, hn, rfl, hduty⟩ ⟨hkind, q, hq, hid⟩
  obtain ⟨g, hg, hgid⟩ := pending_logic hp hq
  have hsame : n = .expression (.logic g) := hp.eq hn hg (by rw [hid.symm, ← hgid]; rfl)
  subst hsame
  rcases hkind with rfl | rfl <;> cases hduty

theorem settled_files (p : Program) (all : List Node) :
    Plain all (settles p.walked.pending) p.walked p.settled ∧
    p.settled.table.scopes = p.walked.table.scopes ∧
    ∀ id, p.settled.table.attributes id = p.walked.table.attributes id ∨
      ∃ q ∈ p.walked.pending, q.mark.id = id ∧
        Settled p.settled.table.scopes q (p.settled.table.attributes id) := by
  obtain ⟨hplain, hscopes, hattributes⟩ : Plain all _ p.walked _ ∧ _ :=
    settleAll_files p.walked.pending
  refine ⟨hplain, hscopes, fun id => (hattributes id).imp_right ?_⟩
  rintro ⟨q, hq, hid, hsettled⟩
  exact ⟨q, hq, hid, hscopes ▸ hsettled⟩

/-- What was done before a visit and what was done after it, up to the end of the analysis. -/
theorem between (hp : p.Numbered) {v : Visit} (hv : v ∈ p.visits) :
    ∃ I J, Between p.nodes (fun _ _ => True) I J {} p.settled v := by
  obtain ⟨I, J, hb⟩ := (trace hp).met v hv
  have hsettle := (settled_files p p.nodes).1
  have hapart := settles_apart hp
  refine ⟨I, J.or (settles p.walked.pending), hb.before, ?_, hb.past, ?_, ?_, fun _ _ _ => trivial,
    fun _ _ _ => trivial, fun _ _ _ => trivial, hb.there, hb.known, hb.inside, hb.distinct⟩
  · exact (hb.after.mono fun _ _ h => .inl h).trans (hsettle.toKept.mono fun _ _ h => .inr h)
  · exact hb.future.or_right (hapart.mono hb.within (.refl _))
  · exact hb.apart.or_right (hapart.mono hb.past_within (.refl _))

/-! Every node that the analysis attributes is visited. -/

end Program

/-- Whether the analysis comes to a node. -/
def Node.isVisited : Node → Bool
  | .statement _ | .expression _ | .parameter _ => true
  | _ => false

/-- The visits come to all of the nodes that the analysis comes to. -/
def Covers (vs : List Visit) (nodes : List Node) : Prop :=
  ∀ n ∈ nodes, n.isVisited = true → ∃ v ∈ vs, v.node = n

namespace Covers

variable {vs ws : List Visit} {nodes nodes' : List Node}

theorem nil : Covers vs [] := by
  intro n hn
  cases hn

theorem append (h : Covers vs nodes) (h' : Covers ws nodes') :
    Covers (vs ++ ws) (nodes ++ nodes') := by
  intro n hn hvisited
  rcases List.mem_append.mp hn with hn | hn
  · obtain ⟨v, hv, hnode⟩ := h n hn hvisited
    exact ⟨v, List.mem_append_left _ hv, hnode⟩
  · obtain ⟨v, hv, hnode⟩ := h' n hn hvisited
    exact ⟨v, List.mem_append_right _ hv, hnode⟩

theorem swap (h : Covers vs nodes) (h' : Covers ws nodes') : Covers (ws ++ vs) (nodes ++ nodes') := by
  intro n hn hvisited
  obtain ⟨v, hv, hnode⟩ := h.append h' n hn hvisited
  exact ⟨v, by simpa [or_comm] using hv, hnode⟩

theorem cons (i : ScopeId) (s : State) (n : Node) (h : Covers vs nodes) :
    Covers (⟨n, i, s⟩ :: vs) (n :: nodes) := by
  intro n' hn hvisited
  rcases List.mem_cons.mp hn with rfl | hn
  · exact ⟨_, List.mem_cons_self, rfl⟩
  · obtain ⟨v, hv, hnode⟩ := h n' hn hvisited
    exact ⟨v, List.mem_cons_of_mem _ hv, hnode⟩

theorem type (t : TypeExpr) : Covers vs t.nodes := by
  intro n hn hvisited
  induction t with
  | simple m name =>
    rw [List.mem_singleton.mp hn] at hvisited
    cases hvisited
  | array m element ih =>
    rcases List.mem_cons.mp hn with rfl | hn
    · cases hvisited
    · exact ih hn

theorem typeOption (t : Option TypeExpr) : Covers vs ((t.map TypeExpr.nodes).getD []) := by
  cases t with
  | none => exact nil
  | some t => exact type t

theorem skip (h : Covers vs nodes') (hskip : Covers [] nodes) : Covers vs (nodes ++ nodes') :=
  hskip.append h

mutual

theorem expression (e : Expr) (i : ScopeId) (s : State) : Covers (e.visits i s) e.nodes := by
  match e with
  | .int _ _ | .float _ _ | .string _ _ | .bool _ _ | .null _ | .reference _ | .constructor _ _ =>
    exact nil.cons i s _
  | .array _ elements => exact (expressions elements i s).cons i s _
  | .field _ stem _ => exact (expression stem i s).cons i s _
  | .index _ array index => exact ((expression array i s).append (expression index i _)).cons i s _
  | .call _ callee arguments =>
    exact ((expression callee i s).append (expressions arguments i _)).cons i s _
  | .not _ operand => exact (expression operand i s).cons i s _
  | .binary _ _ left right => exact ((expression left i s).append (expression right i _)).cons i s _
  | .assign _ target value => exact ((expression target i _).swap (expression value i s)).cons i s _
  | .paren _ inner => exact (expression inner i s).cons i s _
  | .query _ target question => exact ((expression question i _).cons i s _).cons i s _
  | .placeholder _ _ t => exact (type t).cons i s _
  | .logic goal => exact logic goal i s

theorem expressions (es : List Expr) (i : ScopeId) (s : State) :
    Covers (Expr.visitsOfList es i s) (Expr.nodesOfList es) := by
  match es with
  | [] => exact nil
  | e :: es => exact (expression e i s).append (expressions es i _)

theorem logic (g : Goal) (i : ScopeId) (s : State) : Covers (g.visits i s) g.nodes := by
  match g with
  | .atom _ _ => exact nil.cons i s _
  | .call _ _ arguments => exact (expressions arguments i s).cons i s _
  | .paren _ inner => exact (logic inner i s).cons i s _
  | .not _ operand => exact (logic operand i s).cons i s _
  | .binary _ _ left right => exact ((logic left i s).append (logic right i _)).cons i s _

end

theorem parameters (ps : List Parameter) (i : ScopeId) (s : State) :
    Covers (Parameter.visitsOfList ps i s) (ps.flatMap Parameter.nodes) := by
  induction ps generalizing s with
  | nil => exact nil
  | cons p ps ih =>
    have hrest := ih (s.after (parameter p i))
    exact (hrest.skip (type p.type)).cons i s (.parameter p)

theorem fields (fs : List FieldDecl) : Covers vs (fs.flatMap FieldDecl.nodes) := by
  intro n hn hvisited
  obtain ⟨f, -, hn⟩ := List.mem_flatMap.mp hn
  rcases List.mem_cons.mp hn with rfl | hn
  · cases hvisited
  · exact type f.type n hn hvisited

theorem varDecl (d : VarDecl) (i : ScopeId) (s : State) : Covers (d.visits i s) d.nodes := by
  obtain ⟨m, name, t, initializer⟩ := d
  refine (skip ?_ (typeOption t)).cons i s _
  cases initializer with
  | none => exact nil
  | some e => exact expression e i s

mutual

theorem statement (st : Stmt) (i : ScopeId) (s : State) : Covers (st.visits i s) st.nodes := by
  match st with
  | .block ⟨_, body⟩ => exact (statements body _ _).cons i s _
  | .function ⟨m, _, params, returnType, ⟨_, body⟩⟩ =>
    have hparams := parameters params (openFunction m params returnType i s).1
      (s.after (openFunction m params returnType i))
    have hreturn : Covers [] ((returnType.map TypeExpr.nodes).getD []) := typeOption returnType
    have hhead := hparams.append hreturn
    rw [List.append_nil] at hhead
    exact (hhead.append ((statements body _ _).cons _ _ _)).cons i s _
  | .cond _ condition yes none =>
    exact ((expression condition i s).append (statement yes i _)).cons i s _
  | .cond _ condition yes (some no) =>
    exact (((expression condition i s).append (statement yes i _)).append
      (statement no i _)).cons i s _
  | .loop _ condition body =>
    exact ((expression condition i s).append (statement body i _)).cons i s _
  | .var d => exact varDecl d i s
  | .fact d => exact (expressions d.arguments i s).cons i s _
  | .rule d => exact ((parameters d.parameters _ _).append (logic d.body _ _)).cons i s _
  | .expr _ e => exact (expression e i s).cons i s _
  | .ret _ (some e) => exact (expression e i s).cons i s _
  | .ret _ none => exact nil.cons i s _
  | .atom _ => exact nil.cons i s _
  | .struct d => exact (fields d.fields).cons i s _
  | .unify _ left right => exact ((logic left.goal i s).append (logic right.goal i _)).cons i s _

theorem statements (ss : List Stmt) (i : ScopeId) (s : State) :
    Covers (Stmt.visitsOfList ss i s) (Stmt.nodesOfList ss) := by
  match ss with
  | [] => exact nil
  | st :: rest => exact (statement st i s).append (statements rest i _)

end

end Covers

/-- Every statement, expression and parameter of a program is visited. -/
theorem Program.visited (p : Program) {n : Node} (hn : n ∈ p.nodes) (h : n.isVisited = true) :
    ∃ v ∈ p.visits, v.node = n := by
  rcases List.mem_cons.mp hn with rfl | hn
  · cases h
  · exact Covers.statements p.statements 0 p.opened n hn h

end LogicScript
