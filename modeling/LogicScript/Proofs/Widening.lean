import LogicScript.Proofs.Preservation.Statements

/-! No Int is met where a Float is expected.

Each slot of static type Float is written through `Value.widen`. So an Int can only be met under the
type Float where an array, a struct or a function is known under two types, or a placeholder by one
name has two. Everywhere else, an observer that objects to such Ints is never noticed. -/
namespace LogicScript

open Eval

/-- If there is a value, it is no Int where a Float is expected and the type is certain. -/
def Moment.Widened (p : Program) (t : Table) (view : Ty.View) : Moment → Prop
  | .expression _ e (some v) => t.typeOf e.mark = .float → e.Certain p t view → v.kind ≠ .int
  | _ => True

/-- Stops a run as soon as an expression of static type Float is an Int. -/
def Observer.floating (t : Table) : Observer
  | _, .expression _ e (some v), _ =>
    if t.typeOf e.mark = .float ∧ v.kind = .int then some ⟨.notCallable v.kind, some e.ref⟩ else none
  | _, _, _ => none

/-- An observer who has no objection to the beginning and none to such results is not noticed. -/
theorem Eval.Respects.unnoticed {α : Type} {p : Program} {t : Table} {view : Ty.View} {w : World}
    {m : Machine} {x y : Eval α} {o : Option α → Machine → Option Fault} {P : World → α → Prop}
    (h : Respects p t view w m x y P) (hbegin : ∀ m, o none m = none)
    (hend : ∀ w a m, P w a → o (some a) m = none) : Respects p t view w m (watched o x) y P := by
  have hcheck : ∀ a m, o a m = none → check (o a) m = .ok () m := by
    intro a m ho
    unfold check
    rw [ho]
  intro hm
  obtain ⟨hxy, hy⟩ := h hm
  refine ⟨?_, hy⟩
  have hwatched : watched o x m = (x >>= fun a => check (o (some a)) >>= fun _ => Pure.pure a) m :=
    bind_of_ok (hcheck none m (hbegin m))
  rw [hwatched]
  cases r : y m with
  | error halt m' => exact bind_of_error (hxy.trans r)
  | ok a m' =>
    obtain ⟨w', -, -, ha⟩ := hy a m' r
    rw [bind_of_ok (hxy.trans r)]
    exact bind_of_ok (hcheck (some a) m' (hend w' a m' ha))

namespace Program

variable {p : Program} {ctx : Context} {view : Ty.View} {sub sub' : Evaluator}

namespace Preserves

theorem exhausted {t : Table} : p.Preserves t view Eval.exhausted Eval.exhausted :=
  ⟨fun _ _ _ _ _ => .throw, fun _ _ _ _ _ _ _ => .throw, fun _ _ _ _ _ _ _ => .throw,
    fun _ _ _ _ _ _ _ _ _ => .throw, fun _ _ _ _ _ _ => .throw⟩

theorem step (hs : p.Settles ctx.table) (h : p.Preserves ctx.table view sub sub') :
    p.Preserves ctx.table view (Eval.step ctx sub) (Eval.step ctx sub') where
  expression _ _ _ _ he := h.expression_step hs he
  blank _ _ _ _ _ he hblank := h.blank_step he hblank
  statement _ _ _ _ _ hst hr := h.statement_step hs hst hr
  rounds _ _ _ _ _ _ hc hb hr := h.rounds_step hc hb hr
  resolve _ _ _ _ _ hg := h.resolve_step hs hg

/-- An observer who objects to Ints under the type Float only is not noticed. -/
theorem watch {t : Table} {o : Moment → Machine → Option Fault} (h : p.Preserves t view sub sub')
    (ho : ∀ moment m, moment.Widened p t view → o moment m = none) :
    p.Preserves t view (sub.watch o) sub' where
  expression w m env e he := (h.expression w m env e he).unnoticed
    (o := fun v => o (.expression env e v)) (fun m => ho _ m trivial) fun w' v m' hv => by
      refine ho _ m' fun hfloat hcertain => ?_
      have hconforms := hv.conforms hcertain
      rw [Table.seen, hfloat, Ty.seen_prim] at hconforms
      exact hconforms
  blank w m env e element he hblank := (h.blank w m env e element he hblank).unnoticed
    (o := fun v => o (.expression env e v)) (fun m => ho _ m trivial) fun w' v m' hv =>
      ho _ m' fun _ _ => by simp [hv.1]
  statement w m env st result hst hr := (h.statement w m env st result hst hr).unnoticed
    (o := fun done => o (.statement env st done)) (fun m => ho _ m trivial)
    fun _ _ m' _ => ho _ m' trivial
  rounds w m env condition body result hc hb hr :=
    (h.rounds w m env condition body result hc hb hr).unnoticed
      (o := fun done => o (.rounds env condition body done)) (fun m => ho _ m trivial)
      fun _ _ m' _ => ho _ m' trivial
  resolve w m env depth goal hg := (h.resolve w m env depth goal hg).unnoticed
    (o := fun answer => o (.goal env depth goal answer)) (fun m => ho _ m trivial)
    fun _ _ m' _ => ho _ m' trivial

theorem observed (hs : p.Settles ctx.table) {o : Observer}
    (ho : ∀ level moment m, moment.Widened p ctx.table view → o level moment m = none)
    (fuel level : Nat) :
    p.Preserves ctx.table view (Eval.observed ctx o fuel level) (Eval.evaluator ctx fuel) := by
  induction fuel generalizing level with
  | zero => exact exhausted
  | succ fuel ih => exact ((ih (level + 1)).step hs).watch (ho level)

theorem runBy (h : p.Preserves ctx.table view sub sub') : p.runBy ctx sub = p.runBy ctx sub' := by
  unfold Program.runBy
  cases (ctx.table.attributes p.mark.id).scope with
  | none => rfl
  | some scope =>
    have hstatements : Respects p ctx.table view [] (({} : Machine).push scope).2
        (Eval.statements sub [0] p.statements) (Eval.statements sub' [0] p.statements)
        fun w' done => done.Conforms p ctx.table view w' .int := by
      refine h.statements (fun st hst n hn => ?_) fun _ e _ hshared => nomatch hshared
      exact List.mem_cons_of_mem _ (Stmt.mem_nodesOfList.mpr ⟨st, hst, hn⟩)
    have hexecute : p.execute sub 0 (({} : Machine).push scope).2 =
        p.execute sub' 0 (({} : Machine).push scope).2 :=
      (hstatements.bind fun _ _ _ _ _ => Respects.display.bind fun _ _ _ _ _ =>
        Respects.log.bind fun _ _ _ _ _ => .pure trivial) ((Machine.Typed.empty p ctx.table).push scope)
        |>.1
    dsimp only [Machine.push, Array.size_empty] at hexecute ⊢
    rw [hexecute]

end Preserves

theorem settles (hp : p.Numbered) (hissues : (analyze p).2 = []) : p.Settles (analyze p).1 := by
  have hsettled : (analyze p).1 = p.settled.table ∧ p.settled.issues = [] := by
    rw [analyze_eq] at hissues ⊢
    exact ⟨rfl, hissues⟩
  have hfunctions : ∀ id d, ((analyze p).1.attributes id).decl = some (.function d) →
      d ∈ p.functions := fun _ _ h => functions_known hp h
  rw [hsettled.1] at hfunctions ⊢
  exact ⟨hp, typed hp hsettled.2, attributed hp hsettled.2, hfunctions⟩

/-- In a run of an accepted program, the value of an expression of static type Float is never an Int,
unless it comes from an object, from a function that is itself a value, or from a placeholder whose
name has several types. If arrays, structs and functions are stored only where their own type is
expected, but for arrays of Ints among arrays of Floats, then it is no Int either when it comes from a
field or a function; and if there are no such arrays, then not even when it comes from an array. -/
theorem floats_widened (hp : p.Numbered) (hissues : (analyze p).2 = []) (view : Ty.View)
    (maxDepth : Nat) :
    p.Always ⟨(analyze p).1, maxDepth⟩ fun moment _ => moment.Widened p (analyze p).1 view := by
  have hs := settles hp hissues
  generalize (analyze p).1 = t at hs
  intro o ho fuel
  have hobserved : p.Preserves t view (Eval.observed ⟨t, maxDepth⟩ o fuel 0)
      (Eval.evaluator ⟨t, maxDepth⟩ fuel) := @Preserves.observed p ⟨t, maxDepth⟩ view hs o ho fuel 0
  exact @Preserves.runBy p ⟨t, maxDepth⟩ view _ _ hobserved

/-- Ints are given for a field, a parameter, a result, a variable and an element that are Floats, and
an array begins with null. -/
def promoting : Program where
  mark := ⟨0, {}⟩
  statements := [
    .struct ⟨⟨1, {}⟩, "P", [⟨⟨2, {}⟩, "x", .simple ⟨3, {}⟩ "Float"⟩]⟩,
    .function ⟨⟨4, {}⟩, "f", [⟨⟨5, {}⟩, "a", .simple ⟨6, {}⟩ "Float"⟩],
      some (.simple ⟨7, {}⟩ "Float"), ⟨⟨8, {}⟩, [.ret ⟨9, {}⟩ (some (.int ⟨10, {}⟩ 1))]⟩⟩,
    .var ⟨⟨11, {}⟩, "v", some (.simple ⟨12, {}⟩ "Float"), some (.int ⟨13, {}⟩ 2)⟩,
    .var ⟨⟨14, {}⟩, "a", some (.array ⟨15, {}⟩ (.simple ⟨16, {}⟩ "Float")),
      some (.array ⟨17, {}⟩ [.int ⟨18, {}⟩ 3, .reference ⟨⟨19, {}⟩, "v"⟩])⟩,
    .var ⟨⟨20, {}⟩, "p", some (.simple ⟨21, {}⟩ "P"),
      some (.call ⟨22, {}⟩ (.constructor ⟨23, {}⟩ "P") [.int ⟨24, {}⟩ 4])⟩,
    .expr ⟨25, {}⟩ (.assign ⟨26, {}⟩ (.field ⟨27, {}⟩ (.reference ⟨⟨28, {}⟩, "p"⟩) "x")
      (.int ⟨29, {}⟩ 5)),
    .expr ⟨30, {}⟩ (.assign ⟨31, {}⟩
      (.index ⟨32, {}⟩ (.reference ⟨⟨33, {}⟩, "a"⟩) (.int ⟨34, {}⟩ 1)) (.int ⟨35, {}⟩ 6)),
    .var ⟨⟨36, {}⟩, "ps", some (.array ⟨37, {}⟩ (.simple ⟨38, {}⟩ "P")),
      some (.array ⟨39, {}⟩ [.null ⟨40, {}⟩])⟩,
    .ret ⟨41, {}⟩ (some (.binary ⟨42, {}⟩ .add
      (.field ⟨43, {}⟩ (.reference ⟨⟨44, {}⟩, "p"⟩) "x")
      (.call ⟨45, {}⟩ (.reference ⟨⟨46, {}⟩, "f"⟩)
        [.index ⟨47, {}⟩ (.reference ⟨⟨48, {}⟩, "a"⟩) (.int ⟨49, {}⟩ 0)])))]

theorem promoting_widened :
    promoting.Numbered ∧ (analyze promoting).2 = [] ∧
    promoting.Consistent (analyze promoting).1 .exact ∧
    promoting.Always ⟨(analyze promoting).1, 1⟩ fun moment _ =>
      moment.Widened promoting (analyze promoting).1 .exact := by
  have hnumbered : promoting.Numbered := by
    unfold Numbered Distinct
    decide
  have hissues : (analyze promoting).2 = [] := List.isEmpty_iff.mp (by decide +kernel)
  exact ⟨hnumbered, hissues, by decide +kernel, floats_widened hnumbered hissues .exact 1⟩

/-- An array of Ints is known as an array of Floats. -/
def relabelling : Program where
  mark := ⟨0, {}⟩
  statements := [
    .var ⟨⟨1, {}⟩, "a", some (.array ⟨2, {}⟩ (.simple ⟨3, {}⟩ "Float")),
      some (.array ⟨4, {}⟩ [.int ⟨5, {}⟩ 1])⟩,
    .ret ⟨6, {}⟩ (some (.index ⟨7, {}⟩ (.reference ⟨⟨8, {}⟩, "a"⟩) (.int ⟨9, {}⟩ 0)))]

/-- A struct with an Int is known as one with a Float. -/
def disguising : Program where
  mark := ⟨0, {}⟩
  statements := [
    .struct ⟨⟨1, {}⟩, "P", [⟨⟨2, {}⟩, "x", .simple ⟨3, {}⟩ "Float"⟩]⟩,
    .struct ⟨⟨4, {}⟩, "Q", [⟨⟨5, {}⟩, "x", .simple ⟨6, {}⟩ "Int"⟩]⟩,
    .var ⟨⟨7, {}⟩, "p", some (.simple ⟨8, {}⟩ "P"),
      some (.call ⟨9, {}⟩ (.constructor ⟨10, {}⟩ "Q") [.int ⟨11, {}⟩ 1])⟩,
    .ret ⟨12, {}⟩ (some (.field ⟨13, {}⟩ (.reference ⟨⟨14, {}⟩, "p"⟩) "x"))]

/-- A function that gives an Int is known as one that gives a Float. -/
def substituting : Program where
  mark := ⟨0, {}⟩
  statements := [
    .function ⟨⟨1, {}⟩, "f", [], some (.simple ⟨2, {}⟩ "Float"),
      ⟨⟨3, {}⟩, [.ret ⟨4, {}⟩ (some (.int ⟨5, {}⟩ 1))]⟩⟩,
    .function ⟨⟨6, {}⟩, "g", [], some (.simple ⟨7, {}⟩ "Int"),
      ⟨⟨8, {}⟩, [.ret ⟨9, {}⟩ (some (.int ⟨10, {}⟩ 1))]⟩⟩,
    .var ⟨⟨11, {}⟩, "h", none, some (.reference ⟨⟨12, {}⟩, "f"⟩)⟩,
    .expr ⟨13, {}⟩ (.assign ⟨14, {}⟩ (.reference ⟨⟨15, {}⟩, "h"⟩) (.reference ⟨⟨16, {}⟩, "g"⟩)),
    .ret ⟨17, {}⟩ (some (.call ⟨18, {}⟩ (.reference ⟨⟨19, {}⟩, "h"⟩) []))]

/-- The name of a placeholder for Floats is used again for one for Ints. -/
def retyping : Program where
  mark := ⟨0, {}⟩
  statements := [
    .unify ⟨1, {}⟩ ⟨⟨2, {}⟩, "q", [.placeholder ⟨3, {}⟩ "x" (.simple ⟨4, {}⟩ "Float")]⟩
      ⟨⟨5, {}⟩, "q", [.int ⟨6, {}⟩ 1]⟩,
    .unify ⟨7, {}⟩ ⟨⟨8, {}⟩, "q", [.placeholder ⟨9, {}⟩ "x" (.simple ⟨10, {}⟩ "Int")]⟩
      ⟨⟨11, {}⟩, "q", [.int ⟨12, {}⟩ 1]⟩,
    .ret ⟨13, {}⟩ (some (.reference ⟨⟨14, {}⟩, "x"⟩))]

/-- The program is accepted, and an expression of static type Float is an Int in its run. -/
def ReadsInt (p : Program) : Prop :=
  p.Numbered ∧ (analyze p).2 = [] ∧ ¬ p.Always ⟨(analyze p).1, 1⟩ fun moment _ =>
    ∀ env e v, moment = .expression env e (some v) → (analyze p).1.typeOf e.mark = .float →
      v.kind ≠ .int

theorem readsInt_of_stopped (fuel : Nat) (hp : p.Numbered) (hissues : (analyze p).2.isEmpty = true)
    (hstopped : (p.watchedRun ⟨(analyze p).1, 1⟩ (.floating (analyze p).1) fuel).outcome.isOk = false)
    (hreturns : (p.run ⟨(analyze p).1, 1⟩ fuel).outcome.isOk = true) : p.ReadsInt := by
  refine ⟨hp, List.isEmpty_iff.mp hissues, fun h => ?_⟩
  have hsame := h (.floating (analyze p).1) (fun level moment m hmoment => ?_) fuel
  · rw [hsame, hreturns] at hstopped
    cases hstopped
  · unfold Observer.floating
    split
    · exact if_neg fun hfloat => hmoment _ _ _ rfl hfloat.1 hfloat.2
    · rfl

/-- In each of these ways an accepted program can have an Int under the type Float. -/
theorem accepted_reads_int :
    relabelling.ReadsInt ∧ disguising.ReadsInt ∧ substituting.ReadsInt ∧ retyping.ReadsInt := by
  refine ⟨readsInt_of_stopped 9 ?_ ?_ ?_ ?_, readsInt_of_stopped 9 ?_ ?_ ?_ ?_,
    readsInt_of_stopped 9 ?_ ?_ ?_ ?_, readsInt_of_stopped 9 ?_ ?_ ?_ ?_⟩
  all_goals first | decide +kernel | (unfold Numbered Distinct; decide)

end Program

end LogicScript
