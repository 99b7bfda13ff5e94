import LogicScript.Proofs.Conformance
import LogicScript.Proofs.Termination
import LogicScript.Proofs.Tidying.Analysis
import LogicScript.Proofs.Tidying.Lockstep

/-! Parentheses around a value do not change a program.

Where an expression is used as a value, it may be put in parentheses: the analysis files the type of
the expression for them, and their evaluation is that of the expression. Where the form of an
expression matters, as for the target of an assignment, the question of a query and the arguments of
a unification, parentheses are not put around it. -/
namespace LogicScript

open Analysis Eval

open Classical in
/-- Some parentheses are taken away around values; no code is cut off. -/
noncomputable def Tidying.unwrapping (inserted : List Expr) : Tidying :=
  ⟨fun e => decide (e ∈ inserted), false⟩

/-- The second program is the first one with expressions that are used as values put in parentheses,
as often as wanted. The inserted expressions are nodes of the second program and not of the first. -/
structure Program.Wraps (p q : Program) (inserted : List Expr) : Prop where
  numbered : q.Numbered
  inside : ∀ e ∈ inserted, .expression e ∈ q.nodes
  /-- Nothing is inserted where an expression is not used as a value; it would stay. -/
  fresh : ∀ e ∈ inserted, ∀ n ∈ p.nodes, n.mark.id ≠ e.mark.id
  unwrapped : (Tidying.unwrapping inserted).program q = p

namespace Program.Wraps

variable {p q : Program} {inserted : List Expr} {early late : Prop}

/-- The two programs are compared by the nodes that are not inserted. -/
noncomputable def comparison (inserted : List Expr) (early late : Prop) : Comparison where
  toTidying := .unwrapping inserted
  stays id := ∀ e ∈ inserted, e.mark.id ≠ id
  early := early
  late := late

theorem mem_of_drops {e : Expr} (h : (comparison inserted early late).drops e = true) :
    e ∈ inserted := by simpa [comparison, Tidying.unwrapping] using h

theorem gone (inserted : List Expr) (early late : Prop) :
    (comparison inserted early late).Gone := fun _ _ hdrops hstays =>
  hstays _ (mem_of_drops hdrops) rfl

theorem stays (h : p.Wraps q inserted) :
    (comparison inserted early late).Stays
      ((comparison inserted early late).program q).nodes := by
  show (comparison inserted early late).Stays ((Tidying.unwrapping inserted).program q).nodes
  rw [h.unwrapped]
  exact fun n hn e he heq => h.fresh e he n hn heq.symm

theorem typeOf_inserted (h : p.Wraps q inserted) {m : Mark} {inner : Expr}
    (hdrops : (comparison inserted early late).drops (.paren m inner) = true) :
    (analyze q).1.typeOf m = (analyze q).1.typeOf inner.mark := by
  rw [q.analyze_eq]
  have hmem := h.inside _ (mem_of_drops hdrops)
  exact composed h.numbered hmem rfl (by simp)

theorem fits (h : p.Wraps q inserted) (early late : Prop) (limit : Nat) :
    (comparison inserted early late).Fits ⟨(analyze q).1, limit⟩ ⟨(analyze p).1, limit⟩ := by
  have hp : (comparison inserted early late).program q = p := h.unwrapped
  obtain ⟨-, hscopes, hattributes, hknown⟩ :=
    Comparison.analyze_tidied (gone inserted early late) rfl h.stays
  rw [hp] at hscopes hattributes
  have hdropped : ∀ m inner, (comparison inserted early late).drops (.paren m inner) = true →
      (analyze q).1.typeOf m = (analyze q).1.typeOf inner.mark := fun _ _ => h.typeOf_inserted
  generalize (analyze q).1 = t at hscopes hattributes hknown hdropped ⊢
  generalize (analyze p).1 = t' at hscopes hattributes ⊢
  refine ⟨rfl, hattributes, fun i => ?_, hdropped, hknown⟩
  rw [hscopes, Tidying.get_scopes]
  rfl

theorem wraps_le {e : Expr} (hdrops : (comparison inserted early late).drops e = true) :
    e.wraps ≤ (inserted.map Expr.wraps).max?.getD 0 :=
  List.le_max?_getD_of_mem (List.mem_map_of_mem (mem_of_drops hdrops))

/-- If the program with the parentheses comes to an end, the other one ends alike with as much
fuel. -/
theorem turns_of_le (h : p.Wraps q inserted) {limit fuel fuel' : Nat}
    (hends : (q.run ⟨(analyze q).1, limit⟩ fuel).outcome ≠ .error .outOfFuel)
    (hle : fuel ≤ fuel') :
    (Tidying.unwrapping inserted).Turns (q.run ⟨(analyze q).1, limit⟩ fuel)
      (p.run ⟨(analyze p).1, limit⟩ fuel') := by
  have hp : (comparison inserted True False).program q = p := h.unwrapped
  have fit := h.fits True False limit
  have hruns := (Comparison.Mirrored.evaluator_of_le fit trivial hle).run fit h.stays
  rw [hp] at hruns
  rcases hruns with ⟨-, hshort⟩ | ⟨hnot, -⟩ | hturns
  · exact absurd hshort hends
  · exact hnot.elim
  · exact hturns

/-- If the program without the parentheses comes to an end, the other one ends alike with so many
times the fuel. -/
theorem turns_of_mul_le (h : p.Wraps q inserted) {limit fuel fuel' : Nat}
    (hends : (p.run ⟨(analyze p).1, limit⟩ fuel').outcome ≠ .error .outOfFuel)
    (hle : fuel' * ((inserted.map Expr.wraps).max?.getD 0 + 1) ≤ fuel) :
    (Tidying.unwrapping inserted).Turns (q.run ⟨(analyze q).1, limit⟩ fuel)
      (p.run ⟨(analyze p).1, limit⟩ fuel') := by
  have hp : (comparison inserted False True).program q = p := h.unwrapped
  have fit := h.fits False True limit
  have hruns :=
    (Comparison.Mirrored.evaluator_of_mul_le fit trivial (fun _ => wraps_le) hle).run fit h.stays
  rw [hp] at hruns
  rcases hruns with ⟨hnot, -⟩ | ⟨-, hshort⟩ | hturns
  · exact hnot.elim
  · exact absurd hshort hends
  · exact hturns

end Program.Wraps

theorem Run.ending_outOfFuel {r : Run} :
    r.ending = .error none ↔ r.outcome = .error .outOfFuel := by
  obtain ⟨outcome, machine, root⟩ := r
  rcases outcome with (f | _) | done <;> simp [ending, Except.mapError, Halt.cause?]

theorem Tidying.Turns.ends_iff {k : Tidying} {r r' : Run} (h : k.Turns r r') :
    r'.outcome = .error .outOfFuel ↔ r.outcome = .error .outOfFuel := by
  rw [← Run.ending_outOfFuel, ← Run.ending_outOfFuel, h.ending]
  cases r.ending <;> simp [Except.map]

/-- Parentheses around values change nothing. The analysis reports the same issues with and without
them, and for every limit on rule bodies the one program comes to an end exactly if the other one
does. Then it prints the same, returns the same value or fails with a fault of the same kind and
message, and leaves the same frames behind, but for the parentheses inside functions and rules. -/
theorem Program.Wraps.unchanged {p q : Program} {inserted : List Expr} (h : p.Wraps q inserted) :
    (analyze q).2 = (analyze p).2 ∧ ∀ limit,
      ((∃ fuel, (q.run ⟨(analyze q).1, limit⟩ fuel).outcome ≠ .error .outOfFuel) ↔
        ∃ fuel, (p.run ⟨(analyze p).1, limit⟩ fuel).outcome ≠ .error .outOfFuel) ∧
      ∀ fuel fuel', (q.run ⟨(analyze q).1, limit⟩ fuel).outcome ≠ .error .outOfFuel →
        (p.run ⟨(analyze p).1, limit⟩ fuel').outcome ≠ .error .outOfFuel →
        (Tidying.unwrapping inserted).Turns (q.run ⟨(analyze q).1, limit⟩ fuel)
          (p.run ⟨(analyze p).1, limit⟩ fuel') := by
  have hp : (comparison inserted True False).program q = p := h.unwrapped
  have hissues := (Comparison.analyze_tidied (gone inserted True False) rfl h.stays).1
  rw [hp] at hissues
  refine ⟨hissues.symm, fun limit => ⟨⟨?_, ?_⟩, fun fuel fuel' hq hp => ?_⟩⟩
  · rintro ⟨fuel, hends⟩
    exact ⟨fuel, fun hshort => hends ((h.turns_of_le hends (Nat.le_refl _)).ends_iff.mp hshort)⟩
  · rintro ⟨fuel', hends⟩
    exact ⟨_, fun hshort => hends
      ((h.turns_of_mul_le hends (Nat.le_refl _)).ends_iff.mpr hshort)⟩
  · -- With more fuel the second run is the same, and with as much as the first one has it ends alike.
    rw [← Program.run_of_le (Nat.le_max_right fuel fuel') hp]
    exact h.turns_of_le hq (Nat.le_max_left ..)

namespace Program

/-- A fact is stated, and a variable is set and printed. -/
def announcing : Program where
  mark := ⟨0, {}⟩
  statements := [
    .fact ⟨⟨1, {}⟩, "said", [.int ⟨2, {}⟩ 1]⟩,
    .var ⟨⟨3, {}⟩, "x", none, some (.string ⟨4, {}⟩ "a")⟩,
    .expr ⟨5, {}⟩ (.call ⟨6, {}⟩ (.reference ⟨⟨7, {}⟩, "print"⟩) [.reference ⟨⟨8, {}⟩, "x"⟩])]

/-- The parentheses around the argument of the fact, around the initializer, where there are two, and
around the argument of the call. -/
def brackets : List Expr :=
  [.paren ⟨9, {}⟩ (.int ⟨2, {}⟩ 1),
    .paren ⟨10, {}⟩ (.string ⟨4, {}⟩ "a"),
    .paren ⟨11, {}⟩ (.paren ⟨10, {}⟩ (.string ⟨4, {}⟩ "a")),
    .paren ⟨12, {}⟩ (.reference ⟨⟨8, {}⟩, "x"⟩)]

def bracketed : Program where
  mark := ⟨0, {}⟩
  statements := [
    .fact ⟨⟨1, {}⟩, "said", [.paren ⟨9, {}⟩ (.int ⟨2, {}⟩ 1)]⟩,
    .var ⟨⟨3, {}⟩, "x", none,
      some (.paren ⟨11, {}⟩ (.paren ⟨10, {}⟩ (.string ⟨4, {}⟩ "a")))⟩,
    .expr ⟨5, {}⟩ (.call ⟨6, {}⟩ (.reference ⟨⟨7, {}⟩, "print"⟩)
      [.paren ⟨12, {}⟩ (.reference ⟨⟨8, {}⟩, "x"⟩)])]

theorem announcing_wraps : announcing.Wraps bracketed brackets where
  numbered := by
    unfold Numbered Distinct
    decide
  inside := by
    simp [brackets, bracketed, nodes, Stmt.nodesOfList, Stmt.nodes, FactDecl.nodes, VarDecl.nodes,
      Expr.nodes, Expr.nodesOfList]
  fresh := by
    unfold brackets
    decide
  unwrapped := by
    simp [bracketed, announcing, brackets, Tidying.unwrapping, Tidying.program, Tidying.stmts,
      Tidying.stmt, Tidying.fact, Tidying.var, Tidying.expr, Tidying.exprs]

theorem announcing_ends :
    (announcing.run ⟨(analyze announcing).1, 1⟩ 3).outcome ≠ .error .outOfFuel :=
  fun h => absurd (congrArg Except.isOk h) (by decide +kernel)

theorem bracketed_ends :
    (bracketed.run ⟨(analyze bracketed).1, 1⟩ 4).outcome ≠ .error .outOfFuel :=
  fun h => absurd (congrArg Except.isOk h) (by decide +kernel)

/-- The program says the same with the parentheses, if it has the fuel for them. -/
theorem bracketed_announces :
    announcing.Wraps bracketed brackets ∧ (analyze bracketed).2 = (analyze announcing).2 ∧
      (Tidying.unwrapping brackets).Turns (bracketed.run ⟨(analyze bracketed).1, 1⟩ 4)
        (announcing.run ⟨(analyze announcing).1, 1⟩ 3) :=
  have hsame := announcing_wraps.unchanged
  ⟨announcing_wraps, hsame.1, (hsame.2 1).2 4 3 bracketed_ends announcing_ends⟩

end Program

end LogicScript
