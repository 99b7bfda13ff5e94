import LogicScript.Run

/-! What evaluations keep.

A contract says what holds of every machine between evaluations, how a machine may go on, which
frames may be changed, which halts may occur, and where fuel may run out. The judgement `Honours`
compares two evaluations: the second one keeps the contract, and the first one does the same, unless
it is stopped early. With two equal evaluations it is a statement about one; with two different ones
it carries over what a run does to the same run with less fuel, or with an observer that may stop
it. -/
namespace LogicScript

namespace Eval

/-- The machine that an evaluation leaves behind. -/
def after {α : Type} : EStateM.Result Halt Machine α → Machine
  | .ok _ m => m
  | .error _ m => m

@[simp] theorem after_ok {α : Type} (a : α) (m : Machine) :
    after (.ok a m : EStateM.Result Halt Machine α) = m := rfl

@[simp] theorem after_error {α : Type} (h : Halt) (m : Machine) :
    after (.error h m : EStateM.Result Halt Machine α) = m := rfl

theorem bind_of_ok {α β : Type} {x : Eval α} {f : α → Eval β} {m m' : Machine} {a : α}
    (h : x m = .ok a m') : (x >>= f) m = f a m' := by
  simp only [Bind.bind, EStateM.bind, h]

theorem bind_of_error {α β : Type} {x : Eval α} {f : α → Eval β} {m m' : Machine} {e : Halt}
    (h : x m = .error e m') : (x >>= f) m = .error e m' := by
  simp only [Bind.bind, EStateM.bind, h]

theorem ok_of_bind {α β : Type} {x : Eval α} {f : α → Eval β} {m m' : Machine} {b : β}
    (h : (x >>= f) m = .ok b m') : ∃ a m₁, x m = .ok a m₁ ∧ f a m₁ = .ok b m' := by
  cases hx : x m with
  | ok a m₁ => exact ⟨a, m₁, rfl, (bind_of_ok hx).symm.trans h⟩
  | error e m₁ => cases (bind_of_error hx).symm.trans h

theorem attach_of_ok {α : Type} {x : Eval α} {node : NodeRef} {m m' : Machine} {a : α}
    (h : x m = .ok a m') : attach node x m = .ok a m' := by simp [attach, h]

theorem attach_of_fault {α : Type} {x : Eval α} {node : NodeRef} {m m' : Machine} {f : Fault}
    (h : x m = .error (.fault f) m') :
    attach node x m = .error (.fault (f.attach node)) m' := by simp [attach, h]

theorem attach_of_outOfFuel {α : Type} {x : Eval α} {node : NodeRef} {m m' : Machine}
    (h : x m = .error .outOfFuel m') : attach node x m = .error .outOfFuel m' := by
  simp [attach, h]

theorem ok_of_attach {α : Type} {x : Eval α} {node : NodeRef} {m m' : Machine} {a : α}
    (h : attach node x m = .ok a m') : x m = .ok a m' := by
  unfold attach at h
  split at h
  · cases h
  · exact h

end Eval

open Eval

structure Contract where
  /-- What holds between evaluations. -/
  Inv : Machine → Prop
  /-- How the machine may go on. -/
  Leads : Machine → Machine → Prop
  /-- The frames that may be changed. -/
  Own : FrameId → Prop := fun _ => True
  /-- The halts that may occur. -/
  Blame : Halt → Prop
  /-- The machines in which fuel may run out. -/
  Endless : Machine → Prop := fun _ => True
  /-- The halts that may stop the first of two evaluations alone. -/
  Stop : Halt → Prop
  refl : ∀ m, Leads m m
  trans : ∀ {m₁ m₂ m₃}, Leads m₁ m₂ → Leads m₂ m₃ → Leads m₁ m₃
  blame_attach : ∀ {f node}, Blame (.fault f) → Blame (.fault (f.attach node))
  stop_attach : ∀ {f node}, Stop (.fault f) → Stop (.fault (f.attach node))

namespace Contract

variable {α β : Type} {c : Contract} {m : Machine}

/-- How an evaluation that began in a machine may end. -/
def Ends (c : Contract) (m : Machine) (Q : Machine → α → Prop) :
    EStateM.Result Halt Machine α → Prop
  | .ok a m' => c.Inv m' ∧ c.Leads m m' ∧ Q m' a
  | .error h m' => c.Inv m' ∧ c.Leads m m' ∧ c.Blame h ∧ (h = .outOfFuel → c.Endless m')

/-- An evaluation was stopped on its way to where another one came. -/
def Stopped (c : Contract) (m : Machine) (r s : EStateM.Result Halt Machine α) : Prop :=
  ∃ h m₁, r = .error h m₁ ∧ c.Stop h ∧ c.Inv m₁ ∧ c.Leads m m₁ ∧ c.Leads m₁ (after s)

/-- The second evaluation keeps the contract from the machine on, with a result as told, and the
first one does the same as long as it is not stopped. -/
def Honours (c : Contract) (m : Machine) (x y : Eval α) (Q : Machine → α → Prop) : Prop :=
  c.Inv m → c.Ends m Q (y m) ∧ (x m = y m ∨ c.Stopped m (x m) (y m))

theorem Ends.leads {Q : Machine → α → Prop} {r : EStateM.Result Halt Machine α}
    (h : c.Ends m Q r) : c.Leads m (after r) := by
  cases r with
  | ok a m' => exact h.2.1
  | error e m' => exact h.2.1

theorem Ends.of_leads {Q : Machine → α → Prop} {m₁ : Machine} {r : EStateM.Result Halt Machine α}
    (hm : c.Leads m m₁) (h : c.Ends m₁ Q r) : c.Ends m Q r := by
  cases r with
  | ok a m' => exact ⟨h.1, c.trans hm h.2.1, h.2.2⟩
  | error e m' => exact ⟨h.1, c.trans hm h.2.1, h.2.2⟩

namespace Honours

variable {x y : Eval α} {f g : α → Eval β} {P : Machine → α → Prop} {Q : Machine → β → Prop}

theorem weaken {P' : Machine → α → Prop} (h : c.Honours m x y P)
    (hP : ∀ m' a, c.Leads m m' → P m' a → P' m' a) : c.Honours m x y P' := by
  intro hm
  obtain ⟨hy, hxy⟩ := h hm
  refine ⟨?_, hxy⟩
  cases r : y m with
  | ok a m' =>
    rw [r] at hy
    exact ⟨hy.1, hy.2.1, hP m' a hy.2.1 hy.2.2⟩
  | error e m' =>
    rw [r] at hy
    exact hy

theorem pure {a : α} (h : P m a) : c.Honours m (Pure.pure a) (Pure.pure a) P := fun hm =>
  ⟨⟨hm, c.refl m, h⟩, .inl rfl⟩

theorem throw {f : Fault} (h : c.Blame (.fault f)) :
    c.Honours m (MonadExcept.throw (.fault f)) (MonadExcept.throw (.fault f)) P := fun hm =>
  ⟨⟨hm, c.refl m, h, nofun⟩, .inl rfl⟩

theorem exhaust (h : c.Blame .outOfFuel) (hends : c.Endless m) :
    c.Honours m (MonadExcept.throw .outOfFuel) (MonadExcept.throw .outOfFuel) P := fun hm =>
  ⟨⟨hm, c.refl m, h, fun _ => hends⟩, .inl rfl⟩

theorem raise {cause : Cause} (h : c.Blame (.fault ⟨cause, none⟩)) :
    c.Honours m (Eval.raise cause) (Eval.raise cause) P := throw h

theorem raiseAt {cause : Cause} {node : NodeRef} (h : c.Blame (.fault ⟨cause, some node⟩)) :
    c.Honours m (Eval.raiseAt cause node) (Eval.raiseAt cause node) P := throw h

/-- What is stopped at once is stopped on the way to anything. -/
theorem stopped {h : Halt} (hxy : c.Honours m x y P) (hstop : c.Stop h) :
    c.Honours m (MonadExcept.throw h) y P := fun hm =>
  ⟨(hxy hm).1, .inr ⟨h, m, rfl, hstop, hm, c.refl m, (hxy hm).1.leads⟩⟩

theorem bind (hx : c.Honours m x y P)
    (hf : ∀ m' a, c.Leads m m' → P m' a → c.Honours m' (f a) (g a) Q) :
    c.Honours m (x >>= f) (y >>= g) Q := by
  intro hm
  obtain ⟨hy, hxy⟩ := hx hm
  cases r : y m with
  | error e m' =>
    rw [r] at hy hxy
    refine ⟨by rw [bind_of_error r]; exact hy, ?_⟩
    rw [bind_of_error r]
    rcases hxy with hxy | ⟨h, m₁, hx, hs⟩
    · exact .inl (bind_of_error hxy)
    · exact .inr ⟨h, m₁, bind_of_error hx, hs⟩
  | ok a m' =>
    rw [r] at hy hxy
    obtain ⟨hg, hfg⟩ := hf m' a hy.2.1 hy.2.2 hy.1
    refine ⟨by rw [bind_of_ok r]; exact hg.of_leads hy.2.1, ?_⟩
    rw [bind_of_ok r]
    rcases hxy with hxy | ⟨h, m₁, hx, hs, hi, hl, hr⟩
    · rw [bind_of_ok hxy]
      rcases hfg with hfg | ⟨h, m₁, hx, hs, hi, hl, hr⟩
      · exact .inl hfg
      · exact .inr ⟨h, m₁, hx, hs, hi, c.trans hy.2.1 hl, hr⟩
    · exact .inr ⟨h, m₁, bind_of_error hx, hs, hi, hl, c.trans hr hg.leads⟩

/-- What comes after a fault does not matter. -/
theorem raise_bind {cause : Cause} (h : c.Blame (.fault ⟨cause, none⟩)) :
    c.Honours m (Eval.raise cause >>= f) (Eval.raise cause >>= g) Q :=
  (raise (P := fun _ _ => False) h).bind fun _ _ _ h => h.elim

theorem raiseAt_bind {cause : Cause} {node : NodeRef} (h : c.Blame (.fault ⟨cause, some node⟩)) :
    c.Honours m (Eval.raiseAt cause node >>= f) (Eval.raiseAt cause node >>= g) Q :=
  (raiseAt (P := fun _ _ => False) h).bind fun _ _ _ h => h.elim

theorem attach {node : NodeRef} (h : c.Honours m x y P) :
    c.Honours m (Eval.attach node x) (Eval.attach node y) P := by
  intro hm
  obtain ⟨hy, hxy⟩ := h hm
  constructor
  · cases r : y m with
    | ok a m' =>
      rw [r] at hy
      rw [attach_of_ok r]
      exact hy
    | error e m' =>
      rw [r] at hy
      cases e with
      | fault f =>
        rw [attach_of_fault r]
        exact ⟨hy.1, hy.2.1, c.blame_attach hy.2.2.1, nofun⟩
      | outOfFuel =>
        rw [attach_of_outOfFuel r]
        exact hy
  · have hafter : after (Eval.attach node y m) = after (y m) := by
      cases r : y m with
      | ok a m' => rw [attach_of_ok r]
      | error e m' =>
        cases e with
        | fault f => rw [attach_of_fault r]; rfl
        | outOfFuel => rw [attach_of_outOfFuel r]
    rcases hxy with hxy | ⟨e, m₁, hx, hs, hi, hl, hr⟩
    · exact .inl (by unfold Eval.attach; rw [hxy])
    · refine .inr ?_
      cases e with
      | fault f =>
        exact ⟨_, m₁, attach_of_fault hx, c.stop_attach hs, hi, hl, by rw [hafter]; exact hr⟩
      | outOfFuel => exact ⟨_, m₁, attach_of_outOfFuel hx, hs, hi, hl, by rw [hafter]; exact hr⟩

theorem get : c.Honours m MonadState.get MonadState.get fun m' a => m' = m ∧ a = m := fun hm =>
  ⟨⟨hm, c.refl m, rfl, rfl⟩, .inl rfl⟩

/-- What was read of the machine is known, so the rest is judged for this machine. -/
theorem get_bind {f g : Machine → Eval β} (h : c.Honours m (f m) (g m) Q) :
    c.Honours m (MonadState.get >>= f) (MonadState.get >>= g) Q := by
  refine get.bind ?_
  rintro m' a - ⟨rfl, rfl⟩
  exact h

theorem change {f : Machine → Machine} {Q : Machine → PUnit → Prop}
    (hi : c.Inv m → c.Inv (f m)) (hl : c.Inv m → c.Leads m (f m)) (hQ : Q (f m) ⟨⟩) :
    c.Honours m (modify f) (modify f) Q :=
  fun hm => ⟨⟨hi hm, hl hm, hQ⟩, .inl rfl⟩

theorem display_of_blame {v : Value} (h : c.Blame .outOfFuel)
    (hm : m.text? v = none → c.Endless m) :
    c.Honours m (display v) (display v) fun m' text => m' = m ∧ m.text? v = some text := by
  refine get_bind ?_
  cases hv : m.text? v with
  | some text => exact pure ⟨rfl, rfl⟩
  | none => exact exhaust h (hm hv)

theorem lift {e : Except Cause α} (hok : ∀ a, e = .ok a → P m a)
    (herror : ∀ cause, e = .error cause → c.Blame (.fault ⟨cause, none⟩)) :
    c.Honours m (Eval.lift e) (Eval.lift e) P := by
  cases e with
  | ok a => exact pure (hok a rfl)
  | error cause => exact raise (herror cause rfl)

end Honours

end Contract

end LogicScript
