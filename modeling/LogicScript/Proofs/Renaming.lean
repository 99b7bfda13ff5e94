import LogicScript.Proofs.Meaning
import LogicScript.Proofs.Texts

/-! Machines that differ in the positions of their newer frames and objects only.

Nothing that a program does depends on the positions at which frames and objects stand: renamed
values are equal to one another, are written out and compute as the values they stand for. -/
namespace LogicScript

namespace Bindings

variable {α β : Type}

/-- The same names with other values. -/
def map (f : α → β) (b : Bindings α) : Bindings β := ⟨b.toList.map fun p => (p.1, f p.2)⟩

@[simp] theorem get?_map (f : α → β) (b : Bindings α) (name : String) :
    (b.map f).get? name = (b.get? name).map f := by
  obtain ⟨l⟩ := b
  show find (l.map _) name = (find l name).map f
  induction l with
  | nil => rfl
  | cons p rest ih =>
    by_cases h : p.1 = name
    · simp [find, h]
    · simp [find, h, ih]

end Bindings

namespace Value

variable {ρ : ObjectId → ObjectId}

/-- The value with other objects in the place of those it refers to. -/
def rename (ρ : ObjectId → ObjectId) : Value → Value
  | .array o => .array (ρ o)
  | .struct o => .struct (ρ o)
  | v => v

@[simp] theorem kind_rename (v : Value) : (v.rename ρ).kind = v.kind := by cases v <;> rfl

@[simp] theorem asFloat?_rename (v : Value) : (v.rename ρ).asFloat? = v.asFloat? := by
  cases v <;> rfl

/-- A value refers to none but so many first objects. -/
def Within (n : Nat) (v : Value) : Prop :=
  ∀ o, v = .array o ∨ v = .struct o → o < n

theorem rename_of_within {n : Nat} {v : Value} (h : v.Within n) (hρ : ∀ o < n, ρ o = o) :
    v.rename ρ = v := by
  cases v with
  | array o => exact congrArg Value.array (hρ o (h o (.inl rfl)))
  | struct o => exact congrArg Value.struct (hρ o (h o (.inr rfl)))
  | _ => rfl

theorem widen_rename (v : Value) (t : Ty) : (v.rename ρ).widen t = (v.widen t).rename ρ := by
  cases v with
  | int i =>
    cases t with
    | prim p => cases p <;> rfl
    | _ => rfl
  | _ => rfl

theorem equal_rename (hρ : Function.Injective ρ) (v w : Value) :
    (v.rename ρ).equal (w.rename ρ) = v.equal w := by
  have hbeq : ∀ a b, (ρ a == ρ b) = (a == b) := fun a b => by
    rw [Bool.eq_iff_iff, beq_iff_eq, beq_iff_eq, hρ.eq_iff]
  cases v <;> cases w <;> first | rfl | exact hbeq _ _

theorem numericEqual_rename (hρ : Function.Injective ρ) (v w : Value) :
    (v.rename ρ).numericEqual (w.rename ρ) = v.numericEqual w := by
  have hequal := equal_rename hρ v w
  cases v <;> cases w <;> first | rfl | exact hequal

end Value

/-- The object with other objects in the place of those it refers to. -/
def Object.rename (ρ : ObjectId → ObjectId) : Object → Object
  | .array elements => .array (elements.map (·.rename ρ))
  | .struct d fields => .struct d (fields.map (·.rename ρ))

/-- The values that an object holds. -/
def Object.values : Object → List Value
  | .array elements => elements.toList
  | .struct _ fields => fields.toList.map (·.2)

theorem Object.rename_of_within {ρ : ObjectId → ObjectId} {n : Nat} {object : Object}
    (h : ∀ v ∈ object.values, v.Within n) (hρ : ∀ o < n, ρ o = o) : object.rename ρ = object := by
  have hvalue : ∀ v ∈ object.values, v.rename ρ = v := fun v hv =>
    Value.rename_of_within (h v hv) hρ
  cases object with
  | array elements =>
    have helements : elements.map (·.rename ρ) = elements := by
      refine Array.toList_inj.mp ?_
      rw [Array.toList_map]
      exact (List.map_congr_left hvalue).trans (List.map_id _)
    exact congrArg Object.array helements
  | struct d fields =>
    have hfields : fields.toList.map (fun p => (p.1, p.2.rename ρ)) = fields.toList := by
      refine (List.map_congr_left fun p hp => ?_).trans (List.map_id _)
      rw [hvalue p.2 (List.mem_map_of_mem hp)]
      rfl
    exact congrArg (Object.struct d) (congrArg Bindings.mk hfields)

theorem Object.contents_rename (ρ : ObjectId → ObjectId) (object : Object) :
    (object.rename ρ).contents = object.contents.map (·.rename ρ) := by
  cases object with
  | array elements => exact Array.toList_map ..
  | struct d fields =>
    simp only [rename, contents, List.map_map, Bindings.get?_map]
    refine List.map_congr_left fun f _ => ?_
    cases hfield : fields.get? f.name <;> simp [hfield, Value.rename]

theorem Object.written_rename (ρ : ObjectId → ObjectId) (object : Object) :
    (object.rename ρ).written = object.written := by
  cases object <;> rfl

namespace Operator

variable {ρ : ObjectId → ObjectId} {op : BinaryOp} {l r : Value}

theorem onInts_rename :
    onInts op (l.rename ρ) (r.rename ρ) = (onInts op l r).map (·.rename ρ) := by
  cases l with
  | int i =>
    cases r with
    | int j =>
      cases op with
      | divide | remain =>
        simp only [onInts, Value.rename]
        split <;> rfl
      | _ => rfl
    | _ => rfl
  | _ => cases r <;> rfl

theorem onFloats_rename :
    onFloats op (l.rename ρ) (r.rename ρ) = (onFloats op l r).map (·.rename ρ) := by
  unfold onFloats
  rw [Value.asFloat?_rename, Value.asFloat?_rename, Value.kind_rename, Value.kind_rename]
  cases l.asFloat? with
  | none => rfl
  | some x =>
    cases r.asFloat? with
    | none => rfl
    | some y => cases op <;> rfl

theorem apply_rename (hρ : Function.Injective ρ) {s t : Ty} :
    apply op s t (l.rename ρ) (r.rename ρ) = (apply op s t l r).map (·.rename ρ) := by
  unfold apply
  rw [Value.numericEqual_rename hρ, onInts_rename, onFloats_rename]
  split
  · rfl
  · split
    · rfl
    · split <;> rfl

end Operator

/-- By how much the newer frames and objects of one machine stand further up in another one. Those
below the base are at the same positions. -/
structure Shift where
  frameBase : Nat
  frames : Nat
  objectBase : Nat
  objects : Nat

namespace Shift

/-- The position, further up by the distance unless it is below the base. -/
def above (base distance i : Nat) : Nat := if i < base then i else i + distance

section Above

variable {base distance i n : Nat}

theorem above_of_lt (h : i < base) : above base distance i = i := if_pos h

theorem above_of_le (h : base ≤ i) : above base distance i = i + distance :=
  if_neg (Nat.not_lt.mpr h)

theorem above_injective : Function.Injective (above base distance) := by
  intro i j h
  unfold above at h
  split at h <;> split at h <;> omega

theorem above_lt_iff (h : base ≤ n) : above base distance i < n + distance ↔ i < n := by
  unfold above
  split <;> omega

end Above

def frame (σ : Shift) : FrameId → FrameId := above σ.frameBase σ.frames

def object (σ : Shift) : ObjectId → ObjectId := above σ.objectBase σ.objects

theorem frame_injective (σ : Shift) : Function.Injective σ.frame := above_injective

theorem object_injective (σ : Shift) : Function.Injective σ.object := above_injective

end Shift

def Rule.rename (σ : Shift) (r : Rule) : Rule := { r with env := r.env.map σ.frame }

def Entry.rename (σ : Shift) : Entry → Entry
  | .facts tuples => .facts (tuples.map (List.map (·.rename σ.object)))
  | .rule r => .rule (r.rename σ)

theorem Entry.rename_of_within {σ : Shift} {n k : Nat} {e : Entry}
    (htuples : ∀ tuple ∈ e.tuples, ∀ v ∈ tuple, v.Within n) (hobject : ∀ o < n, σ.object o = o)
    (henv : ∀ r, e = .rule r → ∀ f ∈ r.env, f < k) (hframe : ∀ f < k, σ.frame f = f) :
    e.rename σ = e := by
  cases e with
  | facts tuples =>
    have hall : tuples.map (List.map (·.rename σ.object)) = tuples := by
      refine (List.map_congr_left fun tuple ht => ?_).trans (List.map_id _)
      refine (List.map_congr_left fun v hv => ?_).trans (List.map_id _)
      exact Value.rename_of_within (htuples tuple ht v hv) hobject
    exact congrArg Entry.facts hall
  | rule r =>
    have hall : r.env.map σ.frame = r.env :=
      (List.map_congr_left fun f hf => hframe f (henv r rfl f hf)).trans (List.map_id _)
    simp only [rename, Rule.rename, hall]

theorem Entry.contains_rename (σ : Shift) (e : Entry) (args : List Value) :
    (e.rename σ).contains (args.map (·.rename σ.object)) = e.contains args := by
  have hequal : ∀ v w : Value, (v.rename σ.object).equal (w.rename σ.object) = v.equal w :=
    Value.equal_rename σ.object_injective
  have htuples : (e.rename σ).tuples = e.tuples.map (List.map (·.rename σ.object)) := by
    cases e <;> rfl
  unfold contains mentions
  simp only [htuples, List.all_map, List.any_map, Function.comp_def, hequal]

namespace Value

/-- Objects that stand at other positions are written out in the same way, as long as there are
levels enough for all objects to be inside one another. -/
theorem textIn_rename {ρ : ObjectId → ObjectId} (hρ : Function.Injective ρ)
    {objects objects' : Array Object} (hsize : objects.size ≤ objects'.size)
    (hheld : ∀ o : ObjectId, objects'[ρ o]? = objects[o]?.map (·.rename ρ)) {depth depth' : Nat}
    {around : List ObjectId} (hnodup : around.Nodup) (haround : around ⊆ List.range objects.size)
    (hdepth : objects.size < depth + around.length)
    (hdepth' : objects'.size < depth' + around.length) (v : Value) :
    textIn objects' depth' (around.map ρ) (v.rename ρ) = textIn objects depth around v := by
  induction depth generalizing depth' around v with
  | zero =>
    have hlength := length_le_of_nodup hnodup haround
    omega
  | succ depth ih =>
    have hlength := length_le_of_nodup hnodup haround
    obtain ⟨depth', rfl⟩ : ∃ n, depth' = n + 1 := ⟨depth' - 1, by omega⟩
    have hobject : ∀ o, v.object? = some o → (v.rename ρ).object? = some (ρ o) := by
      cases v <;> simp [object?, rename]
    cases hv : v.object? with
    | none => cases v <;> first | rfl | cases hv
    | some o =>
      rw [textIn_object hv, textIn_object (hobject o hv), hheld]
      simp only [List.mem_map_of_injective hρ]
      split
      · rfl
      · rename_i ho
        cases hheld' : objects[o]? with
        | none => rfl
        | some object =>
          have hlt : o < objects.size := (Array.getElem?_eq_some_iff.mp hheld').1
          have hnodup' : (o :: around).Nodup := List.nodup_cons.mpr ⟨ho, hnodup⟩
          have haround' : o :: around ⊆ List.range objects.size :=
            List.cons_subset.mpr ⟨List.mem_range.mpr hlt, haround⟩
          have hcontents : (object.rename ρ).contents.mapM (textIn objects' depth' (ρ o :: around.map ρ)) =
              object.contents.mapM (textIn objects depth (o :: around)) := by
            rw [Object.contents_rename, List.mapM_map]
            exact mapM_congr fun w _ => ih hnodup' haround' (by simp; omega) (by simp; omega) w
          simp only [Option.map_some, hcontents, Object.written_rename]

end Value

/-- A machine has what another one has, at the shifted positions. -/
structure Machine.Mirrors (σ : Shift) (m m' : Machine) : Prop where
  frames : m'.frames.size = m.frames.size + σ.frames
  frameBase : σ.frameBase ≤ m.frames.size
  objects : m'.objects.size = m.objects.size + σ.objects
  objectBase : σ.objectBase ≤ m.objects.size
  scope : ∀ f, (m'.frame (σ.frame f)).scope = (m.frame f).scope
  bound : ∀ f name, (m'.frame (σ.frame f)).bindings.get? name =
    ((m.frame f).bindings.get? name).map (·.rename σ.object)
  filed : ∀ f functor, (m'.frame (σ.frame f)).predicates.get? functor =
    ((m.frame f).predicates.get? functor).map (·.rename σ)
  held : ∀ o : ObjectId, m'.objects[σ.object o]? = m.objects[o]?.map (·.rename σ.object)

namespace Machine.Mirrors

variable {σ : Shift} {m m' : Machine}

theorem frameOf? (h : m.Mirrors σ m') (env : Env) (scope : ScopeId) :
    m'.frameOf? (env.map σ.frame) scope = (m.frameOf? env scope).map σ.frame := by
  unfold Machine.frameOf?
  rw [List.find?_map]
  congr 2
  funext f
  simp only [Function.comp, h.scope]

/-- The next frame of the one machine mirrors the next frame of the other one. -/
theorem next (h : m.Mirrors σ m') : m'.frames.size = σ.frame m.frames.size := by
  rw [h.frames, Shift.frame, Shift.above_of_le h.frameBase]

theorem nextObject (h : m.Mirrors σ m') : m'.objects.size = σ.object m.objects.size := by
  rw [h.objects, Shift.object, Shift.above_of_le h.objectBase]

theorem push (h : m.Mirrors σ m') (scope : ScopeId) :
    (m.push scope).2.Mirrors σ (m'.push scope).2 := by
  have hframe : ∀ f, (m'.push scope).2.frame (σ.frame f) =
      if f = m.frames.size then { scope } else m'.frame (σ.frame f) := fun f => by
    simp only [frame_push, h.next, σ.frame_injective.eq_iff]
  refine ⟨?_, ?_, h.objects, h.objectBase, fun f => ?_, fun f name => ?_, fun f functor => ?_,
    h.held⟩
  · have := h.frames
    simp only [size_push]
    omega
  · exact Nat.le_trans h.frameBase (by simp)
  · rw [hframe, frame_push]
    split
    · rfl
    · exact h.scope f
  · rw [hframe, frame_push]
    split
    · rfl
    · exact h.bound f name
  · rw [hframe, frame_push]
    split
    · rfl
    · exact h.filed f functor

theorem define (h : m.Mirrors σ m') (f : FrameId) (name : String) (v : Value) :
    (m.define f name v).Mirrors σ (m'.define (σ.frame f) name (v.rename σ.object)) := by
  refine ⟨by simpa using h.frames, by simpa using h.frameBase, h.objects, h.objectBase,
    fun i => by simpa using h.scope i, fun i other => ?_, fun i functor => ?_, h.held⟩
  · have hiff : σ.frame f = σ.frame i ∧ σ.frame i < m'.frames.size ↔
        f = i ∧ i < m.frames.size := by
      rw [h.frames, σ.frame_injective.eq_iff, Shift.frame, Shift.above_lt_iff h.frameBase]
    simp only [Machine.define, frame_updateFrame, hiff]
    split
    · by_cases hn : other = name
      · subst hn
        simp
      · simpa only [Bindings.get?_set_ne _ _ hn] using h.bound i other
    · exact h.bound i other
  · simpa using h.filed i functor

theorem bindAll (h : m.Mirrors σ m') (t : Table) (f : FrameId) (ps : List Parameter)
    (vs : List Value) :
    (m.bindAll t f ps vs).Mirrors σ
      (m'.bindAll t (σ.frame f) ps (vs.map (·.rename σ.object))) := by
  induction ps generalizing m m' vs with
  | nil => exact h
  | cons p ps ih =>
    cases vs with
    | nil => exact h
    | cons v vs =>
      simp only [List.map_cons, Machine.bindAll, Value.widen_rename]
      exact ih (h.define f p.name _) vs

theorem alloc (h : m.Mirrors σ m') (object : Object) :
    (m.alloc object).2.Mirrors σ (m'.alloc (object.rename σ.object)).2 := by
  refine ⟨h.frames, h.frameBase, ?_, ?_, h.scope, h.bound, h.filed, fun o => ?_⟩
  · have := h.objects
    simp only [Machine.alloc, Array.size_push]
    omega
  · exact Nat.le_trans h.objectBase (by simp [Machine.alloc])
  · simp only [Machine.alloc, Array.getElem?_push, h.nextObject, σ.object_injective.eq_iff]
    split
    · rfl
    · exact h.held o

theorem text? (h : m.Mirrors σ m') (v : Value) : m'.text? (v.rename σ.object) = m.text? v := by
  have hsize : m.objects.size ≤ m'.objects.size := by
    rw [h.objects]
    omega
  exact Value.textIn_rename σ.object_injective hsize h.held List.nodup_nil (by simp) (by simp)
    (by simp) v

end Machine.Mirrors

namespace Machine

/-- All frames and objects that a machine and a chain refer to are there. -/
structure Complete (m : Machine) (env : Env) : Prop extends m.Closed env where
  bound : ∀ f name v, (m.frame f).bindings.get? name = some v → v.Within m.objects.size
  filed : ∀ f functor e, (m.frame f).predicates.get? functor = some e →
    ∀ tuple ∈ e.tuples, ∀ v ∈ tuple, v.Within m.objects.size
  held : ∀ (o : ObjectId) object, m.objects[o]? = some object →
    ∀ v ∈ object.values, v.Within m.objects.size

/-- All that a machine has is unchanged in another one, which may have more frames and objects. -/
structure Intact (m m' : Machine) : Prop where
  frames : m.Retained m'
  objects : m.objects.size ≤ m'.objects.size ∧
    ∀ o : ObjectId, o < m.objects.size → m'.objects[o]? = m.objects[o]?
  stores : ∀ f, (m'.frame f).predicates = (m.frame f).predicates
  output : m'.output = m.output
  events : m'.events = m.events

theorem Intact.refl (m : Machine) : m.Intact m :=
  ⟨.refl m, ⟨Nat.le_refl _, fun _ _ => rfl⟩, fun _ => rfl, rfl, rfl⟩

theorem Intact.trans {m₁ m₂ m₃ : Machine} (h : m₁.Intact m₂) (h' : m₂.Intact m₃) :
    m₁.Intact m₃ where
  frames := h.frames.trans h'.frames
  objects := ⟨Nat.le_trans h.objects.1 h'.objects.1, fun o ho =>
    (h'.objects.2 o (Nat.lt_of_lt_of_le ho h.objects.1)).trans (h.objects.2 o ho)⟩
  stores f := (h'.stores f).trans (h.stores f)
  output := h'.output.trans h.output
  events := h'.events.trans h.events

theorem Intact.alloc (m : Machine) (object : Object) : m.Intact (m.alloc object).2 where
  frames := .refl m
  objects := by
    refine ⟨by simp [Machine.alloc], fun o ho => ?_⟩
    simp only [Machine.alloc, Array.getElem?_push, if_neg (Nat.ne_of_lt ho)]
  stores _ := rfl
  output := rfl
  events := rfl

/-- By how much a later machine has more frames and objects. -/
def shift (m m' : Machine) : Shift where
  frameBase := m.frames.size
  frames := m'.frames.size - m.frames.size
  objectBase := m.objects.size
  objects := m'.objects.size - m.objects.size

/-- A machine without dangling references is mirrored by every later one in which it is intact. -/
theorem Complete.mirrors {m m' : Machine} {env : Env} (hm : m.Complete env) (h : m.Intact m') :
    m.Mirrors (m.shift m') m' := by
  have hframe : ∀ f < m.frames.size, (m.shift m').frame f = f := fun f hf => Shift.above_of_lt hf
  have hobject : ∀ o < m.objects.size, (m.shift m').object o = o := fun o ho =>
    Shift.above_of_lt ho
  have hsize : m'.frames.size = m.frames.size + (m.shift m').frames :=
    (Nat.add_sub_cancel' h.frames.1).symm
  have hsize' : m'.objects.size = m.objects.size + (m.shift m').objects :=
    (Nat.add_sub_cancel' h.objects.1).symm
  have hold : ∀ f < m.frames.size, m'.frame ((m.shift m').frame f) = m.frame f := fun f hf => by
    rw [hframe f hf, h.frames.2 f hf]
  have hnew : ∀ f, ¬ f < m.frames.size →
      m.frame f = default ∧ m'.frame ((m.shift m').frame f) = default := by
    intro f hf
    have hf' : ¬ (m.shift m').frame f < m'.frames.size := by
      rw [hsize]
      exact fun hlt => hf ((Shift.above_lt_iff (Nat.le_refl _)).mp hlt)
    exact ⟨by simp [Machine.frame, hf], by simp [Machine.frame, hf']⟩
  refine ⟨hsize, Nat.le_refl _, hsize', Nat.le_refl _, fun f => ?_, fun f name => ?_,
    fun f functor => ?_, fun o => ?_⟩
  · by_cases hf : f < m.frames.size
    · rw [hold f hf]
    · rw [(hnew f hf).1, (hnew f hf).2]
  · by_cases hf : f < m.frames.size
    · rw [hold f hf]
      cases hv : (m.frame f).bindings.get? name with
      | none => rfl
      | some v => exact congrArg some (Value.rename_of_within (hm.bound f name v hv) hobject).symm
    · rw [(hnew f hf).1, (hnew f hf).2]
      rfl
  · by_cases hf : f < m.frames.size
    · rw [hold f hf]
      cases he : (m.frame f).predicates.get? functor with
      | none => rfl
      | some e =>
        have henv : ∀ r, e = .rule r → ∀ f ∈ r.env, f < m.frames.size := by
          rintro r rfl
          exact hm.rules f functor r he
        exact congrArg some
          (Entry.rename_of_within (hm.filed f functor e he) hobject henv hframe).symm
    · rw [(hnew f hf).1, (hnew f hf).2]
      rfl
  · by_cases ho : o < m.objects.size
    · rw [hobject o ho, h.objects.2 o ho]
      cases hobj : m.objects[o]? with
      | none => rfl
      | some object =>
        exact congrArg some (Object.rename_of_within (hm.held o object hobj) hobject).symm
    · have ho' : ¬ (m.shift m').object o < m'.objects.size := by
        rw [hsize']
        exact fun hlt => ho ((Shift.above_lt_iff (Nat.le_refl _)).mp hlt)
      rw [Array.getElem?_eq_none (Nat.le_of_not_lt ho),
        Array.getElem?_eq_none (Nat.le_of_not_lt ho')]
      rfl

end Machine

end LogicScript
