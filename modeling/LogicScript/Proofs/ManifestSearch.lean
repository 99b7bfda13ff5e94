import Mathlib.Logic.Function.Iterate
import LogicScript.Manifest.File

/-! The search for a manifest.

The search goes from a directory to its parent, up to the root, which is its own parent. In each
directory it asks what the path of a manifest leads to. A file ends the search, and so does a path
that cannot be followed; a directory of that name is passed over, as if nothing were there. -/
namespace LogicScript

namespace Path

variable {p : Path}

/-- The directory so many steps above. -/
def above (p : Path) (k : Nat) : Path := parent^[k] p

/-- How many steps lead from the root to the directory. -/
def depth (p : Path) : Nat := p.steps.length

@[simp] theorem above_zero (p : Path) : p.above 0 = p := rfl

theorem above_succ (p : Path) (k : Nat) : p.above (k + 1) = p.parent.above k := rfl

theorem parent_above (p : Path) (k : Nat) : (p.above k).parent = p.above (k + 1) :=
  (Function.iterate_succ_apply' parent k p).symm

@[simp] theorem rooted_above (p : Path) (k : Nat) : (p.above k).rooted = p.rooted := by
  induction k with
  | zero => rfl
  | succ k ih => rw [← parent_above]; exact ih

theorem steps_above (p : Path) (k : Nat) : (p.above k).steps = p.steps.drop k := by
  induction k with
  | zero => rfl
  | succ k ih => rw [← parent_above, parent, ih, List.tail_drop]

/-- As many steps above as lead to the directory is the root. -/
theorem above_depth (h : p.rooted = true) : p.above p.depth = root := by
  have hsteps : (p.above p.depth).steps = [] := by rw [steps_above, depth, List.drop_length]
  cases hp : p.above p.depth with
  | mk rooted steps =>
    rw [hp] at hsteps
    have hrooted := rooted_above p p.depth
    rw [hp, h] at hrooted
    cases hsteps
    cases hrooted
    rfl

/-- No directory below the root is its own parent. -/
theorem parent_above_ne {k : Nat} (hk : k < p.depth) : (p.above k).parent ≠ p.above k := by
  intro heq
  have hlength := congrArg (fun q => q.steps.length) heq
  simp only [parent_above, steps_above, List.length_drop] at hlength
  unfold depth at hk
  omega

theorem rooted_enter (p : Path) (step : String) : (p.enter step).rooted = p.rooted := by
  unfold enter
  repeat' split
  all_goals rfl

theorem rooted_append (p : Path) (relative : String) :
    (p.append relative).rooted = p.rooted := by
  unfold append
  generalize parts relative = steps
  induction steps generalizing p with
  | nil => rfl
  | cons step steps ih => rw [List.foldl_cons, ih, rooted_enter]

theorem rooted_ofString {s : String} (h : isAbsolute s = true) : (ofString s).rooted = true := by
  rw [ofString, rooted_append, h]

theorem intercalate_concat (s a : String) {l : List String} (h : l ≠ []) :
    s.intercalate (l ++ [a]) = s.intercalate l ++ s ++ a := by
  induction l with
  | nil => exact absurd rfl h
  | cons b l ih =>
    cases l with
    | nil => simp [String.intercalate_cons_cons]
    | cons c l =>
      rw [List.cons_append, List.cons_append, String.intercalate_cons_cons, ← List.cons_append,
        ih (by simp), String.intercalate_cons_cons]
      simp only [String.append_assoc]

end Path

namespace Manifest

variable {files : FileSystem Id} {start : String}

theorem candidate_text {d : Path} (h : d.rooted = true) :
    candidate d = (if d = .root then "" else d.toString) ++ "/" ++ fileName := by
  obtain ⟨rooted, steps⟩ := d
  cases h
  have hstep : (⟨true, steps⟩ : Path).append fileName = ⟨true, fileName :: steps⟩ := by
    have hparts : Path.parts fileName = [fileName] := by decide
    rw [Path.append, hparts]
    rfl
  rw [candidate, hstep]
  cases steps with
  | nil => rfl
  | cons step steps =>
    have hne : (⟨true, step :: steps⟩ : Path) ≠ .root := by simp [Path.root]
    simp only [Path.toString, if_neg hne, if_true, List.reverse_cons (a := fileName),
      Path.intercalate_concat "/" fileName (by simp : (step :: steps).reverse ≠ []),
      String.append_assoc]

/-- The search goes on behind the directory: there is no manifest, or a directory of that name. -/
def Passes (files : FileSystem Id) (d : Path) : Prop :=
  files.stat (candidate d) = .absent ∨ files.stat (candidate d) = .directory

section Directory

variable {d : Path}

theorem search_of_passes (h : Passes files d) :
    search files d = if d.parent = d then .ok none else search files d.parent := by
  rw [search]
  obtain habsent | hdirectory := h
  · simp only [bind, habsent]
    rfl
  · simp only [bind, hdirectory]
    rfl

theorem search_file (h : files.stat (candidate d) = .file) :
    (search files d : Except ManifestError (Option String)) = .ok (some (candidate d)) := by
  rw [search]
  simp only [bind, h]
  rfl

theorem search_failed {reason : String} (h : files.stat (candidate d) = .failed reason) :
    (search files d : Except ManifestError (Option String)) =
      .error (.unsearchable (candidate d) reason) := by
  rw [search]
  simp only [bind, h]
  rfl

end Directory

theorem find_of_passes (h : Path.isAbsolute start = true) {k : Nat}
    (hk : k ≤ (Path.ofString start).depth)
    (hbefore : ∀ j < k, Passes files ((Path.ofString start).above j)) :
    find files start = search files ((Path.ofString start).above k) := by
  induction k with
  | zero => rw [find, Path.absolute, if_pos h, Path.above_zero]
  | succ k ih =>
    rw [ih (Nat.le_of_succ_le hk) fun j hj => hbefore j (Nat.lt_succ_of_lt hj),
      search_of_passes (hbefore k (Nat.lt_succ_self k)), if_neg (Path.parent_above_ne hk),
      Path.parent_above]

/-- The search finds the nearest manifest. From an absolute directory it goes through the iterated
parents and ends at the root, the only one that is its own parent. The first directory that is not
passed over decides: its manifest is found if it is a file, and if its path cannot be followed the
search fails with the reason. If all directories are passed over, nothing is found. -/
theorem find_nearest (h : Path.isAbsolute start = true) :
    let D := (Path.ofString start).above
    let n := (Path.ofString start).depth
    (D n = .root ∧ (∀ k < n, D (k + 1) = (D k).parent ∧ D (k + 1) ≠ D k)) ∧
    (∀ k, candidate (D k) =
      (if D k = .root then "" else (D k).toString) ++ "/" ++ fileName) ∧
    (∀ k ≤ n, (∀ j < k, Passes files (D j)) →
      (files.stat (candidate (D k)) = .file →
        (find files start : Except ManifestError (Option String)) =
          .ok (some (candidate (D k)))) ∧
      ∀ reason, files.stat (candidate (D k)) = .failed reason →
        (find files start : Except ManifestError (Option String)) =
          .error (.unsearchable (candidate (D k)) reason)) ∧
    ((∀ k ≤ n, Passes files (D k)) →
      (find files start : Except ManifestError (Option String)) = .ok none) := by
  have hrooted := Path.rooted_ofString h
  refine ⟨⟨Path.above_depth hrooted, fun k hk => ?_⟩, fun k => ?_, fun k hk hbefore => ?_,
    fun hall => ?_⟩
  · rw [← Path.parent_above]
    exact ⟨rfl, Path.parent_above_ne hk⟩
  · exact candidate_text ((Path.rooted_above _ k).trans hrooted)
  · rw [find_of_passes h hk hbefore]
    exact ⟨search_file, fun reason => search_failed⟩
  · -- The search comes to the root, which is passed over as well and is its own parent.
    have hroot : ((Path.ofString start).above (Path.ofString start).depth).parent =
        (Path.ofString start).above (Path.ofString start).depth := by
      rw [Path.above_depth hrooted]
      rfl
    rw [find_of_passes h (Nat.le_refl _) fun j hj => hall j (Nat.le_of_lt hj),
      search_of_passes (hall _ (Nat.le_refl _)), if_pos hroot]

/-- A manifest two levels up, with a directory of its name between, and a path above it that cannot be
followed. -/
def nested : FileSystem Id where
  workingDirectory := "/"
  stat path :=
    if path = "/w/a/sigh.yml" then .directory
    else if path = "/w/sigh.yml" then .file
    else if path = "/sigh.yml" then .failed "permission denied"
    else .absent
  read _ := .unopened absentReason

theorem nested_nearest : Path.isAbsolute "/w/a/b" = true ∧
    (find nested "/w/a/b" : Except ManifestError (Option String)) = .ok (some "/w/sigh.yml") ∧
    (find nested "/v" : Except ManifestError (Option String)) =
      .error (.unsearchable "/sigh.yml" "permission denied") := by
  have hb : Passes nested ((Path.ofString "/w/a/b").above 0) := .inl rfl
  have ha : Passes nested ((Path.ofString "/w/a/b").above 1) := .inr rfl
  have hv : Passes nested ((Path.ofString "/v").above 0) := .inl rfl
  have hfile := (@find_nearest nested "/w/a/b" (by decide)).2.2.1 2 (by decide)
    (by rintro (_ | _ | j) hj; exacts [hb, ha, by omega])
  have hfailed := (@find_nearest nested "/v" (by decide)).2.2.1 1 (by decide)
    (by rintro (_ | j) hj; exacts [hv, by omega])
  exact ⟨by decide, hfile.1 rfl, hfailed.2 _ rfl⟩

end Manifest

end LogicScript
