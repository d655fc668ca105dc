-- Reference counting of suppressed positions: after any run of holds and releases, each
-- position's count is the number of handles given for it that were not let go, and the map,
-- its size, its membership and the data paths it gives say the same.
import Mathlib
import YangDiagram.Diagram.Scopes
import YangDiagram.Proofs.Diagram.Grouping

namespace YangDiagram.Diagram

open YangDiagram.Schema

namespace Scopes

variable {κ : Type}

/-! ## Runs of steps -/

/-- The positions of the acquires of a run, in order: the `h`-th is where handle `h` points. -/
def given (steps : List (Step κ)) : List κ :=
  steps.filterMap fun
    | .acquire p => some p
    | _ => none

theorem given_snoc (steps : List (Step κ)) (o : Step κ) :
    given (steps ++ [o]) = given steps ++ (match o with
      | .acquire p => [p]
      | _ => []) := by
  cases o <;> simp [given]

/-- Handle `h` holds position `p` after a run: the `h`-th acquire was for `p`, and no step after
it lets `h` go. -/
def Holds (steps : List (Step κ)) (h : Nat) (p : κ) : Prop :=
  ∃ pre post, steps = pre ++ .acquire p :: post ∧ (given pre).length = h ∧
    .release (some h) ∉ post

theorem Holds.lt_length {steps : List (Step κ)} {h : Nat} {p : κ} (hh : Holds steps h p) :
    h < (given steps).length := by
  obtain ⟨pre, post, rfl, rfl, -⟩ := hh
  simp [given, List.filterMap_append]

/-- After one more step, a handle holds a position when it held it before and the step does not
let it go, or the step is the acquire that gave it. -/
theorem holds_snoc (steps : List (Step κ)) (o : Step κ) (h : Nat) (p : κ) :
    Holds (steps ++ [o]) h p ↔
      (Holds steps h p ∧ o ≠ .release (some h)) ∨ (o = .acquire p ∧ h = (given steps).length) := by
  constructor
  · rintro ⟨pre, post, hsplit, hlen, hfree⟩
    rcases List.eq_nil_or_concat post with rfl | ⟨post', o', rfl⟩
    · obtain ⟨rfl, ho⟩ := List.append_inj' hsplit rfl
      simp only [List.cons.injEq, and_true] at ho
      exact .inr ⟨ho, hlen.symm⟩
    · rw [List.concat_eq_append, ← List.cons_append, ← List.append_assoc] at hsplit
      obtain ⟨rfl, ho⟩ := List.append_inj' hsplit rfl
      simp only [List.cons.injEq, and_true] at ho
      subst ho
      simp only [List.concat_eq_append, List.mem_append, List.mem_singleton, not_or] at hfree
      exact .inl ⟨⟨pre, post', rfl, hlen, hfree.1⟩, fun heq => hfree.2 heq.symm⟩
  · rintro (⟨⟨pre, post, rfl, hlen, hfree⟩, ho⟩ | ⟨rfl, rfl⟩)
    · refine ⟨pre, post ++ [o], by simp, hlen, ?_⟩
      simp only [List.mem_append, List.mem_singleton, not_or]
      exact ⟨hfree, fun heq => ho heq.symm⟩
    · exact ⟨steps, [], rfl, rfl, by simp⟩

variable [DecidableEq κ]

/-- What a step does to the handles: an acquire gives one more, a release names one to let go,
and the other steps change nothing. -/
def update (s : Scopes κ) : Step κ → Scopes κ
  | .acquire p => s.acquire p
  | .release (some h) => s.release h
  | _ => s

/-- The handles after a run of steps from none. -/
def run (steps : List (Step κ)) : Scopes κ := steps.foldl update {}

@[simp] theorem run_nil : run ([] : List (Step κ)) = {} := rfl

theorem run_snoc (steps : List (Step κ)) (o : Step κ) : run (steps ++ [o]) = (run steps).update o := by
  simp [run]

/-! ## The handles of a run -/

/-- The handles stand for a run: one per acquire, and each holds its position exactly while the
run has not let it go. -/
structure Represents (steps : List (Step κ)) (s : Scopes κ) : Prop where
  length : s.handles.length = (given steps).length
  holds : ∀ h p, s.handles[h]? = some (some p) ↔ Holds steps h p

theorem represents_nil : Represents ([] : List (Step κ)) {} :=
  ⟨rfl, fun h p => by simp [Holds, given]⟩

theorem Represents.snoc {steps : List (Step κ)} {s : Scopes κ} (hs : Represents steps s)
    (o : Step κ) : Represents (steps ++ [o]) (s.update o) := by
  constructor
  · cases o with
    | acquire p => simp [update, given_snoc, hs.length]
    | release h => cases h <;> simp [update, release_handles, given_snoc, hs.length]
    | has p => simp [update, given_snoc, hs.length]
    | dataPath path => simp [update, given_snoc, hs.length]
  · intro h p
    rw [holds_snoc, ← hs.holds]
    cases o with
    | acquire q =>
      have hlen := hs.length
      have hpast : ∀ j, (given steps).length ≤ j → s.handles[j]? = none :=
        fun j hj => List.getElem?_eq_none (by omega)
      simp only [update, acquire_handles, List.getElem?_append, hlen, ne_eq, reduceCtorEq,
        not_false_eq_true, and_true, Step.acquire.injEq]
      rcases Nat.lt_trichotomy h (given steps).length with hlt | rfl | hgt
      · simp [hlt, Nat.ne_of_lt hlt]
      · simp [hpast _ (le_refl _), eq_comm]
      · have hpos : h - (given steps).length ≠ 0 := by omega
        simp [Nat.not_lt.mpr hgt.le, Nat.ne_of_gt hgt, hpos, hpast h hgt.le]
    | release h' =>
      cases h' with
      | none => simp [update]
      | some h' =>
        simp only [update, release_handles, List.getElem?_set, reduceCtorEq, ne_eq, Step.release.injEq,
          Option.some.injEq]
        by_cases heq : h' = h
        · subst heq
          by_cases hlt : h' < s.handles.length
          · simp [hlt]
          · simp [hlt]
        · simp [heq]
    | has q => simp [update]
    | dataPath path => simp [update]

theorem represents_run (steps : List (Step κ)) : Represents steps (run steps) := by
  induction steps using List.reverseRecOn with
  | nil => exact represents_nil
  | append_singleton steps o ih =>
    rw [run_snoc]
    exact ih.snoc o

/-- The handles a run leaves hold exactly the positions the run has not let go. -/
theorem handles_run (steps : List (Step κ)) (h : Nat) (p : κ) :
    (run steps).handles[h]? = some (some p) ↔ Holds steps h p :=
  (represents_run steps).holds h p

/-! ## What a run answers -/

theorem mem_held_iff {s : Scopes κ} {p : κ} :
    p ∈ s.held ↔ ∃ h : Nat, s.handles[h]? = some (some p) := by
  simp only [held, List.mem_filterMap, id_eq]
  constructor
  · rintro ⟨o, ho, rfl⟩
    exact List.mem_iff_getElem?.mp ho
  · rintro ⟨h, hh⟩
    exact ⟨some p, List.mem_iff_getElem?.mpr ⟨h, hh⟩, rfl⟩

theorem count_held (s : Scopes κ) (p : κ) : s.held.count p = s.handles.count (some p) := by
  simp only [held]
  generalize s.handles = l
  induction l with
  | nil => rfl
  | cons o l ih => cases o <;> simpa [List.count_cons] using ih

theorem count_eq_ncard {α : Type} [BEq α] [LawfulBEq α] (a : α) (l : List α) :
    l.count a = {i : Nat | l[i]? = some a}.ncard := by
  induction l using List.reverseRecOn with
  | nil => simp
  | append_singleton l x ih =>
    have hfin : {i : Nat | l[i]? = some a}.Finite :=
      (Set.finite_Iio l.length).subset fun i hi => (List.getElem?_eq_some_iff.mp hi).1
    have hlast : ∀ i, (l ++ [x])[i]? = some a ↔ l[i]? = some a ∨ (i = l.length ∧ x = a) := by
      intro i
      rcases Nat.lt_trichotomy i l.length with hlt | rfl | hgt
      · simp [List.getElem?_append_left hlt, Nat.ne_of_lt hlt]
      · simp
      · simp [List.getElem?_eq_none (Nat.le_of_lt hgt), Nat.ne_of_gt hgt,
          List.getElem?_append_right (Nat.le_of_lt hgt), Nat.sub_ne_zero_of_lt hgt]
    by_cases hx : x = a
    · subst hx
      have hset : {i : Nat | (l ++ [x])[i]? = some x} = insert l.length {i : Nat | l[i]? = some x} := by
        ext i
        simp [hlast, or_comm]
      rw [hset, Set.ncard_insert_of_notMem (by simp) hfin, ← ih]
      simp
    · have hset : {i : Nat | (l ++ [x])[i]? = some a} = {i : Nat | l[i]? = some a} := by
        ext i
        simp [hlast, hx]
      rw [hset, ← ih]
      simp [hx]

/-- The count of a position after a run is the number of handles that still hold it. -/
theorem count_run (steps : List (Step κ)) (p : κ) :
    (run steps).count p = {h | Holds steps h p}.ncard := by
  rw [count_eq_count_held, count_held, count_eq_ncard]
  simp only [handles_run]

theorem has_run_iff (steps : List (Step κ)) (p : κ) :
    (run steps).has p = true ↔ ∃ h, Holds steps h p := by
  simp only [has_eq_contains, List.contains_iff_mem, mem_held_iff, handles_run]

/-- The number of suppressed positions is the number of positions that some handle holds. -/
theorem size_run (steps : List (Step κ)) :
    (run steps).size = {p | ∃ h, Holds steps h p}.ncard := by
  have hset : {p | ∃ h, Holds steps h p} = ↑((run steps).counts.map Prod.fst).toFinset := by
    ext p
    simp only [Set.mem_ofPred_eq, List.coe_toFinset, ← has_run_iff, has, isSome_lookupKey_iff]
  rw [hset, Set.ncard_coe_finset, List.toFinset_card_of_nodup (run steps).counted_held.nodup,
    List.length_map, size]

open Classical in
/-- Reference counting: after any run of holds and releases, a position's count is the number
of live handles on it, membership, size and data paths follow, and with all let go it is empty. -/
theorem run_counts_holds (key : Nat → κ) (steps : List (Step κ)) :
    (∀ p, (run steps).count p = {h | Holds steps h p}.ncard) ∧
      (∀ p, (run steps).has p = true ↔ ∃ h, Holds steps h p) ∧
      (run steps).size = {p | ∃ h, Holds steps h p}.ncard ∧
      (∀ {α : Type} (path : List α), (run steps).dataPath key path =
        (path.zipIdx.filter fun e => !decide (∃ h, Holds steps h (key e.2))).map Prod.fst) ∧
      ((∀ pre p post, steps = pre ++ .acquire p :: post →
          .release (some (given pre).length) ∈ post) → (run steps).counts = []) := by
  have hnone : (∀ pre p post, steps = pre ++ .acquire p :: post →
      .release (some (given pre).length) ∈ post) → ∀ h p, ¬ Holds steps h p := by
    rintro hall h p ⟨pre, post, hsplit, rfl, hfree⟩
    exact hfree (hall pre p post hsplit)
  refine ⟨count_run steps, has_run_iff steps, size_run steps, fun path => ?_, fun hall => ?_⟩
  · simp only [dataPath]
    congr 2
    funext e
    congr 1
    exact Bool.eq_iff_iff.mpr ((has_run_iff steps (key e.2)).trans decide_eq_true_iff.symm)
  · rw [counts_eq_nil_iff, List.eq_nil_iff_forall_not_mem]
    intro p hp
    obtain ⟨h, hh⟩ := mem_held_iff.mp hp
    exact hnone hall h p ((handles_run steps h p).mp hh)

/-! ## The answers of a replay -/

def answer (key : Nat → κ) (s : Scopes κ) : Step κ → Answer
  | .has p => .has (s.has p)
  | .dataPath path => .dataPath (s.dataPath key path)
  | _ => .none

theorem replay_cons (key : Nat → κ) (s : Scopes κ) (o : Step κ) (rest : List (Step κ)) :
    replay key s (o :: rest) = ((s.update o).size, answer key s o) :: replay key (s.update o) rest := by
  cases o with
  | acquire p => rfl
  | release h => cases h <;> rfl
  | has p => rfl
  | dataPath path => rfl

/-- A replay answers each step with the number of positions suppressed after it and, for a
question, the answer of the handles the steps before it leave. -/
theorem getElem?_replay (key : Nat → κ) (steps : List (Step κ)) (j : Nat) :
    (replay key {} steps)[j]? = steps[j]?.map fun o =>
      ((run (steps.take (j + 1))).size, answer key (run (steps.take j)) o) := by
  suffices h : ∀ (s : Scopes κ) (steps : List (Step κ)) (j : Nat),
      (replay key s steps)[j]? = steps[j]?.map fun o =>
        (((steps.take (j + 1)).foldl update s).size, answer key ((steps.take j).foldl update s) o) from
    h {} steps j
  intro s steps
  induction steps generalizing s with
  | nil => simp [replay]
  | cons o rest ih =>
    intro j
    rw [replay_cons]
    cases j with
    | zero => simp
    | succ j => simp [ih]

end Scopes

end YangDiagram.Diagram
