-- The walker puts its state back: stopped between any two lines, its pending finally blocks
-- reset the budget, pop every flag without underflow and let go of every position. One step
-- keeps the invariant `Resumable`.
import YangDiagram.Diagram.Walker

namespace YangDiagram.Diagram

open YangDiagram.Json YangDiagram.Schema

/-! ## Small facts about the parts of the state -/

theorem Connectors.pop?_push (c : Connectors) (v : Value) : (c.push v).pop? = some c := by
  simp [Connectors.pop?, Connectors.push]

theorem Connectors.pop?_eq_none (c : Connectors) : c.pop? = none ↔ c.flags = [] := by
  unfold Connectors.pop?
  split <;> simp_all

/-- The handles with one more handle given and let go at once. -/
def Scopes.spent {κ : Type} [DecidableEq κ] (s : Scopes κ) : Scopes κ where
  counts := s.counts
  handles := s.handles ++ [none]
  counted := by simpa using s.counted

section Spent

variable {κ : Type} [DecidableEq κ]

@[simp] theorem Scopes.spent_counts (s : Scopes κ) : s.spent.counts = s.counts := rfl

@[simp] theorem Scopes.spent_handles (s : Scopes κ) : s.spent.handles = s.handles ++ [none] := rfl

@[simp] theorem Scopes.held_spent (s : Scopes κ) : s.spent.held = s.held := by
  simp [Scopes.held]

/-- A position held once more and let go again leaves the counts as they were. -/
theorem Scopes.countDown_countUp {counts : List (κ × Nat)} {held : List κ}
    (h : Scopes.Counted counts held) (p : κ) :
    Scopes.countDown (Scopes.countUp counts p) p = counts := by
  unfold Scopes.countDown Scopes.countUp
  cases hl : lookupKey counts p with
  | none =>
    simp only [Option.getD_none, lookupKey_putKey, if_true, Option.getD_some, Nat.zero_add,
      Nat.le_refl]
    exact eraseKey_putKey_of_lookupKey_eq_none hl _
  | some v =>
    have hv : 0 < v := h.pos _ (mem_of_lookupKey hl)
    have hgt : ¬ v + 1 ≤ 1 := by omega
    simp only [Option.getD_some, lookupKey_putKey, if_true, hgt, if_false, Nat.add_sub_cancel,
      putKey_putKey]
    exact putKey_of_lookupKey hl

theorem Scopes.release_acquire (s : Scopes κ) (p : κ) :
    (s.acquire p).release s.handles.length = s.spent := by
  have hh : (s.acquire p).handles[s.handles.length]? = some (some p) := by simp
  ext1
  · rw [Scopes.release_counts, hh]
    exact Scopes.countDown_countUp s.counted p
  · simp [Scopes.release_handles]

/-- Letting go of a handle commutes with one more handle let go at the end. -/
theorem Scopes.release_spent (s : Scopes κ) (h : Nat) : s.spent.release h = (s.release h).spent := by
  ext1
  · simp only [Scopes.release_counts, Scopes.spent_counts, Scopes.spent_handles]
    by_cases hlt : h < s.handles.length
    · rw [List.getElem?_append_left hlt]
    · rw [List.getElem?_eq_none (by omega : s.handles.length ≤ h),
        List.getElem?_append_right (by omega)]
      cases h - s.handles.length <;> rfl
  · simp only [Scopes.release_handles, Scopes.spent_handles]
    rw [List.set_append]
    split
    · rfl
    · rename_i hlt
      have hset : s.handles.set h none = s.handles := List.set_eq_of_length_le (by omega)
      rw [hset]
      cases hk : h - s.handles.length with
      | zero => rfl
      | succ k => rfl

end Spent

@[simp] theorem WalkState.flags_push (st : WalkState) (d : Nat) (b : Bool) :
    { st with depth := d, connectors := st.connectors.push (.bool b) }.flags = st.flags ++ [b] := by
  simp [WalkState.flags, Connectors.push, Value.truthy]

/-- The state after a handle was given and let go again: one more handle, held by nothing. -/
def WalkState.afterHold (st : WalkState) : WalkState :=
  { st with suppressed := st.suppressed.spent }

theorem Cleanup.run_afterHold (st : WalkState) (c : Cleanup) :
    c.run st.afterHold = (c.run st).map WalkState.afterHold := by
  cases c with
  | release h =>
    simp only [Cleanup.run, WalkState.afterHold, Scopes.release_spent, Except.map]
  | pop =>
    simp only [Cleanup.run, WalkState.afterHold]
    split <;> rfl
  | restore d => rfl

/-- The only way a finally block fails is a pop on an empty stack. -/
theorem Cleanup.run_eq_error (st : WalkState) (c : Cleanup) (e : Text) :
    c.run st = .error e ↔ c = .pop ∧ st.connectors.flags = [] ∧ e = Connectors.emptyMessage := by
  cases c with
  | release h => simp [Cleanup.run]
  | restore d => simp [Cleanup.run]
  | pop =>
    simp only [Cleanup.run, true_and]
    cases hp : st.connectors.pop? with
    | none =>
      have := (Connectors.pop?_eq_none st.connectors).mp hp
      simp only [Except.error.injEq, this, true_and]
      exact eq_comm
    | some c =>
      have hne : st.connectors.flags ≠ [] := fun h =>
        absurd ((Connectors.pop?_eq_none st.connectors).mpr h) (by simp [hp])
      simp [hne]

/-! ## The invariant -/

def Line.connectors : Line → List Bool
  | .heading _ => []
  | .row _ place _ => place.connectors

/-- A state a walk starts from and ends in: the full budget, no flag, no position held. -/
def WalkState.Restored (D : Nat) (st : WalkState) : Prop :=
  st.depth = D ∧ st.connectors.flags = [] ∧ st.suppressed.held = []

/-- A row planned from a state: with the state's budget and flags, which add up to the full
budget. -/
def Plan.Fits (D : Nat) (st : WalkState) (p : Plan) : Prop :=
  p.depth = st.depth ∧ p.connectors = st.flags ∧ st.depth + st.flags.length = D

/-- The instructions still to run can run from a state and undo what it holds, each line given
out with the budget less its level, until nothing is left and the state is restored. -/
def Resumable (D : Nat) : WalkState → List Instr → Prop
  | st, [] => st.Restored D
  | st, .emit l :: k => st.depth + l.connectors.length = D ∧ Resumable D st k
  | st, .siblings .. :: k => st.depth + st.flags.length = D ∧ Resumable D st k
  | st, .item _ _ p _ _ :: k => p.Fits D st ∧ Resumable D st k
  | st, .descend _ _ p _ :: k => p.Fits D st ∧ Resumable D st k
  | st, .children .. :: k => st.depth + st.flags.length = D ∧ Resumable D st k
  | st, .cleanup c :: k => ∃ st', c.run st = .ok st' ∧ Resumable D st' k

theorem Resumable.afterHold {D : Nat} {st : WalkState} {k : List Instr}
    (h : Resumable D st k) : Resumable D st.afterHold k := by
  induction k generalizing st with
  | nil =>
    obtain ⟨hd, hc, hs⟩ := h
    exact ⟨hd, hc, by simpa [WalkState.afterHold] using hs⟩
  | cons i k ih =>
    cases i with
    | emit l => exact ⟨h.1, ih h.2⟩
    | siblings => exact ⟨h.1, ih h.2⟩
    | item => exact ⟨h.1, ih h.2⟩
    | descend => exact ⟨h.1, ih h.2⟩
    | children => exact ⟨h.1, ih h.2⟩
    | cleanup c =>
      obtain ⟨st', hrun, hk⟩ := h
      exact ⟨st'.afterHold, by rw [Cleanup.run_afterHold, hrun]; rfl, ih hk⟩

theorem resumable_rows {D : Nat} {st : WalkState} {k : List Instr} (rows : List Instr)
    (hrows : ∀ i ∈ rows, ∃ t n p more w, i = .item t n p more w ∧ p.Fits D st)
    (hk : Resumable D st k) : Resumable D st (rows ++ k) := by
  induction rows with
  | nil => exact hk
  | cons i rows ih =>
    obtain ⟨t, n, p, more, w, rfl, hp⟩ := hrows i (by simp)
    exact ⟨hp, ih (fun j hj => hrows j (by simp [hj]))⟩

theorem resumable_planRows {D : Nat} {st : WalkState} {k : List Instr} (role : Role)
    (keys : Option KeyScope) (ts : List SchemaTree) (w : Nat)
    (hsum : st.depth + st.flags.length = D) (hk : Resumable D st k) :
    Resumable D st (planRows st role keys ts w ++ k) := by
  refine resumable_rows _ ?_ hk
  intro i hi
  simp only [planRows, List.mem_filterMap, Option.map_eq_some_iff] at hi
  obtain ⟨⟨t, j⟩, -, n, -, rfl⟩ := hi
  exact ⟨t, n, _, _, w, rfl, rfl, rfl, hsum⟩

theorem childPlan_choice_suppressed (env : Env) (t : SchemaTree) (n : Node) (pl : Place)
    (hn : n.kind = .choice) :
    (childPlan env t n pl).2.suppressed = pl.suppressed.acquire (t.path.length - 1 : Nat) := by
  cases n <;> simp_all [Node.kind, childPlan]

/-! ## One step, one pull, a run of pulls -/

/-- A step from a state that can run the instructions succeeds, gives a line out with the
budget less the line's level, and leaves instructions that can run from the state after it. -/
theorem Instr.step_resumable {D : Nat} (env : Env) {st : WalkState} {i : Instr} {k : List Instr}
    (h : Resumable D st (i :: k)) :
    ∃ out st' new, i.step env st = .ok (out, st', new) ∧ Resumable D st' (new ++ k) ∧
      ∀ l, out = some l → st'.depth + l.connectors.length = D := by
  cases i with
  | emit l =>
    obtain ⟨hl, hk⟩ := h
    refine ⟨some l, st, [], rfl, hk, ?_⟩
    rintro l' ⟨⟩
    exact hl
  | siblings ts role keys =>
    obtain ⟨hsum, hk⟩ := h
    exact ⟨none, st, _, rfl, resumable_planRows role keys ts _ hsum hk, by simp⟩
  | item t n p more w =>
    obtain ⟨⟨hd, hc, hsum⟩, hk⟩ := h
    have hline : ∀ s, st.depth + (Line.row n (p.place s) (rowOf env n (p.place s) w)).connectors.length
        = D := by
      intro s
      simp only [Line.connectors, Plan.place, hc]
      exact hsum
    by_cases hcase : n.kind = .case
    · simp only [Instr.step, hcase, if_true]
      refine ⟨_, _, _, rfl, ?_, ?_⟩
      · refine ⟨⟨hd, hc, hsum⟩, st.afterHold, ?_, hk.afterHold⟩
        simp only [Cleanup.run, Scopes.release_acquire]
        rfl
      · rintro l ⟨⟩
        exact hline _
    · simp only [Instr.step, hcase, if_false]
      refine ⟨_, _, _, rfl, ⟨⟨hd, hc, hsum⟩, hk⟩, ?_⟩
      rintro l ⟨⟩
      exact hline _
  | descend t n p more =>
    obtain ⟨⟨hd, hc, hsum⟩, hk⟩ := h
    have hback : { ({ st with depth := p.depth - 1 } : WalkState) with depth := p.depth } = st := by
      rw [hd]
    by_cases hlow : p.depth ≤ 1
    · simp only [Instr.step, hlow, if_true]
      refine ⟨_, _, _, rfl, ?_, by simp⟩
      exact ⟨_, rfl, by rw [hback]; exact hk⟩
    · simp only [Instr.step, hlow, if_false]
      refine ⟨_, _, _, rfl, ?_, by simp⟩
      refine ⟨?_, _, by simp only [Cleanup.run, Connectors.pop?_push]; rfl, _, rfl, ?_⟩
      · simp only [WalkState.flags_push, List.length_append, List.length_singleton]
        omega
      · rw [hback]
        exact hk
  | children t n p =>
    obtain ⟨hsum, hk⟩ := h
    by_cases hchoice : n.kind = .choice
    · simp only [Instr.step, hchoice, if_true]
      refine ⟨_, _, _, rfl, ?_, by simp⟩
      refine ⟨hsum, st.afterHold, ?_, hk.afterHold⟩
      simp only [Cleanup.run, childPlan_choice_suppressed env t n _ hchoice, Plan.place,
        Scopes.release_acquire]
      rfl
    · simp only [Instr.step, hchoice, if_false]
      exact ⟨_, _, _, rfl, ⟨hsum, hk⟩, by simp⟩
  | cleanup c =>
    obtain ⟨st', hrun, hk⟩ := h
    exact ⟨none, st', [], by simp [Instr.step, hrun, Except.map], hk, by simp⟩

/-- A pull from a walker that can run succeeds, gives its line out with the budget less the
line's level, and leaves a walker that can run; a pull that gives no line has reached the end. -/
theorem Walker.pull_resumable {D : Nat} (w : Walker) (h : Resumable D w.state w.rest) :
    ∃ out w', w.pull = .ok (out, w') ∧ Resumable D w'.state w'.rest ∧
      (∀ l, out = some l → w'.state.depth + l.connectors.length = D) ∧
      (out = none → w'.rest = []) := by
  fun_induction Walker.pull w with
  | case1 env st => exact ⟨none, _, rfl, h, by simp, fun _ => rfl⟩
  | case2 env st i k e hstep =>
    obtain ⟨out, st', new, hs, -, -⟩ := Instr.step_resumable env h
    rw [hs] at hstep
    cases hstep
  | case3 env st i k l st' new hstep =>
    obtain ⟨out, st'', new', hs, hk, hl⟩ := Instr.step_resumable env h
    rw [hs] at hstep
    cases hstep
    exact ⟨some l, _, rfl, hk, hl, by simp⟩
  | case4 env st i k st' new hstep ih =>
    obtain ⟨out, st'', new', hs, hk, -⟩ := Instr.step_resumable env h
    rw [hs] at hstep
    cases hstep
    exact ih hk

/-- A run of pulls from a walker that can run succeeds, each line given out with the budget less
its level, and leaves a walker that can run. -/
theorem Walker.take_resumable {D : Nat} (n : Nat) (w : Walker) (h : Resumable D w.state w.rest) :
    ∃ ys w', w.take n = .ok (ys, w') ∧ Resumable D w'.state w'.rest ∧
      ∀ y ∈ ys, y.2.depth + y.1.connectors.length = D := by
  induction n generalizing w with
  | zero => exact ⟨[], w, rfl, h, by simp⟩
  | succ n ih =>
    obtain ⟨out, w', hpull, hw', hl, -⟩ := w.pull_resumable h
    cases out with
    | none => exact ⟨[], w', by simp [Walker.take, hpull], hw', by simp⟩
    | some l =>
      obtain ⟨ys, w'', htake, hw'', hys⟩ := ih w' hw'
      refine ⟨(l, w'.state) :: ys, w'', by simp [Walker.take, hpull, htake, Except.map], hw'', ?_⟩
      intro y hy
      rcases List.mem_cons.mp hy with rfl | hy
      · exact hl l rfl
      · exact hys y hy

/-- Stopping a walker that can run runs its pending finally blocks, all of which succeed, and
leaves the state restored. -/
theorem Walker.stop_restored {D : Nat} (w : Walker) (h : Resumable D w.state w.rest) :
    ∃ st, w.stop = .ok st ∧ st.Restored D := by
  obtain ⟨env, st, k⟩ := w
  simp only [Walker.stop]
  simp only at h
  induction k generalizing st with
  | nil => exact ⟨st, rfl, h⟩
  | cons i k ih =>
    cases i with
    | emit => exact ih st h.2
    | siblings => exact ih st h.2
    | item => exact ih st h.2
    | descend => exact ih st h.2
    | children => exact ih st h.2
    | cleanup c =>
      obtain ⟨st', hrun, hk⟩ := h
      obtain ⟨st'', hfold, hr⟩ := ih st' hk
      refine ⟨st'', ?_, hr⟩
      rw [List.foldlM_cons]
      show (c.run st >>= _) = _
      rw [hrun]
      exact hfold

/-! ## The start -/

/-- Headings and lists of siblings, each at the top, run from a restored state. -/
theorem resumable_top {D : Nat} {st : WalkState} (hst : st.Restored D) (top : List Instr)
    (htop : ∀ i ∈ top, (∃ text, i = .emit (.heading text)) ∨ ∃ ts role, i = .siblings ts role none) :
    Resumable D st top := by
  obtain ⟨hd, hc, hs⟩ := hst
  have hflags : st.flags = [] := by simp [WalkState.flags, hc]
  induction top with
  | nil => exact ⟨hd, hc, hs⟩
  | cons i top ih =>
    have hrest := ih (fun j hj => htop j (by simp [hj]))
    rcases htop i (by simp) with ⟨text, rfl⟩ | ⟨ts, role, rfl⟩
    · exact ⟨by simp [Line.connectors, hd], hrest⟩
    · exact ⟨by simp [hflags, hd], hrest⟩

theorem Walker.start_resumable (ctx : Context) (tree : SchemaTree) (m : Module) (s : Settings) :
    Resumable s.budget (Walker.start ctx tree m s).state (Walker.start ctx tree m s).rest := by
  have hst : (Walker.start ctx tree m s).state.Restored s.budget := ⟨rfl, rfl, rfl⟩
  refine resumable_top hst _ ?_
  have hsection : ∀ text ts role,
      ∀ i ∈ [Instr.emit (.heading text), .siblings ts role none],
        (∃ text, i = .emit (.heading text)) ∨ ∃ ts role, i = .siblings ts role none := by
    intro text ts role i hi
    simp only [List.mem_cons, List.not_mem_nil, or_false] at hi
    rcases hi with rfl | rfl
    · exact .inl ⟨_, rfl⟩
    · exact .inr ⟨_, _, rfl⟩
  intro i hi
  simp only [Walker.start, List.mem_append, List.mem_flatMap] at hi
  rcases hi with ((hi | ⟨g, -, hi⟩) | hi) | hi
  · exact hsection _ _ _ i hi
  · exact hsection _ _ _ i hi
  · split at hi
    · simp at hi
    · exact hsection _ _ _ i hi
  · split at hi
    · simp at hi
    · exact hsection _ _ _ i hi

/-! ## Every exit puts the state back -/

/-- Stopped early or pulled to its end, the walker puts its state back: the full budget, no
flag, no position held or counted, and no pop of an empty stack on the way. -/
theorem walker_restores_state (ctx : Context) (tree : SchemaTree) (m : Module) (s : Settings)
    (n : Nat) :
    ∃ ys w, (Walker.start ctx tree m s).take n = .ok (ys, w) ∧
      (∀ y ∈ ys, y.2.depth + y.1.connectors.length = s.budget) ∧
      ∃ st, w.stop = .ok st ∧
        st.depth = s.budget ∧ st.connectors.flags = [] ∧ st.suppressed.held = [] ∧
          st.suppressed.counts = [] := by
  obtain ⟨ys, w, htake, hw, hys⟩ :=
    (Walker.start ctx tree m s).take_resumable n (Walker.start_resumable ctx tree m s)
  obtain ⟨st, hstop, hd, hc, hs⟩ := w.stop_restored hw
  exact ⟨ys, w, htake, hys, st, hstop, hd, hc, hs, st.suppressed.counts_eq_nil_iff.mpr hs⟩

end YangDiagram.Diagram
