-- Suppressed positions: each hold counts a position once more in a count map and gives a
-- handle, and the first release of a handle counts it once less, a zero count leaving the map.
-- The data path of a schema path leaves out its suppressed positions.
import YangDiagram.Schema.Node

namespace YangDiagram.Diagram

open YangDiagram.Schema

namespace Scopes

variable {κ : Type} [DecidableEq κ]

/-- One more hold on a position in a count map: its count goes up by one, from none. -/
def countUp (counts : List (κ × Nat)) (p : κ) : List (κ × Nat) :=
  putKey counts p ((lookupKey counts p).getD 0 + 1)

/-- One hold on a position let go in a count map: a count of at most one leaves the map, a larger
one goes down by one. -/
def countDown (counts : List (κ × Nat)) (p : κ) : List (κ × Nat) :=
  let n := (lookupKey counts p).getD 0
  if n ≤ 1 then eraseKey counts p else putKey counts p (n - 1)

theorem getD_countUp (counts : List (κ × Nat)) (p q : κ) :
    (lookupKey (countUp counts p) q).getD 0 =
      (lookupKey counts q).getD 0 + if p = q then 1 else 0 := by
  by_cases h : p = q
  · subst h
    simp [countUp, lookupKey_putKey]
  · simp [countUp, lookupKey_putKey, h]

theorem getD_countDown (counts : List (κ × Nat)) (p q : κ) :
    (lookupKey (countDown counts p) q).getD 0 =
      (lookupKey counts q).getD 0 - if p = q then 1 else 0 := by
  by_cases h : p = q
  · subst h
    simp only [countDown]
    split
    · simp only [lookupKey_eraseKey, if_true, Option.getD_none]
      omega
    · simp [lookupKey_putKey]
  · simp only [countDown]
    split <;> simp [lookupKey_eraseKey, lookupKey_putKey, h]

/-- A count map agrees with a list of held positions: each position is mapped to the number of
times it is held, a position held nowhere is not in the map, and no position is in it twice. -/
structure Counted (counts : List (κ × Nat)) (held : List κ) : Prop where
  count_eq : ∀ p, (lookupKey counts p).getD 0 = held.count p
  nodup : (counts.map Prod.fst).Nodup
  pos : ∀ e ∈ counts, 0 < e.2

theorem Counted.nil : Counted ([] : List (κ × Nat)) [] :=
  ⟨fun p => by simp [lookupKey], by simp, by simp⟩

theorem Counted.up {counts : List (κ × Nat)} {held : List κ} (h : Counted counts held)
    (p : κ) : Counted (countUp counts p) (held ++ [p]) where
  count_eq q := by
    rw [getD_countUp, h.count_eq, List.count_append, List.count_singleton]
    by_cases hq : p = q <;> simp [hq]
  nodup := nodup_keys_putKey h.nodup _ _
  pos e he := by
    rcases mem_putKey he with he | rfl
    · exact h.pos e he
    · exact Nat.succ_pos _

theorem Counted.down {counts : List (κ × Nat)} {held held' : List κ}
    (h : Counted counts held) (p : κ)
    (hc : ∀ q, held.count q = held'.count q + if p = q then 1 else 0) :
    Counted (countDown counts p) held' where
  count_eq q := by
    rw [getD_countDown, h.count_eq, hc]
    simp
  nodup := by
    simp only [countDown]
    split
    · exact nodup_keys_eraseKey h.nodup p
    · exact nodup_keys_putKey h.nodup p _
  pos e he := by
    simp only [countDown] at he
    split at he
    · exact h.pos e (List.mem_filter.mp he).1
    · rcases mem_putKey he with he | rfl
      · exact h.pos e he
      · simp only
        omega

theorem Counted.lookupKey_eq_none_iff {counts : List (κ × Nat)} {held : List κ}
    (h : Counted counts held) (p : κ) : lookupKey counts p = none ↔ p ∉ held := by
  rw [← List.count_eq_zero, ← h.count_eq]
  cases hl : lookupKey counts p with
  | none => simp
  | some n => simpa using Nat.pos_iff_ne_zero.mp (h.pos _ (mem_of_lookupKey hl))

/-- Letting go of a live handle takes one hold of its position off the positions held. -/
theorem count_filterMap_set {l : List (Option κ)} {h : Nat} {p : κ} (hh : l[h]? = some (some p))
    (q : κ) :
    (l.filterMap id).count q = ((l.set h none).filterMap id).count q + if p = q then 1 else 0 := by
  induction l generalizing h with
  | nil => simp at hh
  | cons o l ih =>
    cases h with
    | zero =>
      simp only [List.getElem?_cons_zero, Option.some.injEq] at hh
      subst hh
      by_cases hq : p = q <;> simp [hq]
    | succ h =>
      simp only [List.getElem?_cons_succ] at hh
      have hl := ih hh
      cases o <;> simp [List.count_cons] at hl ⊢ <;> omega

end Scopes

/-- Suppressed positions: how many holds each suppressed position has, and the handles given so
far, in order, each the position it holds or none once let go. -/
@[ext]
structure Scopes (κ : Type) [DecidableEq κ] where
  counts : List (κ × Nat) := []
  handles : List (Option κ) := []
  counted : Scopes.Counted counts (handles.filterMap id) := by exact Scopes.Counted.nil

namespace Scopes

variable {κ : Type} [DecidableEq κ]

instance : Inhabited (Scopes κ) := ⟨{}⟩

/-- Holds a position: its count goes up by one, and the new handle is the number of handles given
before. -/
def acquire (s : Scopes κ) (p : κ) : Scopes κ where
  counts := countUp s.counts p
  handles := s.handles ++ [some p]
  counted := by simpa using s.counted.up p

/-- Lets go of a handle: the first time, its position's count goes down by one and the handle
holds nothing from then on; a handle let go before, or never given, changes nothing. -/
def release (s : Scopes κ) (h : Nat) : Scopes κ :=
  match hh : s.handles[h]? with
  | some (some p) =>
    { counts := countDown s.counts p
      handles := s.handles.set h none
      counted := s.counted.down p (count_filterMap_set hh) }
  | _ => s

/-- The positions the live handles hold, once per handle. -/
def held (s : Scopes κ) : List κ := s.handles.filterMap id

/-- How many holds a position has. -/
def count (s : Scopes κ) (p : κ) : Nat := (lookupKey s.counts p).getD 0

/-- Whether a position is suppressed: whether it is in the map. -/
def has (s : Scopes κ) (p : κ) : Bool := (lookupKey s.counts p).isSome

/-- How many positions are suppressed: the size of the map. -/
def size (s : Scopes κ) : Nat := s.counts.length

@[simp] theorem acquire_counts (s : Scopes κ) (p : κ) : (s.acquire p).counts = countUp s.counts p :=
  rfl

@[simp] theorem acquire_handles (s : Scopes κ) (p : κ) :
    (s.acquire p).handles = s.handles ++ [some p] := rfl

@[simp] theorem held_acquire (s : Scopes κ) (p : κ) : (s.acquire p).held = s.held ++ [p] := by
  simp [held]

theorem release_handles (s : Scopes κ) (h : Nat) : (s.release h).handles = s.handles.set h none := by
  unfold release
  split
  · rfl
  · rename_i hh
    cases hx : s.handles[h]? with
    | none => exact (List.set_eq_of_length_le (List.getElem?_eq_none_iff.mp hx)).symm
    | some o =>
      cases o with
      | none =>
        obtain ⟨hlt, hget⟩ := List.getElem?_eq_some_iff.mp hx
        simp [← hget]
      | some p => exact absurd hx (hh p)

theorem release_counts (s : Scopes κ) (h : Nat) :
    (s.release h).counts = match s.handles[h]? with
      | some (some p) => countDown s.counts p
      | _ => s.counts := by
  unfold release
  split
  · rename_i hh
    dsimp only
    rw [hh]
  · rename_i hh
    split
    · rename_i p hx
      exact absurd hx (hh p)
    · rfl

theorem counted_held (s : Scopes κ) : Counted s.counts s.held := s.counted

theorem count_eq_count_held (s : Scopes κ) (p : κ) : s.count p = s.held.count p :=
  s.counted.count_eq p

/-- A position is suppressed exactly when a live handle holds it. -/
theorem has_eq_contains (s : Scopes κ) (p : κ) : s.has p = s.held.contains p := by
  have hn := s.counted_held.lookupKey_eq_none_iff p
  by_cases hp : p ∈ s.held
  · have hsome : lookupKey s.counts p ≠ none := fun h => hn.mp h hp
    simp [has, hp, Option.isSome_iff_ne_none, hsome]
  · simp [has, hp, hn.mpr hp]

/-- The map is empty exactly when no live handle holds a position. -/
theorem counts_eq_nil_iff (s : Scopes κ) : s.counts = [] ↔ s.held = [] := by
  have hn := s.counted_held.lookupKey_eq_none_iff
  constructor
  · intro h
    exact List.eq_nil_iff_forall_not_mem.mpr fun p => (hn p).mp (by simp [h, lookupKey])
  · intro h
    refine List.eq_nil_iff_forall_not_mem.mpr fun e he => ?_
    have hsome := isSome_lookupKey_iff.mpr (List.mem_map.mpr ⟨e, he, rfl⟩)
    simp [(hn e.1).mpr (by simp [h])] at hsome

/-- A path without the steps whose index, as a position, is suppressed. -/
def dataPath {α : Type} (s : Scopes κ) (key : Nat → κ) (path : List α) : List α :=
  (path.zipIdx.filter fun (_, i) => !s.has (key i)).map (·.1)

/-- A change to the handles, or a question about them. A release names the handle by its
number, or names none that was given. -/
inductive Step (κ : Type) where
  | acquire (p : κ)
  | release (h : Option Nat)
  | has (p : κ)
  | dataPath (path : List Text)

inductive Answer where
  | none
  | has (b : Bool)
  | dataPath (path : List Text)

/-- The number of suppressed positions after each step, with its answer; `key` gives the
position of a path index. -/
def replay (key : Nat → κ) (s : Scopes κ) : List (Step κ) → List (Nat × Answer)
  | [] => []
  | .acquire p :: rest => let s' := s.acquire p; (s'.size, .none) :: replay key s' rest
  | .release h :: rest =>
    let s' := match h with
      | some h => s.release h
      | none => s
    (s'.size, .none) :: replay key s' rest
  | .has p :: rest => (s.size, .has (s.has p)) :: replay key s rest
  | .dataPath path :: rest => (s.size, .dataPath (s.dataPath key path)) :: replay key s rest

end Scopes

end YangDiagram.Diagram
