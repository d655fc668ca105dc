-- Finding a module by name and, optionally, revision: without one, the first module of the
-- latest revision of the name, revisions compared code unit by code unit.
import YangDiagram.Text.Order
import YangDiagram.Schema.Augment

namespace YangDiagram.Schema

/-- `m` is the first of the latest revision among `items`: every item before it has an earlier
revision, and no item after it has a later one. -/
def IsFirstLatest {α : Type} (revision : α → Option Text) (items : List α) (m : α) : Prop :=
  ∃ before after, items = before ++ m :: after ∧
    (∀ v ∈ before, laterRevision (revision m) (revision v) = true) ∧
    ∀ v ∈ after, laterRevision (revision v) (revision m) = false

theorem laterRevision_irrefl (a : Option Text) : laterRevision a a = false :=
  Text.precedes_irrefl _

theorem laterRevision_trans {a b c : Option Text} (hab : laterRevision a b = true)
    (hbc : laterRevision b c = true) : laterRevision a c = true :=
  Text.precedes_trans hbc hab

theorem laterRevision_asymm {a b : Option Text} (hab : laterRevision a b = true) :
    laterRevision b a = false := by
  cases h : laterRevision b a
  · rfl
  · have := laterRevision_trans hab h
    rw [laterRevision_irrefl] at this
    exact absurd this (by simp)

theorem laterRevision_split {a c : Option Text} (b : Option Text)
    (hac : laterRevision a c = true) : laterRevision a b = true ∨ laterRevision b c = true := by
  rcases Text.precedes_split ((b.getD ⟨[]⟩).units) hac with h | h
  · exact Or.inr h
  · exact Or.inl h

namespace IsFirstLatest

variable {α : Type} {revision : α → Option Text}

theorem mem {items : List α} {m : α} (h : IsFirstLatest revision items m) : m ∈ items := by
  obtain ⟨before, after, rfl, _, _⟩ := h
  simp

/-- No item is later than the first of the latest revision. -/
theorem not_later {items : List α} {m v : α} (h : IsFirstLatest revision items m)
    (hv : v ∈ items) : laterRevision (revision v) (revision m) = false := by
  obtain ⟨before, after, rfl, hb, ha⟩ := h
  rcases List.mem_append.mp hv with hv | hv
  · exact laterRevision_asymm (hb v hv)
  · rcases List.mem_cons.mp hv with rfl | hv
    · exact laterRevision_irrefl _
    · exact ha v hv

theorem cons_earlier {items : List α} {m v : α} (h : IsFirstLatest revision items m)
    (hv : laterRevision (revision m) (revision v) = true) :
    IsFirstLatest revision (v :: items) m := by
  obtain ⟨before, after, rfl, hb, ha⟩ := h
  refine ⟨v :: before, after, rfl, ?_, ha⟩
  intro k hk
  rcases List.mem_cons.mp hk with rfl | hk
  · exact hv
  · exact hb k hk

theorem insert {items : List α} {m b v : α} (h : IsFirstLatest revision (b :: items) m)
    (hv : laterRevision (revision v) (revision b) = false) :
    IsFirstLatest revision (b :: v :: items) m := by
  obtain ⟨before, after, he, hb, ha⟩ := h
  cases before with
  | nil =>
    simp only [List.nil_append, List.cons.injEq] at he
    obtain ⟨hw, ht⟩ := he
    subst hw
    subst ht
    refine ⟨[], v :: items, rfl, by simp, ?_⟩
    intro k hk
    rcases List.mem_cons.mp hk with rfl | hk
    · exact hv
    · exact ha k hk
  | cons c before =>
    simp only [List.cons_append, List.cons.injEq] at he
    obtain ⟨hc, ht⟩ := he
    subst hc
    subst ht
    refine ⟨b :: v :: before, after, rfl, ?_, ha⟩
    intro k hk
    rcases List.mem_cons.mp hk with rfl | hk
    · exact hb k (by simp)
    · rcases List.mem_cons.mp hk with rfl | hk
      · rcases laterRevision_split (revision k) (hb b (by simp)) with h' | h'
        · exact h'
        · rw [hv] at h'
          exact absurd h' (by simp)
      · exact hb k (by simp [hk])

theorem unique {items : List α} {m w : α} (hm : IsFirstLatest revision items m)
    (hw : IsFirstLatest revision items w) : m = w := by
  obtain ⟨b1, a1, e1, hb1, ha1⟩ := hm
  obtain ⟨b2, a2, e2, hb2, ha2⟩ := hw
  subst e1
  induction b1 generalizing b2 with
  | nil =>
    cases b2 with
    | nil =>
      simp only [List.nil_append, List.cons.injEq] at e2
      exact e2.1
    | cons c b2 =>
      simp only [List.nil_append, List.cons_append, List.cons.injEq] at e2
      obtain ⟨hc, ht⟩ := e2
      subst hc
      have hwin : w ∈ a1 := by rw [ht]; simp
      have h1 := ha1 w hwin
      rw [hb2 _ (by simp)] at h1
      exact absurd h1 (by simp)
  | cons c b1 ih =>
    cases b2 with
    | nil =>
      simp only [List.nil_append, List.cons_append, List.cons.injEq] at e2
      obtain ⟨hc, ht⟩ := e2
      subst hc
      have hmin : m ∈ a2 := by rw [← ht]; simp
      have h1 := ha2 m hmin
      rw [hb1 _ (by simp)] at h1
      exact absurd h1 (by simp)
    | cons d b2 =>
      simp only [List.cons_append, List.cons.injEq] at e2
      exact ih (fun v hv => hb1 v (List.mem_cons_of_mem _ hv)) b2
        (fun v hv => hb2 v (List.mem_cons_of_mem _ hv)) e2.2

end IsFirstLatest

/-- Going through `items` from `b`, the item kept is the first of the latest revision. -/
theorem isFirstLatest_foldl {α : Type} (revision : α → Option Text) (items : List α) (b : α) :
    IsFirstLatest revision (b :: items) (items.foldl (keepLater revision) b) := by
  induction items generalizing b with
  | nil => exact ⟨[], [], rfl, by simp, by simp⟩
  | cons v items ih =>
    rw [List.foldl_cons]
    unfold keepLater
    split
    · next hv =>
      have h := ih v
      refine h.cons_earlier ?_
      rcases laterRevision_split (revision (items.foldl (keepLater revision) v)) hv with h' | h'
      · rw [h.not_later (by simp)] at h'
        exact absurd h' (by simp)
      · exact h'
    · next hv => exact (ih b).insert (by simpa using hv)

theorem firstLatest_eq_none {α : Type} (revision : α → Option Text) (items : List α) :
    firstLatest revision items = none ↔ items = [] := by
  cases items <;> simp [firstLatest]

theorem firstLatest_eq_some {α : Type} (revision : α → Option Text) (items : List α) (m : α) :
    firstLatest revision items = some m ↔ IsFirstLatest revision items m := by
  cases items with
  | nil =>
    simp only [firstLatest, reduceCtorEq, false_iff]
    intro h
    simpa using h.mem
  | cons b items =>
    simp only [firstLatest, Option.some.injEq]
    constructor
    · rintro rfl
      exact isFirstLatest_foldl revision items b
    · intro h
      exact (isFirstLatest_foldl revision items b).unique h

theorem foldl_keepLater_map {α β : Type} (revision : β → Option Text) (f : α → β)
    (items : List α) (b : α) :
    f (items.foldl (keepLater (revision ∘ f)) b) = (items.map f).foldl (keepLater revision) (f b) := by
  induction items generalizing b with
  | nil => rfl
  | cons v items ih =>
    simp only [List.foldl_cons, List.map_cons]
    rw [ih]
    congr 1
    unfold keepLater
    simp only [Function.comp]
    split <;> rfl

theorem firstLatest_map {α β : Type} (revision : β → Option Text) (f : α → β) (items : List α) :
    firstLatest revision (items.map f) = (firstLatest (revision ∘ f) items).map f := by
  cases items with
  | nil => rfl
  | cons b items =>
    simp only [List.map_cons, firstLatest, Option.map_some]
    rw [foldl_keepLater_map revision f items b]

/-- A name and a revision find the first module with both; a name alone finds the first of the
latest revision of the name, which is also what a target prefix resolves to. -/
theorem findModule_first_latest (ctx : Context) (name : Text) :
    (∀ r, ctx.findModule name (some r) =
      ctx.modules.find? (fun m => m.name = name ∧ m.revision = some r)) ∧
    (ctx.findModule name = none ↔ ∀ m ∈ ctx.modules, m.name ≠ name) ∧
    (∀ m, ctx.findModule name = some m ↔
      IsFirstLatest (·.revision) (ctx.modules.filter (·.name = name)) m) ∧
    (latestIndex ctx.modules name).bind (fun i => ctx.modules[i]?) = ctx.findModule name := by
  refine ⟨?_, ?_, ?_, ?_⟩
  · intro r
    simp only [Context.findModule, List.find?_filter, decide_eq_true_eq]
  · simp only [Context.findModule, firstLatest_eq_none, List.filter_eq_nil_iff, decide_eq_true_eq]
  · intro m
    exact firstLatest_eq_some _ _ m
  · have hz : ctx.modules.filter (·.name = name) =
        (ctx.modules.zipIdx.filter (·.1.name = name)).map (·.1) := by
      conv => lhs; rw [← List.zipIdx_map_fst 0 ctx.modules]
      rw [List.filter_map]
      rfl
    simp only [latestIndex, Context.findModule]
    rw [hz, firstLatest_map]
    simp only [Function.comp_def]
    cases h : firstLatest (fun p : Module × Nat => p.1.revision)
        (ctx.modules.zipIdx.filter (·.1.name = name)) with
    | none => rfl
    | some p =>
      have hp := ((firstLatest_eq_some _ _ p).mp h).mem
      have hz' := List.mem_zipIdx_iff_getElem?.mp (List.mem_filter.mp hp).1
      simp only [Option.map_some, Option.bind_some]
      exact hz'

end YangDiagram.Schema
