-- The order of spellings in UTF-16 code units, as texts are compared: a strict total order.
import YangDiagram.Text.Basic

namespace YangDiagram.Text

/-- Two spellings that start with units `x` and `y` are ordered by those units, or by what
follows them when the units are the same. -/
theorem precedes_cons_cons (x y : UInt16) (xs ys : List UInt16) :
    precedes (x :: xs) (y :: ys) = true ↔
      x.toNat < y.toNat ∨ (x.toNat = y.toNat ∧ precedes xs ys = true) := by
  simp only [precedes]
  by_cases h : x.toNat < y.toNat
  · simp [h]
  · by_cases e : x = y
    · subst e
      simp
    · have e' : x.toNat ≠ y.toNat := fun h' => e (UInt16.toNat_inj.mp h')
      simp [h, e, e']

theorem precedes_irrefl (a : List UInt16) : precedes a a = false := by
  induction a with
  | nil => rfl
  | cons x xs ih => simp [precedes, ih]

theorem precedes_trans {a b c : List UInt16} (hab : precedes a b = true)
    (hbc : precedes b c = true) : precedes a c = true := by
  induction a generalizing b c with
  | nil =>
    cases b with
    | nil => simp [precedes] at hab
    | cons y ys =>
      cases c with
      | nil => simp [precedes] at hbc
      | cons z zs => rfl
  | cons x xs ih =>
    cases b with
    | nil => simp [precedes] at hab
    | cons y ys =>
      cases c with
      | nil => simp [precedes] at hbc
      | cons z zs =>
        rw [precedes_cons_cons] at hab hbc ⊢
        rcases hab with h1 | ⟨h1, h2⟩ <;> rcases hbc with h3 | ⟨h3, h4⟩
        · exact Or.inl (by omega)
        · exact Or.inl (by omega)
        · exact Or.inl (by omega)
        · exact Or.inr ⟨by omega, ih h2 h4⟩

theorem precedes_trichotomy (a b : List UInt16) :
    precedes a b = true ∨ a = b ∨ precedes b a = true := by
  induction a generalizing b with
  | nil =>
    cases b with
    | nil => exact Or.inr (Or.inl rfl)
    | cons y ys => exact Or.inl rfl
  | cons x xs ih =>
    cases b with
    | nil => exact Or.inr (Or.inr rfl)
    | cons y ys =>
      rw [precedes_cons_cons, precedes_cons_cons]
      rcases Nat.lt_trichotomy x.toNat y.toNat with h | h | h
      · exact Or.inl (Or.inl h)
      · have e : x = y := UInt16.toNat_inj.mp h
        subst e
        rcases ih ys with h' | h' | h'
        · exact Or.inl (Or.inr ⟨rfl, h'⟩)
        · exact Or.inr (Or.inl (by rw [h']))
        · exact Or.inr (Or.inr (Or.inr ⟨rfl, h'⟩))
      · exact Or.inr (Or.inr (Or.inl h))

theorem precedes_split {a c : List UInt16} (b : List UInt16) (hac : precedes a c = true) :
    precedes a b = true ∨ precedes b c = true := by
  rcases precedes_trichotomy a b with h | h | h
  · exact Or.inl h
  · subst h
    exact Or.inr hac
  · exact Or.inr (precedes_trans h hac)

end YangDiagram.Text
