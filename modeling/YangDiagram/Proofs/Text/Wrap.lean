-- Greedy word wrap: joined by blanks its lines give the words of the text, each line fits unless
-- it is one word, and the first word of each line did not fit on the line before. The invariant
-- `Filled` is kept word by word.
import Mathlib
import YangDiagram.Text.Wrap
import YangDiagram.Proofs.Schema.Targets

namespace YangDiagram.Text

/-! ## Words -/

/-- A word: a nonempty run of units, none of them blank. -/
def IsWord (x : Text) : Prop := x.units ≠ [] ∧ ∀ u ∈ x.units, isBlank u = false

theorem isWord_of_mem_words {t x : Text} (h : x ∈ words t) : IsWord x := by
  simp only [words, List.mem_map, List.mem_filter] at h
  obtain ⟨l, ⟨hl, hne⟩, rfl⟩ := h
  exact ⟨by simpa using hne, fun u hu => (Schema.forall_mem_splitOnP l hl u hu).2⟩

/-- A blank splits the words of a text into the words before it and the words after it. -/
theorem words_append_blank (a b : List UInt16) {u : UInt16} (hu : isBlank u = true) :
    words ⟨a ++ u :: b⟩ = words ⟨a⟩ ++ words ⟨b⟩ := by
  simp only [words, List.splitOnP_append_cons a b hu, List.filter_append, List.map_append]

theorem words_of_isWord {x : Text} (h : IsWord x) : words x = [x] := by
  obtain ⟨hne, hblank⟩ := h
  simp [words, List.splitOnP_eq_singleton hblank, hne]

theorem units_ne_nil_of_words_ne_nil {t : Text} (h : words t ≠ []) : t.units ≠ [] := by
  intro hnil
  apply h
  simp [words, hnil]

theorem ext_units {a b : Text} (h : a.units = b.units) : a = b := by
  cases a
  cases b
  cases h
  rfl

theorem isEmpty_eq_false_iff {t : Text} : t.isEmpty = false ↔ t.units ≠ [] := by
  simp [isEmpty]

theorem units_space : (ofString " ").units = [unit ' '] := rfl

theorem words_spaced (a b : Text) : words (a ++ ofString " " ++ b) = words a ++ words b := by
  have heq : a ++ ofString " " ++ b = ⟨a.units ++ unit ' ' :: b.units⟩ :=
    ext_units (by simp [units_space])
  rw [heq, words_append_blank a.units b.units (by decide)]

/-! ## Joining by blanks -/

theorem intercalate_snoc (sep x : Text) :
    ∀ ls : List Text, intercalate sep (ls ++ [x]) =
      if ls = [] then x else intercalate sep ls ++ sep ++ x
  | [] => by simp [intercalate]
  | [l] => ext_units (by simp [intercalate])
  | l :: l' :: ls => by
    have ih := congrArg units (intercalate_snoc sep x (l' :: ls))
    refine ext_units ?_
    simp only [intercalate, units_append, List.map_cons, List.map_append, List.map_nil,
      List.cons_append, List.intercalate_cons_cons, reduceCtorEq, if_false] at ih ⊢
    rw [ih]
    simp

theorem intercalate_snoc_congr {sep x : Text} {ls ps : List Text}
    (h : intercalate sep ls = intercalate sep ps) (hnil : ls = [] ↔ ps = []) :
    intercalate sep (ls ++ [x]) = intercalate sep (ps ++ [x]) := by
  rw [intercalate_snoc, intercalate_snoc, h]
  by_cases hl : ls = []
  · simp [hl, hnil.mp hl]
  · simp [hl, mt hnil.mpr hl]

theorem intercalate_snoc_spaced (sep c x : Text) (ls : List Text) :
    intercalate sep (ls ++ [c ++ sep ++ x]) = intercalate sep (ls ++ [c]) ++ sep ++ x := by
  rw [intercalate_snoc, intercalate_snoc]
  split
  · rfl
  · exact ext_units (by simp)

/-! ## Placing one word -/

/-- The lines of a placement: those done, then the current one when it has text. -/
def flush (acc : List Text × Text) : List Text :=
  if acc.2.isEmpty then acc.1 else acc.1 ++ [acc.2]

theorem wrap_eq_flush (w : Nat) (t : Text) :
    wrap w t = flush ((words t).foldl (placeWord w) ([], ⟨[]⟩)) := rfl

theorem flush_of_isEmpty_false {done : List Text} {cur : Text} (h : cur.isEmpty = false) :
    flush (done, cur) = done ++ [cur] := by
  simp [flush, h]

theorem isEmpty_eq_false_of_isWord {x : Text} (h : IsWord x) : x.isEmpty = false :=
  isEmpty_eq_false_iff.mpr h.1

theorem placeWord_break {w : Nat} {done : List Text} {cur x : Text} (hcur : cur.isEmpty = false)
    (hw : w < cur.width + 1 + x.width) : placeWord w (done, cur) x = (done ++ [cur], x) := by
  simp [placeWord, hcur, hw]

theorem placeWord_join {w : Nat} {done : List Text} {cur x : Text} (hcur : cur.isEmpty = false)
    (hw : cur.width + 1 + x.width ≤ w) :
    placeWord w (done, cur) x = (done, cur ++ ofString " " ++ x) := by
  simp [placeWord, hcur, Nat.not_lt.mpr hw]

theorem placeWord_first {w : Nat} {done : List Text} {cur x : Text} (hcur : cur.isEmpty = true) :
    placeWord w (done, cur) x = (done, x) := by
  simp [placeWord, hcur]

/-- The first word of `b` did not fit after `a`. -/
def Greedy (w : Nat) (a b : Text) : Prop := ∀ u ∈ (words b).head?, w < a.width + 1 + u.width

/-- What placing the words `ps` keeps: joined by blanks the lines are the words, each line has a
word and fits unless it is one, and each line's first word did not fit on the line before. -/
structure Filled (w : Nat) (ps : List Text) (acc : List Text × Text) : Prop where
  start : ps = [] → acc = ([], ⟨[]⟩)
  current : ps ≠ [] → acc.2.isEmpty = false
  joined : intercalate (ofString " ") (flush acc) = intercalate (ofString " ") ps
  worded : ∀ l ∈ flush acc, words l ≠ []
  fits : ∀ l ∈ flush acc, l.width ≤ w ∨ words l = [l]
  greedy : (flush acc).IsChain (Greedy w)

theorem filled_nil (w : Nat) : Filled w [] ([], ⟨[]⟩) :=
  ⟨fun _ => rfl, fun h => absurd rfl h, rfl, by simp [flush, isEmpty],
    by simp [flush, isEmpty], by simp [flush, isEmpty]⟩

theorem Filled.flush_eq_nil_iff {w : Nat} {ps : List Text} {acc : List Text × Text}
    (h : Filled w ps acc) : flush acc = [] ↔ ps = [] := by
  constructor
  · intro hnil
    by_contra hps
    obtain ⟨done, cur⟩ := acc
    rw [flush_of_isEmpty_false (h.current hps)] at hnil
    simp at hnil
  · intro hps
    rw [h.start hps]
    rfl

theorem Filled.newLine {w : Nat} {ps : List Text} {acc acc' : List Text × Text} {x : Text}
    (h : Filled w ps acc) (hx : IsWord x) (hlines : flush acc' = flush acc ++ [x])
    (hcur : acc'.2 = x) (hgreedy : ∀ a ∈ (flush acc).getLast?, w < a.width + 1 + x.width) :
    Filled w (ps ++ [x]) acc' := by
  have hwords := words_of_isWord hx
  refine ⟨fun hnil => by simp at hnil, fun _ => hcur ▸ isEmpty_eq_false_of_isWord hx, ?_, ?_, ?_, ?_⟩
  · rw [hlines]
    exact intercalate_snoc_congr h.joined h.flush_eq_nil_iff
  · intro l hl
    rw [hlines, List.mem_append, List.mem_singleton] at hl
    rcases hl with hl | rfl
    · exact h.worded l hl
    · simp [hwords]
  · intro l hl
    rw [hlines, List.mem_append, List.mem_singleton] at hl
    rcases hl with hl | rfl
    · exact h.fits l hl
    · exact .inr hwords
  · rw [hlines]
    refine h.greedy.append (List.isChain_singleton x) fun a ha b hb => ?_
    simp only [List.head?_cons, Option.mem_def, Option.some.injEq] at hb
    subst hb
    intro u hu
    simp only [hwords, List.head?_cons, Option.mem_def, Option.some.injEq] at hu
    subst hu
    exact hgreedy a ha

theorem Filled.join {w : Nat} {ps done : List Text} {cur x : Text}
    (h : Filled w ps (done, cur)) (hx : IsWord x) (hcur : cur.isEmpty = false)
    (hw : cur.width + 1 + x.width ≤ w) :
    Filled w (ps ++ [x]) (done, cur ++ ofString " " ++ x) := by
  have hps : ps ≠ [] := fun hps => by
    have hstart := h.start hps
    simp only [Prod.mk.injEq] at hstart
    obtain ⟨-, rfl⟩ := hstart
    simp [isEmpty] at hcur
  have hline : flush (done, cur) = done ++ [cur] := flush_of_isEmpty_false hcur
  have hjoin : (cur ++ ofString " " ++ x).isEmpty = false :=
    isEmpty_eq_false_iff.mpr (by simp [units_space])
  have hcurWords : words cur ≠ [] := h.worded cur (by simp [hline])
  have hwords : words (cur ++ ofString " " ++ x) = words cur ++ [x] := by
    rw [words_spaced, words_of_isWord hx]
  refine ⟨fun hnil => by simp at hnil, fun _ => hjoin, ?_, ?_, ?_, ?_⟩
  · rw [flush_of_isEmpty_false hjoin, intercalate_snoc_spaced, ← hline, h.joined,
      intercalate_snoc]
    simp [hps]
  · intro l hl
    rw [flush_of_isEmpty_false hjoin, List.mem_append, List.mem_singleton] at hl
    rcases hl with hl | rfl
    · exact h.worded l (by simp [hline, hl])
    · simp [hwords]
  · intro l hl
    rw [flush_of_isEmpty_false hjoin, List.mem_append, List.mem_singleton] at hl
    rcases hl with hl | rfl
    · exact h.fits l (by simp [hline, hl])
    · left
      simp only [width, units_append, List.length_append]
      have hspace : (ofString " ").units.length = 1 := rfl
      rw [hspace]
      exact hw
  · have hchain := h.greedy
    rw [hline, List.isChain_append] at hchain
    obtain ⟨hdone, -, hlink⟩ := hchain
    rw [flush_of_isEmpty_false hjoin]
    refine hdone.append (List.isChain_singleton _) fun a ha b hb => ?_
    simp only [List.head?_cons, Option.mem_def, Option.some.injEq] at hb
    subst hb
    have hhead : (words (cur ++ ofString " " ++ x)).head? = (words cur).head? := by
      rw [hwords, List.head?_append_of_ne_nil _ hcurWords]
    intro u hu
    rw [hhead] at hu
    exact hlink a ha cur rfl u hu

/-- Placing one word keeps the invariant. -/
theorem placeWord_filled {w : Nat} {ps : List Text} {acc : List Text × Text} {x : Text}
    (h : Filled w ps acc) (hx : IsWord x) : Filled w (ps ++ [x]) (placeWord w acc x) := by
  obtain ⟨done, cur⟩ := acc
  cases hcur : cur.isEmpty with
  | true =>
    have hps : ps = [] := by
      by_contra hps
      simp [h.current hps] at hcur
    have hacc := h.start hps
    simp only [Prod.mk.injEq] at hacc
    obtain ⟨rfl, rfl⟩ := hacc
    rw [placeWord_first hcur]
    refine h.newLine hx ?_ rfl (by simp [flush, isEmpty])
    simp [flush, isEmpty, hx.1]
  | false =>
    by_cases hw : w < cur.width + 1 + x.width
    · rw [placeWord_break hcur hw]
      refine h.newLine hx ?_ rfl ?_
      · simp [flush, isEmpty_eq_false_of_isWord hx, hcur]
      · simpa [flush_of_isEmpty_false hcur] using hw
    · rw [placeWord_join hcur (by omega)]
      exact h.join hx hcur (by omega)

theorem foldl_placeWord_filled (w : Nat) (ws : List Text) (hws : ∀ x ∈ ws, IsWord x) :
    Filled w ws (ws.foldl (placeWord w) ([], ⟨[]⟩)) := by
  induction ws using List.reverseRecOn with
  | nil => exact filled_nil w
  | append_singleton ps x ih =>
    rw [List.foldl_append, List.foldl_cons, List.foldl_nil]
    exact placeWord_filled (ih fun y hy => hws y (by simp [hy])) (hws x (by simp))

/-- Greedy word wrap: joined by blanks the lines are the text's words, each has a word and fits
unless it is one word, and each line's first word did not fit after the line before. -/
theorem wrap_greedy (w : Nat) (t : Text) :
    intercalate " " (wrap w t) = intercalate " " (words t) ∧
      (∀ l ∈ wrap w t, l.units ≠ [] ∧ (l.width ≤ w ∨ words l = [l])) ∧
      (wrap w t).IsChain (fun a b => ∀ u ∈ (words b).head?, w < a.width + 1 + u.width) := by
  have h := foldl_placeWord_filled w (words t) fun x hx => isWord_of_mem_words hx
  rw [wrap_eq_flush]
  exact ⟨h.joined, fun l hl => ⟨units_ne_nil_of_words_ne_nil (h.worded l hl), h.fits l hl⟩,
    h.greedy⟩

end YangDiagram.Text
