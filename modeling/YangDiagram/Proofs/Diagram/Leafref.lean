-- A leafref target without the drawn module's prefix: the prefix and its colon are dropped where
-- they start the path or follow a separator, reading once from the left, and every other unit is
-- kept, so a foreign prefix that merely ends in it stays.
import Mathlib
import YangDiagram.Proofs.Diagram.TypeNames

namespace YangDiagram.Diagram

open YangDiagram.Schema YangDiagram.Json

/-! ## The pure model -/

/-- The units other than blanks that can stand right before a prefix a leafref target drops. -/
def pathSeparators : List UInt16 := [Text.unit '/', Text.unit '[', Text.unit '(', Text.unit '=']

/-- Whether `pre` occurs at position `i` of `cs` where a leafref target drops it: at the start of
the path, or right after a path separator or a blank. -/
def dropsAt (pre cs : List UInt16) (i : Nat) : Bool :=
  pre.isPrefixOf (cs.drop i) &&
    (i == 0 || cs[i - 1]?.any fun u => pathSeparators.contains u || Text.isBlank u)

/-- Whether position `j` of `cs` lies in an occurrence of `pre` that a leafref target drops. -/
def covered (pre cs : List UInt16) (j : Nat) : Bool :=
  (List.range (j + 1)).any fun i => dropsAt pre cs i && decide (j < i + pre.length)

/-- The units of `cs` outside every occurrence of `pre` that a leafref target drops, in order. -/
def withoutDropped (pre cs : List UInt16) : List UInt16 :=
  (cs.zipIdx.filter fun x => !covered pre cs x.2).map Prod.fst

/-- The units from position `k` on that `withoutDropped` keeps. -/
def keptFrom (pre cs : List UInt16) (k : Nat) : List UInt16 :=
  (((cs.drop k).zipIdx k).filter fun x => !covered pre cs x.2).map Prod.fst

/-! ## Positions -/

section Positions

variable {pre cs : List UInt16}

theorem beforePrefix_eq (u : UInt16) :
    beforePrefix u = (pathSeparators.contains u || Text.isBlank u) := by
  simp [beforePrefix, pathSeparators, Bool.or_assoc]

theorem covered_iff {j : Nat} :
    covered pre cs j = true ↔ ∃ i ≤ j, dropsAt pre cs i = true ∧ j < i + pre.length := by
  simp [covered]

theorem getElem?_of_isPrefixOf {i t : Nat} (h : pre.isPrefixOf (cs.drop i) = true)
    (ht : t < pre.length) : cs[i + t]? = pre[t]? := by
  obtain ⟨r, hr⟩ := List.isPrefixOf_iff_prefix.mp h
  rw [← List.getElem?_drop, ← hr, List.getElem?_append_left ht]

theorem dropsAt_succ {k : Nat} {c : UInt16} {rest : List UInt16} (h : cs.drop k = c :: rest) :
    dropsAt pre cs (k + 1) = (beforePrefix c && pre.isPrefixOf rest) := by
  have hrest : cs.drop (k + 1) = rest := by
    rw [← List.drop_drop, h, List.drop_one, List.tail_cons]
  have hc : cs[k]? = some c := by
    rw [← Nat.add_zero k, ← List.getElem?_drop, h, List.getElem?_cons_zero]
  simp [dropsAt, hrest, hc, beforePrefix_eq, Bool.and_comm]

theorem covered_zero (hd : dropsAt pre cs 0 = false) : covered pre cs 0 = false := by
  simp [covered, hd]

theorem covered_succ {k : Nat} (hk : covered pre cs k = false)
    (hd : dropsAt pre cs (k + 1) = false) : covered pre cs (k + 1) = false := by
  rw [Bool.eq_false_iff]
  intro hc
  obtain ⟨i, hi, hdi, hlt⟩ := covered_iff.mp hc
  rcases Nat.lt_or_eq_of_le hi with hi | rfl
  · have : covered pre cs k = true := covered_iff.mpr ⟨i, by omega, hdi, by omega⟩
    simp [hk] at this
  · simp [hd] at hdi

theorem keptFrom_zero : keptFrom pre cs 0 = withoutDropped pre cs := by
  simp [keptFrom, withoutDropped]

theorem keptFrom_of_length_le {k : Nat} (hk : cs.length ≤ k) : keptFrom pre cs k = [] := by
  simp [keptFrom, List.drop_eq_nil_of_le hk]

theorem keptFrom_cons {k : Nat} {c : UInt16} {rest : List UInt16} (h : cs.drop k = c :: rest) :
    keptFrom pre cs k = (if covered pre cs k then [] else [c]) ++ keptFrom pre cs (k + 1) := by
  have hrest : cs.drop (k + 1) = rest := by
    rw [← List.drop_drop, h, List.drop_one, List.tail_cons]
  simp only [keptFrom, h, hrest, List.zipIdx_cons, List.filter_cons]
  cases covered pre cs k <;> simp

theorem keptFrom_add_of_covered {k : Nat} (m : Nat)
    (h : ∀ j < m, covered pre cs (k + j) = true) :
    keptFrom pre cs k = keptFrom pre cs (k + m) := by
  induction m with
  | zero => rfl
  | succ m ih =>
    rw [ih fun j hj => h j (by omega)]
    cases hd : cs.drop (k + m) with
    | nil =>
      have hle : cs.length ≤ k + m := List.drop_eq_nil_iff.mp hd
      rw [keptFrom_of_length_le hle, keptFrom_of_length_le (by omega)]
    | cons c rest =>
      rw [keptFrom_cons hd, if_pos (h m (by omega))]
      rfl

end Positions

/-! ## Occurrences of a prefix and its colon -/

section Occurrences

variable {q cs : List UInt16}

theorem colon_at_end {i : Nat} (h : (q ++ [Text.unit ':']).isPrefixOf (cs.drop i) = true) :
    cs[i + q.length]? = some (Text.unit ':') := by
  rw [getElem?_of_isPrefixOf h (by simp)]
  simp

/-- Two occurrences of a prefix without a colon, and its colon, never overlap: the colon ends the
first, and a later start inside it would put that colon into the prefix. -/
theorem occurrences_disjoint (hq : Text.unit ':' ∉ q) {i i' : Nat}
    (h : (q ++ [Text.unit ':']).isPrefixOf (cs.drop i) = true)
    (h' : (q ++ [Text.unit ':']).isPrefixOf (cs.drop i') = true) (hlt : i < i') :
    i + q.length < i' := by
  by_contra hle
  have hcolon := getElem?_of_isPrefixOf h' (t := i + q.length - i') (by simp; omega)
  rw [show i' + (i + q.length - i') = i + q.length by omega, colon_at_end h,
    List.getElem?_append_left (by omega)] at hcolon
  exact hq (List.mem_of_getElem? hcolon.symm)

theorem dropsAt_after {i : Nat} (h : (q ++ [Text.unit ':']).isPrefixOf (cs.drop i) = true) :
    dropsAt (q ++ [Text.unit ':']) cs (i + q.length + 1) = false := by
  have hsep :
      (pathSeparators.contains (Text.unit ':') || Text.isBlank (Text.unit ':')) = false := by
    decide
  simp only [dropsAt, Nat.add_sub_cancel, colon_at_end h, Option.any_some, hsep, Bool.or_false]
  simp

theorem covered_after (hq : Text.unit ':' ∉ q) {i : Nat}
    (h : dropsAt (q ++ [Text.unit ':']) cs i = true) :
    covered (q ++ [Text.unit ':']) cs (i + q.length + 1) = false := by
  have hocc : (q ++ [Text.unit ':']).isPrefixOf (cs.drop i) = true :=
    ((Bool.and_eq_true _ _).mp h).1
  rw [Bool.eq_false_iff]
  intro hc
  obtain ⟨i', hle, hdi', hlt⟩ := covered_iff.mp hc
  have hocc' : (q ++ [Text.unit ':']).isPrefixOf (cs.drop i') = true :=
    ((Bool.and_eq_true _ _).mp hdi').1
  simp only [List.length_append, List.length_singleton] at hlt
  rcases Nat.lt_or_ge i' (i + q.length + 1) with hin | hafter
  · have := occurrences_disjoint hq hocc hocc' (by omega)
    omega
  · rw [show i' = i + q.length + 1 by omega, dropsAt_after hocc] at hdi'
    exact Bool.false_ne_true hdi'

/-- Read from a position no dropped occurrence covers, the rest of a path loses exactly its
dropped occurrences, as the walk of `dropPrefixAfter` skips them. -/
theorem dropPrefixAfter_drop (hq : Text.unit ':' ∉ q) (k : Nat)
    (hk : covered (q ++ [Text.unit ':']) cs k = false) :
    dropPrefixAfter (q ++ [Text.unit ':']) (cs.drop k) = keptFrom (q ++ [Text.unit ':']) cs k := by
  cases hd : cs.drop k with
  | nil =>
    rw [dropPrefixAfter, keptFrom_of_length_le (List.drop_eq_nil_iff.mp hd)]
  | cons c rest =>
    have hlen : k < cs.length := by
      have := congrArg List.length hd
      simp only [List.length_drop, List.length_cons] at this
      omega
    have hrest : cs.drop (k + 1) = rest := by
      rw [← List.drop_drop, hd, List.drop_one, List.tail_cons]
    rw [dropPrefixAfter, keptFrom_cons hd, hk, if_neg Bool.false_ne_true]
    split
    · rename_i hocc
      have hdrop : dropsAt (q ++ [Text.unit ':']) cs (k + 1) = true := by
        rw [dropsAt_succ hd]
        exact hocc
      have hskip : rest.drop (q ++ [Text.unit ':']).length = cs.drop (k + 1 + q.length + 1) := by
        rw [← hrest, List.drop_drop, List.length_append, List.length_singleton]
        congr 1
      rw [hskip, dropPrefixAfter_drop hq (k + 1 + q.length + 1) (covered_after hq hdrop),
        keptFrom_add_of_covered (k := k + 1) (m := q.length + 1) fun j hj =>
          covered_iff.mpr ⟨k + 1, by omega, hdrop, by simp; omega⟩]
      rfl
    · rename_i hno
      have hnext : dropsAt (q ++ [Text.unit ':']) cs (k + 1) = false := by
        rw [dropsAt_succ hd]
        exact Bool.eq_false_iff.mpr hno
      rw [← hrest, dropPrefixAfter_drop hq (k + 1) (covered_succ hk hnext)]
      rfl
termination_by cs.length - k

end Occurrences

/-- Without a colon in the prefix, the display's walk drops exactly the occurrences the rule
says. -/
theorem dropPrefix_eq_withoutDropped {p path : Text} (hp : Text.unit ':' ∉ p.units) :
    dropPrefix p path = ⟨withoutDropped (p.units ++ [Text.unit ':']) path.units⟩ := by
  unfold dropPrefix
  rw [Text.mk.injEq, ← keptFrom_zero]
  split
  · rename_i hstart
    have hd0 : dropsAt (p.units ++ [Text.unit ':']) path.units 0 = true := by
      simp [dropsAt, hstart]
    have hafter := covered_after hp hd0
    rw [Nat.zero_add] at hafter
    rw [List.length_append, List.length_singleton, dropPrefixAfter_drop hp _ hafter,
      keptFrom_add_of_covered (k := 0) (p.units.length + 1) fun j hj =>
        covered_iff.mpr ⟨0, by omega, hd0, by simp; omega⟩, Nat.zero_add]
  · rename_i hstart
    have hd0 : dropsAt (p.units ++ [Text.unit ':']) path.units 0 = false := by
      simp [dropsAt, hstart]
    have hwalk := dropPrefixAfter_drop hp 0 (covered_zero hd0)
    rwa [List.drop_zero] at hwalk

/-! ## Leafref targets in a diagram -/

/-- The drawn module's own namespace has a display prefix exactly when its own names are
prefixed. -/
theorem isSome_lookupKey_prefixMap_self {ctx : Context} {M : Module} (hM : M ∈ ctx.modules)
    (byModuleName prefixOwn : Bool) :
    (lookupKey (prefixMap ctx M byModuleName prefixOwn) M.namespaceUri).isSome = prefixOwn := by
  rw [lookupKey_prefixMap, displayPrefix]
  cases prefixOwn with
  | false => simp
  | true =>
    have hfound : (ctx.modules.find? (·.namespaceUri = M.namespaceUri)).isSome :=
      List.find?_isSome.mpr ⟨M, hM, by simp⟩
    simpa using hfound

/-- Leafref targets drop the drawn module's own prefix, unless its names are prefixed: each
occurrence of `prefix:` that starts the path or follows `/`, `[`, `(`, `=` or a blank. -/
theorem leafref_target_drops_own_prefix {doc : Value} {ctx : Context}
    (hload : Context.load doc = .ok ctx) {M : Module} (hM : M ∈ ctx.modules) (s : Settings)
    {t : TypeRef} {p : Text} (hname : t.name = "leafref") (hpath : t.path = some p) :
    typeText (Env.ofModule ctx M s) t = "-> " ++
      (if s.prefixOwn then p
        else ⟨withoutDropped (M.prefixName.units ++ [Text.unit ':']) p.units⟩) := by
  have hcolon : Text.unit ':' ∉ M.prefixName.units :=
    (Context.prefix_separatorFree_of_load hload M hM).1
  have hown := isSome_lookupKey_prefixMap_self hM s.byModuleName s.prefixOwn
  simp only [typeText, hpath, hname, if_true, leafrefTarget, Env.ofModule, hown]
  cases s.prefixOwn with
  | true => rfl
  | false => simp [dropPrefix_eq_withoutDropped hcolon]

open ImportSample in
/-- In module `ac`'s diagram with the default options, the leafref path `/mac:x/ac:y` loses the
`ac:` after the slash only. -/
theorem leafref_target_drops_own_prefix_importSample :
    Context.load importDoc = .ok ⟨[acModule, bModule]⟩ ∧ acModule ∈ [acModule, bModule] ∧
      typeText (Env.ofModule ⟨[acModule, bModule]⟩ acModule ⟨{}, unbounded, unbounded⟩)
          { name := "leafref", path := some "/mac:x/ac:y" } = "-> " ++
        (if (⟨{}, unbounded, unbounded⟩ : Settings).prefixOwn then Text.ofString "/mac:x/ac:y"
          else ⟨withoutDropped (acModule.prefixName.units ++ [Text.unit ':'])
            (Text.ofString "/mac:x/ac:y").units⟩) :=
  ⟨load_importDoc, by simp,
    leafref_target_drops_own_prefix load_importDoc (by simp) _ rfl rfl⟩

example : withoutDropped ((Text.ofString "ac").units ++ [Text.unit ':'])
    (Text.ofString "/mac:x/ac:y").units = (Text.ofString "/mac:x/y").units := by
  decide

example : withoutDropped ((Text.ofString "ac").units ++ [Text.unit ':'])
    (Text.ofString "../ac:entry[ac:id = current()/../ac:ref]/ac:name").units =
      (Text.ofString "../entry[id = current()/../ref]/name").units := by
  decide

end YangDiagram.Diagram
