-- Reordering the modules of a document: with distinct module names, an order that keeps the
-- augmenting modules in theirs loads exactly when the original does. The two loads are run side
-- by side; an order that swaps two augmenting modules can fail.
import Mathlib
import YangDiagram.Proofs.Schema.Origin

namespace YangDiagram.Json.Members

theorem isSome_find?_iff {ms : Members} {k : Text} :
    (find? ms k).isSome ↔ k ∈ ms.map Prod.fst := by
  induction ms with
  | nil => simp
  | cons m rest ih =>
    obtain ⟨k', v'⟩ := m
    by_cases h : k' = k
    · simp [find?, h]
    · rw [find?, if_neg h, ih, List.map_cons, List.mem_cons]
      exact ⟨Or.inr, fun h' => h'.resolve_left fun he => h he.symm⟩

theorem find?_set_of_ne (ms : Members) (k k' : Text) (v : Value) (h : k ≠ k') :
    find? (set ms k v) k' = find? ms k' := by
  induction ms with
  | nil => simp [set, find?, h]
  | cons m rest ih =>
    obtain ⟨k'', v''⟩ := m
    by_cases hk : k'' = k
    · subst hk
      simp [set, find?, h]
    · by_cases hk' : k'' = k'
      · subst hk'
        simp [set, find?, hk]
      · simp [set, find?, hk, hk', ih]

end YangDiagram.Json.Members

namespace YangDiagram.Schema

open YangDiagram.Json YangDiagram.Document

/-! ## Two computations that agree -/

/-- Two computations agree under a relation: they fail together, and when they succeed their
results are related. -/
def Agree {ε ε' α β : Type} (R : α → β → Prop) : Except ε α → Except ε' β → Prop
  | .ok a, .ok b => R a b
  | .error _, .error _ => True
  | _, _ => False

namespace Agree

variable {ε ε' α β γ δ : Type} {R : α → β → Prop}

@[simp] theorem ok_ok {a : α} {b : β} :
    Agree R (.ok a : Except ε α) (.ok b : Except ε' β) ↔ R a b := Iff.rfl

@[simp] theorem error_error (e : ε) (e' : ε') :
    Agree R (.error e : Except ε α) (.error e' : Except ε' β) := trivial

@[simp] theorem not_ok_error {a : α} {e' : ε'} :
    ¬ Agree R (.ok a : Except ε α) (.error e' : Except ε' β) := id

@[simp] theorem not_error_ok {e : ε} {b : β} :
    ¬ Agree R (.error e : Except ε α) (.ok b : Except ε' β) := id

theorem ok_iff {x : Except ε α} {y : Except ε' β} (h : Agree R x y) :
    (∃ a, x = .ok a) ↔ ∃ b, y = .ok b := by
  cases x <;> cases y <;> simp_all

theorem and_left {P : α → Prop} {x : Except ε α} {y : Except ε' β} (h : Agree R x y)
    (hx : ∀ a, x = .ok a → P a) : Agree (fun a b => R a b ∧ P a) x y := by
  cases x <;> cases y <;> simp_all

theorem symm {x : Except ε α} {y : Except ε' β} (h : Agree R x y) :
    Agree (fun b a => R a b) y x := by
  cases x <;> cases y <;> simp_all

theorem imp {S : α → β → Prop} {x : Except ε α} {y : Except ε' β} (h : Agree R x y)
    (hRS : ∀ a b, R a b → S a b) : Agree S x y := by
  cases x <;> cases y <;> simp_all

theorem trans {ε'' κ : Type} {S : β → κ → Prop} {T : α → κ → Prop} {x : Except ε α}
    {y : Except ε' β} {z : Except ε'' κ} (h : Agree R x y) (h' : Agree S y z)
    (hT : ∀ a b c, R a b → S b c → T a c) : Agree T x z := by
  cases x <;> cases y <;> cases z <;> simp_all
  exact hT _ _ _ h h'

theorem refl (x : Except ε α) : Agree Eq x x := by
  cases x <;> simp

@[simp] theorem throw_throw (e : ε) (e' : ε') :
    Agree R (throw e : Except ε α) (throw e' : Except ε' β) := trivial

theorem pure {a : α} {b : β} (h : R a b) :
    Agree R (Pure.pure a : Except ε α) (Pure.pure b : Except ε' β) := h

theorem bind {S : γ → δ → Prop} {x : Except ε α} {y : Except ε' β} {f : α → Except ε γ}
    {g : β → Except ε' δ} (h : Agree R x y) (hf : ∀ a b, R a b → Agree S (f a) (g b)) :
    Agree S (x >>= f) (y >>= g) := by
  cases x <;> cases y <;> simp_all [Bind.bind, Except.bind]

theorem map {S : γ → δ → Prop} {x : Except ε α} {y : Except ε' β} {f : α → γ} {g : β → δ}
    (h : Agree R x y) (hfg : ∀ a b, R a b → S (f a) (g b)) : Agree S (f <$> x) (g <$> y) := by
  cases x <;> cases y <;> simp_all [Functor.map, Except.map]

theorem ite {c : Prop} [Decidable c] {x x' : Except ε α} {y y' : Except ε' β}
    (ht : c → Agree R x y) (he : ¬c → Agree R x' y') :
    Agree R (if c then x else x') (if c then y else y') := by
  split
  · exact ht ‹_›
  · exact he ‹_›

end Agree

section Lists

variable {ε ε' α β γ δ : Type}

/-- Folds over related lists with steps that keep a relation agree. -/
theorem foldlM_agree {σ τ : Type} {f : σ → α → Except ε σ} {g : τ → β → Except ε' τ}
    {S : α → β → Prop} {R : σ → τ → Prop}
    (hstep : ∀ a b x y, R a b → S x y → Agree R (f a x) (g b y)) {xs : List α} {ys : List β}
    (h : List.Forall₂ S xs ys) {a : σ} {b : τ} (hab : R a b) :
    Agree R (xs.foldlM f a) (ys.foldlM g b) := by
  induction h generalizing a b with
  | nil => exact hab
  | cons hxy _ ih =>
    simp only [List.foldlM_cons]
    exact (hstep _ _ _ _ hab hxy).bind fun _ _ h' => ih h'

theorem mapM_agree {f : α → Except ε γ} {g : β → Except ε' δ} {S : α → β → Prop}
    {R : γ → δ → Prop} (hstep : ∀ x y, S x y → Agree R (f x) (g y)) {xs : List α} {ys : List β}
    (h : List.Forall₂ S xs ys) : Agree (List.Forall₂ R) (xs.mapM f) (ys.mapM g) := by
  induction h with
  | nil => exact List.Forall₂.nil
  | cons hxy _ ih =>
    simp only [List.mapM_cons]
    exact (hstep _ _ hxy).bind fun _ _ hcd =>
      ih.bind fun _ _ hrest => Agree.pure (.cons hcd hrest)

theorem mapM_agree_self {R : γ → δ → Prop} {xs : List α} {f : α → Except ε γ}
    {g : α → Except ε' δ} (hstep : ∀ x ∈ xs, Agree R (f x) (g x)) :
    Agree (List.Forall₂ R) (xs.mapM f) (xs.mapM g) :=
  mapM_agree (S := fun x y => x = y ∧ x ∈ xs) (fun _ _ hxy => hxy.1 ▸ hstep _ hxy.2)
    (List.forall₂_same.mpr fun _ hx => ⟨rfl, hx⟩)

/-- A map over a list and over a permutation of it fail together, and give permutations of one
another. -/
theorem mapM_perm {f : α → Except ε β} {xs ys : List α} (h : xs.Perm ys) :
    Agree List.Perm (xs.mapM f) (ys.mapM f) := by
  induction h with
  | nil => exact List.Perm.nil
  | cons x _ ih =>
    simp only [List.mapM_cons]
    exact (Agree.refl (f x)).bind fun _ _ hx =>
      ih.bind fun _ _ hrest => Agree.pure (hx ▸ hrest.cons _)
  | swap x y l =>
    simp only [List.mapM_cons]
    cases hx : f x <;> cases hy : f y <;> cases hl : l.mapM f <;>
      simp [Bind.bind, Except.bind, Pure.pure, Except.pure, List.Perm.swap]
  | trans _ _ ih₁ ih₂ => exact ih₁.trans ih₂ fun _ _ _ h₁ h₂ => h₁.trans h₂

end Lists

/-! ## The check does not depend on the place -/

namespace Document

theorem findSome?_isNone_congr {α β γ : Type} {l : List α} {f : α → Option β}
    {g : α → Option γ} (h : ∀ x ∈ l, (f x).isNone = (g x).isNone) :
    (l.findSome? f).isNone = (l.findSome? g).isNone := by
  rw [Bool.eq_iff_iff, Option.isNone_iff_eq_none, Option.isNone_iff_eq_none,
    List.findSome?_eq_none_iff, List.findSome?_eq_none_iff]
  exact forall₂_congr fun x hx => by
    rw [← Option.isNone_iff_eq_none, h x hx, Option.isNone_iff_eq_none]

mutual

/-- Whether a value passes a rule does not depend on the place it is checked at. -/
theorem checkRule_isNone_congr (r : Rule) (v : Value) (place place' : List Text) :
    (checkRule r v place).isNone = (checkRule r v place').isNone := by
  unfold checkRule
  split
  · exact checkRule_isNone_congr _ v place place'
  · rename_i required members closed pick
    split
    · rename_i ms
      have hm := checkMembers_isNone_congr required members closed ms place place'
      cases h₁ : checkMembers required members closed ms place <;>
        cases h₂ : checkMembers required members closed ms place' <;>
        simp only [h₁, h₂, Option.isNone_some, Option.isNone_none] at hm ⊢
      · split
        · rfl
        · split
          · split
            · split
              · exact checkMembers_isNone_congr _ _ _ ms place place'
              · rfl
            · rfl
          · rfl
      · exact absurd hm (by decide)
      · exact absurd hm (by decide)
    · rfl
  · split
    · rename_i xs
      exact findSome?_isNone_congr fun x _ => checkRule_isNone_congr _ x.1.1 _ _
    · rfl
  all_goals
    repeat' split
    all_goals rfl
termination_by (sizeOf v, r.weight)
decreasing_by
  all_goals subst_vars
  · rw [Shape.weight_rule]
    exact Prod.Lex.right _ (by simp [Rule.weight])
  · apply Prod.Lex.left
    simp
  · apply Prod.Lex.left
    simp
  · apply Prod.Lex.left
    have := List.sizeOf_lt_of_mem x.1.2
    simp
    omega

theorem checkMembers_isNone_congr (required : List String) (members : List (String × Rule))
    (closed : Bool) (ms : Members) (place place' : List Text) :
    (checkMembers required members closed ms place).isNone =
      (checkMembers required members closed ms place').isNone := by
  unfold checkMembers
  split
  · rfl
  · split
    · rfl
    · refine findSome?_isNone_congr fun p _ => ?_
      obtain ⟨⟨k, r⟩, hmem⟩ := p
      dsimp only
      split
      · exact checkRule_isNone_congr r _ _ _
      · rfl
termination_by (sizeOf ms, 0)
decreasing_by
  exact Prod.Lex.left _ _ (Members.sizeOf_lt_of_find? (by assumption))

end

theorem checkRule_array_isNone (r : Rule) (xs : List Value) (place : List Text) :
    (checkRule (.array r) (.arr xs) place).isNone =
      xs.all fun x => (checkRule r x []).isNone := by
  rw [checkRule.eq_def]
  dsimp only
  rw [Bool.eq_iff_iff, Option.isNone_iff_eq_none, List.findSome?_eq_none_iff, List.all_eq_true]
  constructor
  · intro h x hx
    obtain ⟨i, hi⟩ := List.mem_iff_getElem?.mp (List.mem_attach xs ⟨x, hx⟩)
    have := h (⟨x, hx⟩, i) (List.mem_zipIdx_iff_getElem?.mpr hi)
    rw [← checkRule_isNone_congr _ _ (place ++ [Text.ofNat i]), Option.isNone_iff_eq_none]
    exact this
  · intro h p _
    rw [← Option.isNone_iff_eq_none, checkRule_isNone_congr _ _ _ []]
    exact h p.1.1 p.1.2

/-- The members of two objects with the same keys pass alike when every allowed member's values
pass alike. -/
theorem checkMembers_isNone_of_keys {required : List String} {members : List (String × Rule)}
    {closed : Bool} {ms ms' : Members} (place : List Text)
    (hkeys : ms.map Prod.fst = ms'.map Prod.fst)
    (hval : ∀ kr ∈ members, ∀ c c', Members.find? ms (Text.ofString kr.1) = some c →
      Members.find? ms' (Text.ofString kr.1) = some c' →
      (checkRule kr.2 c (place ++ [Text.ofString kr.1])).isNone =
        (checkRule kr.2 c' (place ++ [Text.ofString kr.1])).isNone) :
    (checkMembers required members closed ms place).isNone =
      (checkMembers required members closed ms' place).isNone := by
  have hfind : ∀ k, (Members.find? ms k).isNone = (Members.find? ms' k).isNone := by
    intro k
    have h : (Members.find? ms k).isSome = (Members.find? ms' k).isSome :=
      Bool.eq_iff_iff.mpr (by rw [Members.isSome_find?_iff, Members.isSome_find?_iff, hkeys])
    rw [← Option.not_isSome, ← Option.not_isSome, h]
  have hany : (ms.any fun m => !members.any fun a => decide (Text.ofString a.1 = m.1)) =
      ms'.any fun m => !members.any fun a => decide (Text.ofString a.1 = m.1) := by
    have h := congrArg
      (fun l => l.any fun t => !members.any fun a => decide (Text.ofString a.1 = t)) hkeys
    simpa [List.any_map, Function.comp_def] using h
  unfold checkMembers
  simp only [hfind, hany]
  split
  · rfl
  · split
    · rfl
    · refine findSome?_isNone_congr fun p _ => ?_
      obtain ⟨⟨k, r⟩, hmem⟩ := p
      dsimp only
      have hk := hfind (Text.ofString k)
      split <;> split
      · exact hval (k, r) hmem _ _ ‹_› ‹_›
      · simp_all
      · simp_all
      · rfl

/-- Replacing the array of modules of a document by a permutation of it keeps whether the
document passes the check. -/
theorem check_set_modules {ms : Members} {raws raws' : List Value}
    (hmodules : Members.find? ms "modules" = some (.arr raws)) (hperm : raws.Perm raws') :
    check (.obj ms) = none ↔ check (.obj (ms.set "modules" (.arr raws'))) = none := by
  have hkey : Text.ofString "modules" ∈ ms.map Prod.fst := by
    rw [← Members.isSome_find?_iff, hmodules]
    rfl
  have hkeys := (Members.map_fst_set_of_mem ms "modules" (.arr raws') hkey).symm
  have hmembers : (checkMembers ["modules"]
      [("$schema", Rule.anyText), ("modules", Rule.many .module)] true ms []).isNone =
      (checkMembers ["modules"] [("$schema", Rule.anyText), ("modules", Rule.many .module)] true
        (ms.set "modules" (.arr raws')) []).isNone :=
    checkMembers_isNone_of_keys [] hkeys fun kr hkr c c' hc hc' => by
      simp only [List.mem_cons, List.not_mem_nil, or_false] at hkr
      rcases hkr with rfl | rfl <;> dsimp only at hc hc' ⊢
      · rw [Members.find?_set_of_ne _ _ _ _ (by decide), hc] at hc'
        cases hc'
        rfl
      · rw [hmodules] at hc
        rw [Members.find?_set_self] at hc'
        cases hc
        cases hc'
        simp only [Rule.many, checkRule_array_isNone]
        exact hperm.all_eq
  rw [← Option.isNone_iff_eq_none, ← Option.isNone_iff_eq_none, Bool.eq_iff_iff.symm]
  unfold check
  rw [checkRule_shape, checkRule_shape]
  simp only [Shape.rule]
  unfold checkRule
  dsimp only
  cases h₁ : checkMembers ["modules"]
      [("$schema", Rule.anyText), ("modules", Rule.many .module)] true ms [] <;>
    cases h₂ : checkMembers ["modules"]
      [("$schema", Rule.anyText), ("modules", Rule.many .module)] true
      (ms.set "modules" (.arr raws')) [] <;>
    simp_all

end Document

/-! ## The same modules, wherever they stand -/

def statementName (raw : Value) : Text := (raw.textAt? "name").getD ""

def hasAugments (raw : Value) : Bool := !(raw.itemsAt "augments").isEmpty

section Keys

variable {κ α : Type} [DecidableEq κ]

theorem lookupKey_of_mem {k : κ} {v : α} :
    ∀ {l : List (κ × α)}, (l.map Prod.fst).Nodup → (k, v) ∈ l → lookupKey l k = some v
  | [], _, h => absurd h List.not_mem_nil
  | (k', v') :: rest, hk, h => by
    rw [List.map_cons, List.nodup_cons] at hk
    rcases List.mem_cons.mp h with h | h
    · cases h
      simp [lookupKey]
    · have hmem : k ∈ rest.map Prod.fst := List.mem_map.mpr ⟨(k, v), h, rfl⟩
      have hne : k' ≠ k := fun he => hk.1 (by rw [he]; exact hmem)
      simp only [lookupKey, if_neg hne]
      exact lookupKey_of_mem hk.2 h

theorem lookupKey_eq_none {k : κ} :
    ∀ {l : List (κ × α)}, k ∉ l.map Prod.fst → lookupKey l k = none
  | [], _ => rfl
  | (k', v') :: rest, h => by
    rw [List.map_cons, List.mem_cons, not_or] at h
    simp only [lookupKey, if_neg (Ne.symm h.1)]
    exact lookupKey_eq_none h.2

theorem lookupKey_perm {l l' : List (κ × α)} (hp : l.Perm l') (hk : (l.map Prod.fst).Nodup)
    (k : κ) : lookupKey l k = lookupKey l' k := by
  have hk' : (l'.map Prod.fst).Nodup := (hp.map Prod.fst).nodup_iff.mp hk
  cases h : lookupKey l k with
  | some v => exact (lookupKey_of_mem hk' (hp.subset (mem_of_lookupKey h))).symm
  | none =>
    cases h' : lookupKey l' k with
    | none => rfl
    | some v =>
      rw [lookupKey_of_mem hk (hp.symm.subset (mem_of_lookupKey h'))] at h
      cases h

end Keys

/-- When no two statements share a module name, each name takes the namespace of its own
statement. -/
theorem namespacesOf_of_nodup {raws : List Value} (h : (raws.map statementName).Nodup) :
    namespacesOf raws =
      raws.map fun raw => (statementName raw, (raw.textAt? "namespace").getD "") := by
  have key : ∀ (rs : List Value) (acc : List (Text × Text)), (rs.map statementName).Nodup →
      (∀ r ∈ rs, statementName r ∉ acc.map Prod.fst) →
      rs.foldl (fun acc raw =>
        if (lookupKey acc (statementName raw)).isSome then acc
        else acc ++ [(statementName raw, (raw.textAt? "namespace").getD "")]) acc =
        acc ++ rs.map fun raw => (statementName raw, (raw.textAt? "namespace").getD "") := by
    intro rs
    induction rs with
    | nil => simp
    | cons r rs ih =>
      intro acc hnd hnew
      rw [List.map_cons, List.nodup_cons] at hnd
      rw [List.foldl_cons, lookupKey_eq_none (hnew r List.mem_cons_self)]
      simp only [Option.isSome_none, Bool.false_eq_true, if_false]
      rw [ih _ hnd.2, List.map_cons, List.append_assoc, List.singleton_append]
      intro r' hr'
      simp only [List.map_append, List.map_cons, List.map_nil, List.mem_append,
        List.mem_singleton, not_or]
      exact ⟨hnew r' (List.mem_cons_of_mem _ hr'),
        fun he => hnd.1 (he ▸ List.mem_map_of_mem hr')⟩
  unfold namespacesOf
  exact (key raws [] h (by simp)).trans (List.nil_append _)

/-- The namespace a document gives a module name does not depend on the order of its module
statements, when no two share a name. -/
theorem lookupKey_namespacesOf_perm {raws raws' : List Value} (hp : raws.Perm raws')
    (h : (raws.map statementName).Nodup) (m : Text) :
    lookupKey (namespacesOf raws) m = lookupKey (namespacesOf raws') m := by
  have h' : (raws'.map statementName).Nodup := (hp.map statementName).nodup_iff.mp h
  rw [namespacesOf_of_nodup h, namespacesOf_of_nodup h']
  refine lookupKey_perm (hp.map _) ?_ m
  simpa [List.map_map, Function.comp_def] using h

/-! ## Building does not depend on the place -/

section Build

-- a scope, and the same scope with a list of namespaces that gives every module name the same
-- namespace
variable {sc : Scope} {ns : List (Text × Text)}

theorem resolve_agree (sc : Scope) (ns : List (Text × Text)) (pre place place' : Text) :
    Agree Eq (sc.resolve pre place) ({ sc with namespaces := ns }.resolve pre place') := by
  unfold Scope.resolve
  dsimp only
  split <;> simp

theorem typeRef_agree (hns : ∀ m, lookupKey sc.namespaces m = lookupKey ns m) (written : Text)
    (path : Option Text) (place place' : Text) :
    Agree Eq (sc.typeRef written path place)
      ({ sc with namespaces := ns }.typeRef written path place') := by
  unfold Scope.typeRef
  split
  · exact Agree.refl _
  · refine (resolve_agree sc ns _ place place').bind fun m _ hm => ?_
    subst hm
    dsimp only
    rw [← hns]
    exact Agree.refl _
  · exact Agree.refl _

mutual

/-- A data node is built from its statement alike at any place, under scopes that give every
module name the same namespace. -/
theorem buildDataNode_agree (hns : ∀ m, lookupKey sc.namespaces m = lookupKey ns m)
    (raw : Value) (P : Parent) (place place' : Text) :
    Agree Eq (buildDataNode sc raw P place)
      (buildDataNode { sc with namespaces := ns } raw P place') := by
  rw [buildDataNode, buildDataNode]
  dsimp only
  refine Agree.ite (fun _ => ?_) fun _ => Agree.ite (fun _ => ?_) fun _ =>
    Agree.ite (fun _ => ?_) fun _ => Agree.ite (fun _ => Agree.refl _) fun _ => Agree.refl _
  · refine (mapM_agree_self fun x _ => buildDataNode_agree hns x.1.1 _ _ _).bind
      fun cs cs' hcs => ?_
    refine (mapM_agree_self fun x _ => buildOperation_agree hns x.1.1 true _ _ _).bind
      fun as as' has => ?_
    rw [List.forall₂_eq_eq_eq] at hcs has
    subst hcs has
    exact Agree.ite (fun _ => Agree.refl _) fun _ => Agree.refl _
  · refine (typeRef_agree hns _ _ _ _).bind fun t t' ht => ?_
    subst ht
    exact Agree.ite (fun _ => Agree.refl _) fun _ => Agree.refl _
  · refine (mapM_agree_self fun x _ => buildCase_agree hns x.1.1 _ _ _).bind
      fun cs cs' hcs => ?_
    rw [List.forall₂_eq_eq_eq] at hcs
    subst hcs
    exact Agree.refl _
termination_by (sizeOf raw, 0)
decreasing_by
  all_goals
    apply Prod.Lex.left
    exact Value.sizeOf_lt_of_mem_itemsAt x.1.2

theorem buildCase_agree (hns : ∀ m, lookupKey sc.namespaces m = lookupKey ns m)
    (raw : Value) (P : Parent) (place place' : Text) :
    Agree Eq (buildCase sc raw P place) (buildCase { sc with namespaces := ns } raw P place') := by
  rw [buildCase, buildCase]
  dsimp only
  refine Agree.ite (fun _ => ?_) fun _ => ?_
  · refine (mapM_agree_self fun x _ => buildDataNode_agree hns x.1.1 _ _ _).bind
      fun cs cs' hcs => ?_
    rw [List.forall₂_eq_eq_eq] at hcs
    subst hcs
    exact Agree.refl _
  · refine (buildDataNode_agree hns raw _ _ _).bind fun n n' hn => ?_
    subst hn
    exact Agree.refl _
termination_by (sizeOf raw, 1)
decreasing_by
  · apply Prod.Lex.left
    exact Value.sizeOf_lt_of_mem_itemsAt x.1.2
  · exact Prod.Lex.right _ (by omega)

theorem buildOperation_agree (hns : ∀ m, lookupKey sc.namespaces m = lookupKey ns m)
    (raw : Value) (isAction : Bool) (P : Parent) (place place' : Text) :
    Agree Eq (buildOperation sc raw isAction P place)
      (buildOperation { sc with namespaces := ns } raw isAction P place') := by
  rw [buildOperation, buildOperation]
  dsimp only
  refine (mapM_agree_self fun x _ => buildDataNode_agree hns x.1.1 _ _ _).bind
    fun is is' his => ?_
  refine (mapM_agree_self fun x _ => buildDataNode_agree hns x.1.1 _ _ _).bind
    fun os os' hos => ?_
  rw [List.forall₂_eq_eq_eq] at his hos
  subst his hos
  exact Agree.refl _
termination_by (sizeOf raw, 0)
decreasing_by
  all_goals
    apply Prod.Lex.left
    exact Value.sizeOf_lt_of_mem_itemsAt x.1.2

end

theorem buildNotification_agree (hns : ∀ m, lookupKey sc.namespaces m = lookupKey ns m)
    (raw : Value) (place place' : Text) :
    Agree Eq (buildNotification sc raw place)
      (buildNotification { sc with namespaces := ns } raw place') := by
  unfold buildNotification
  dsimp only
  refine (mapM_agree_self fun x _ => buildDataNode_agree hns x.1 _ _ _).bind fun cs cs' hcs => ?_
  rw [List.forall₂_eq_eq_eq] at hcs
  subst hcs
  exact Agree.refl _

end Build

/-- A module statement builds the same module wherever it stands, under lists of namespaces that
give every module name the same namespace. -/
theorem buildModule_agree (raw : Value) (i j : Nat) {ns ns' : List (Text × Text)}
    (hns : ∀ m, lookupKey ns m = lookupKey ns' m) :
    Agree Eq (buildModule raw i ns) (buildModule raw j ns') := by
  unfold buildModule
  dsimp only
  have hsc : ∀ m, lookupKey (Scope.ofStatement raw ns).namespaces m = lookupKey ns' m := hns
  refine (mapM_agree_self fun x _ => buildDataNode_agree hsc x.1 _ _ _).bind fun ds ds' hds => ?_
  refine (mapM_agree_self fun x _ => buildOperation_agree hsc x.1 false _ _ _).bind
    fun rs rs' hrs => ?_
  refine (mapM_agree_self fun x _ => buildNotification_agree hsc x.1 _ _).bind
    fun ms ms' hms => ?_
  rw [List.forall₂_eq_eq_eq] at hds hrs hms
  subst hds hrs hms
  exact Agree.refl _

/-! ## The same modules in another order -/

theorem perm_modify {α : Type} {l l' : List α} {i j : Nat} {x : α} (g : α → α)
    (hp : l.Perm l') (hi : l[i]? = some x) (hj : l'[j]? = some x) :
    (l.modify i g).Perm (l'.modify j g) := by
  obtain ⟨hil, hix⟩ := List.getElem?_eq_some_iff.mp hi
  obtain ⟨hjl, hjx⟩ := List.getElem?_eq_some_iff.mp hj
  have split : ∀ (k : List α) (n : Nat) (hn : n < k.length), k[n] = x →
      k = k.take n ++ x :: k.drop (n + 1) ∧ k.modify n g = k.take n ++ g x :: k.drop (n + 1) := by
    intro k n hn hx
    refine ⟨?_, by rw [List.modify_eq_take_cons_drop hn, hx]⟩
    conv => lhs; rw [← List.take_append_drop n k]
    rw [← List.getElem_cons_drop hn, hx]
  obtain ⟨e, em⟩ := split l i hil hix
  obtain ⟨e', em'⟩ := split l' j hjl hjx
  have hrest : (l.take i ++ l.drop (i + 1)).Perm (l'.take j ++ l'.drop (j + 1)) := by
    have h := hp
    rw [e, e'] at h
    exact (List.perm_middle.symm.trans (h.trans List.perm_middle)).cons_inv
  rw [em, em']
  exact List.perm_middle.trans ((hrest.cons _).trans List.perm_middle.symm)

theorem map_name_modifyAt (mods : List Module) (a : Address) (f : Node → Node) :
    (modifyAt mods a f).map (·.name) = mods.map (·.name) := by
  have h := congrArg (List.map Prod.fst) (namesOf_modifyAt mods a f)
  simpa [namesOf, List.map_map, Function.comp_def] using h

/-- Two lists of modules hold the same modules, perhaps in another order, no two of one name. -/
structure Reordered (mods mods' : List Module) : Prop where
  perm : mods.Perm mods'
  nodup : (mods.map (·.name)).Nodup

/-- Two addresses name the same place in two lists of modules: the same top-level node and steps
below it, in modules of one name. -/
structure SamePlace (mods mods' : List Module) (a a' : Address) : Prop where
  top : a.top = a'.top
  steps : a.steps = a'.steps
  name : ∃ n, (mods.map (·.name))[a.module]? = some n ∧
    (mods'.map (·.name))[a'.module]? = some n

/-- Two targets resolved in two lists of modules: the same path, node and body, at the same
place. -/
structure SameTarget (mods mods' : List Module) (t t' : Target) : Prop where
  path : t.path = t'.path
  node : t.node = t'.node
  body : t.body = t'.body
  place : SamePlace mods mods' t.address t'.address

section Reordered

variable {mods mods' : List Module}

theorem latestIndex_of_nodup (hnd : (mods.map (·.name)).Nodup) {i : Nat} {m : Module}
    (hm : mods[i]? = some m) : latestIndex mods m.name = some i := by
  have hmem : (m, i) ∈ mods.zipIdx.filter (·.1.name = m.name) :=
    List.mem_filter.mpr ⟨List.mem_zipIdx_iff_getElem?.mpr hm, by simp⟩
  have honly : ∀ p ∈ mods.zipIdx.filter (·.1.name = m.name), p = (m, i) := by
    intro p hp
    obtain ⟨hz, hn⟩ := List.mem_filter.mp hp
    have hp' := List.mem_zipIdx_iff_getElem?.mp hz
    have hx : p.1 = m := List.inj_on_of_nodup_map hnd (List.mem_of_getElem? hp')
      (List.mem_of_getElem? hm) (by simpa using hn)
    have hk : p.2 = i := by
      have hlt := (List.getElem?_eq_some_iff.mp hp').1
      rw [hx, ← hm] at hp'
      exact (List.getElem?_inj hlt (hnd.of_map _)).mp hp'
    exact Prod.ext hx hk
  unfold latestIndex
  cases h : firstLatest (·.1.revision) (mods.zipIdx.filter (·.1.name = m.name)) with
  | none =>
    rw [firstLatest_eq_none] at h
    rw [h] at hmem
    exact absurd hmem List.not_mem_nil
  | some p =>
    rw [honly p ((firstLatest_eq_some _ _ _).mp h).mem]
    rfl

namespace Reordered

theorem symm (h : Reordered mods mods') : Reordered mods' mods :=
  ⟨h.perm.symm, (h.perm.map _).nodup_iff.mp h.nodup⟩

theorem eq_of_name (h : Reordered mods mods') {m m' : Module} (hm : m ∈ mods) (hm' : m' ∈ mods')
    (hn : m.name = m'.name) : m = m' :=
  List.inj_on_of_nodup_map h.nodup hm (h.perm.symm.subset hm') hn

/-- A name resolves to a module in one list exactly when it resolves to that module in the
other. -/
theorem latestIndex (h : Reordered mods mods') {n : Text} {i : Nat} {m : Module}
    (hi : latestIndex mods n = some i) (hm : mods[i]? = some m) :
    ∃ j, latestIndex mods' n = some j ∧ mods'[j]? = some m := by
  obtain ⟨m₀, hm₀, hname⟩ := name_of_latestIndex hi
  rw [hm, Option.some.injEq] at hm₀
  subst hm₀
  obtain ⟨j, hj⟩ := List.mem_iff_getElem?.mp (h.perm.subset (List.mem_of_getElem? hm))
  exact ⟨j, hname ▸ latestIndex_of_nodup h.symm.nodup hj, hj⟩

theorem modifyAt (h : Reordered mods mods') {a a' : Address} (hp : SamePlace mods mods' a a')
    (f : Node → Node) : Reordered (modifyAt mods a f) (modifyAt mods' a' f) := by
  obtain ⟨n, hn, hn'⟩ := hp.name
  simp only [List.getElem?_map, Option.map_eq_some_iff] at hn hn'
  obtain ⟨m, hm, rfl⟩ := hn
  obtain ⟨m', hm', hname⟩ := hn'
  have he : m = m' :=
    h.eq_of_name (List.mem_of_getElem? hm) (List.mem_of_getElem? hm') hname.symm
  subst he
  refine ⟨?_, by rw [map_name_modifyAt]; exact h.nodup⟩
  unfold YangDiagram.Schema.modifyAt
  rw [hp.top, hp.steps]
  exact perm_modify _ h.perm hm hm'

end Reordered

namespace SamePlace

theorem nodeAt? (h : Reordered mods mods') {a a' : Address} (hp : SamePlace mods mods' a a') :
    nodeAt? mods a = nodeAt? mods' a' := by
  obtain ⟨n, hn, hn'⟩ := hp.name
  simp only [List.getElem?_map, Option.map_eq_some_iff] at hn hn'
  obtain ⟨m, hm, rfl⟩ := hn
  obtain ⟨m', hm', hname⟩ := hn'
  have he : m = m' :=
    h.eq_of_name (List.mem_of_getElem? hm) (List.mem_of_getElem? hm') hname.symm
  subst he
  simp only [YangDiagram.Schema.nodeAt?, hm, hm', hp.top, hp.steps]

theorem of_names {a a' : Address} (hp : SamePlace mods mods' a a') {l l' : List Module}
    (hl : l.map (·.name) = mods.map (·.name)) (hl' : l'.map (·.name) = mods'.map (·.name)) :
    SamePlace l l' a a' :=
  ⟨hp.top, hp.steps, by rw [hl, hl']; exact hp.name⟩

theorem under {a a' : Address} (hp : SamePlace mods mods' a a') (s : Slot) :
    SamePlace mods mods' { a with steps := a.steps ++ [s] } { a' with steps := a'.steps ++ [s] } :=
  ⟨hp.top, by simp [hp.steps], hp.name⟩

end SamePlace

end Reordered

/-! ## Resolving and applying an augment in reordered modules -/

section Augment

variable {mods mods' : List Module}

theorem stepTarget_agree (h : Reordered mods mods') {sofar sofar' : Option Target}
    (hs : Option.Rel (SameTarget mods mods') sofar sofar') (sc : Scope) (ns : List (Text × Text))
    (text place place' seg : Text) :
    Agree (SameTarget mods mods') (stepTarget sc mods text place sofar seg)
      (stepTarget { sc with namespaces := ns } mods' text place' sofar' seg) := by
  unfold stepTarget
  rw [show ({ sc with namespaces := ns } : Scope).prefixName = sc.prefixName from rfl]
  split
  rename_i pre l _
  refine (resolve_agree sc ns pre place place').bind fun n _ hn => ?_
  subst hn
  dsimp only
  cases hi : latestIndex mods n with
  | none =>
    cases hj : latestIndex mods' n with
    | none => exact Agree.throw_throw _ _
    | some j =>
      obtain ⟨m', hm', -⟩ := name_of_latestIndex hj
      obtain ⟨i, hi', -⟩ := h.symm.latestIndex hj hm'
      rw [hi] at hi'
      cases hi'
  | some i =>
    obtain ⟨m, hm, -⟩ := name_of_latestIndex hi
    obtain ⟨j, hj, hm'⟩ := h.latestIndex hi hm
    have hplace : ∃ k, (mods.map (·.name))[i]? = some k ∧ (mods'.map (·.name))[j]? = some k :=
      ⟨m.name, by simp [hm], by simp [hm']⟩
    simp only [hj, hm, hm']
    cases hs with
    | none =>
      cases hf : List.find? (fun x => x.2.qname.same ⟨m.name, m.namespaceUri, l⟩) m.tops with
      | none => exact Agree.throw_throw _ _
      | some p => exact ⟨rfl, rfl, rfl, ⟨rfl, rfl, hplace⟩⟩
    | some hst =>
      dsimp only
      rw [← hst.node]
      cases hf : List.find? (fun x => x.2.qname.same ⟨m.name, m.namespaceUri, l⟩)
          (Target.node _).slots with
      | none => exact Agree.throw_throw _ _
      | some p =>
        refine ⟨by simp [hst.path], rfl, ?_, hst.place.under _⟩
        simp only [Option.bind_some, hst.body]

/-- A target path resolves in reordered modules to the same node, or in neither. -/
theorem resolveTarget_agree (h : Reordered mods mods') (sc : Scope) (ns : List (Text × Text))
    (text place place' : Text) :
    Agree (SameTarget mods mods') (resolveTarget sc mods text place)
      (resolveTarget { sc with namespaces := ns } mods' text place') := by
  unfold resolveTarget
  refine (foldlM_agree (S := Eq) (R := Option.Rel (SameTarget mods mods')) ?_
    (List.forall₂_same.mpr fun _ _ => rfl) Option.Rel.none).bind fun found found' hf => ?_
  · intro _ _ seg _ hst hseg
    subst hseg
    exact (stepTarget_agree h hst sc ns text _ _ seg).map fun _ _ ht => Option.Rel.some ht
  cases hf with
  | none => exact Agree.throw_throw _ _
  | some ht => exact ht

theorem attach_agree (h : Reordered mods mods') {sc : Scope} {ns : List (Text × Text)}
    (hns : ∀ m, lookupKey sc.namespaces m = lookupKey ns m) {t t' : Target}
    (ht : SameTarget mods mods' t t') (raw : Value) (place place' : Text) :
    Agree (fun r r' => Reordered r.1 r'.1 ∧ r.1.map (·.name) = mods.map (·.name) ∧
        r'.1.map (·.name) = mods'.map (·.name))
      (attach sc mods t raw place) (attach { sc with namespaces := ns } mods' t' raw place') := by
  have hmod : ∀ f : Node → Node,
      Reordered (modifyAt mods t.address f) (modifyAt mods' t'.address f) ∧
      (modifyAt mods t.address f).map (·.name) = mods.map (·.name) ∧
      (modifyAt mods' t'.address f).map (·.name) = mods'.map (·.name) := fun f =>
    ⟨h.modifyAt ht.place f, map_name_modifyAt _ _ _, map_name_modifyAt _ _ _⟩
  unfold attach
  rw [← ht.node]
  dsimp only
  split
  any_goals exact Agree.throw_throw _ _
  any_goals
    refine Agree.ite (fun _ => Agree.throw_throw _ _) fun _ => Agree.ite (fun _ => ?_) fun _ => ?_
    · refine (buildOperation_agree hns raw true _ _ _).bind fun _ _ ha => ?_
      subst ha
      exact hmod _
    · refine (buildDataNode_agree hns raw _ _ _).bind fun _ _ hn => ?_
      subst hn
      exact hmod _
  any_goals
    refine Agree.ite (fun _ => Agree.throw_throw _ _) fun _ =>
      (buildCase_agree hns raw _ _ _).bind fun _ _ hn => ?_
    subst hn
    exact hmod _
  all_goals
    refine Agree.ite (fun _ => Agree.throw_throw _ _) fun _ =>
      (buildDataNode_agree hns raw _ _ _).bind fun _ _ hn => ?_
    subst hn
    exact hmod _

/-- An augment statement applies to reordered modules alike: in both it fails, or in both it
leaves reordered modules. -/
theorem applyAugment_agree (h : Reordered mods mods') {sc : Scope} {ns : List (Text × Text)}
    (hns : ∀ m, lookupKey sc.namespaces m = lookupKey ns m) (raw : Value) (place place' : Text) :
    Agree (fun r r' => Reordered r.1 r'.1) (applyAugment sc mods raw place)
      (applyAugment { sc with namespaces := ns } mods' raw place') := by
  unfold applyAugment
  dsimp only
  refine (resolveTarget_agree h sc ns _ _ _).bind fun t t' ht => ?_
  refine (foldlM_agree (S := Eq)
    (R := fun acc acc' => Reordered acc.1 acc'.1 ∧ acc.1.map (·.name) = mods.map (·.name) ∧
      acc'.1.map (·.name) = mods'.map (·.name)) ?_
    (List.forall₂_same.mpr fun _ _ => rfl) ⟨h, rfl, rfl⟩).bind fun r r' hr => Agree.pure hr.1
  intro acc acc' x _ hacc hx
  subst hx
  obtain ⟨hre, hn, hn'⟩ := hacc
  have hplace : SamePlace acc.1 acc'.1 t.address t'.address := ht.place.of_names hn hn'
  rw [← hplace.nodeAt? hre]
  cases nodeAt? acc.1 t.address with
  | none => exact Agree.throw_throw _ _
  | some node =>
    dsimp only
    have htarget : SameTarget acc.1 acc'.1 { t with node } { t' with node } :=
      ⟨ht.path, rfl, ht.body, hplace⟩
    refine (attach_agree hre hns htarget x.1 _ _).bind fun r r' hr => ?_
    exact ⟨hr.1, hr.2.1.trans hn, hr.2.2.trans hn'⟩

/-- The augment statements of a module statement apply to reordered modules alike, wherever the
statement stands. -/
theorem applyAugments_agree {ns ns' : List (Text × Text)}
    (hns : ∀ m, lookupKey ns m = lookupKey ns' m) {acc acc' : List Module × List (Nat × Applied)}
    (h : Reordered acc.1 acc'.1) (raw : Value) (k k' : Nat) :
    Agree (fun r r' => Reordered r.1 r'.1) (applyAugments ns acc raw k)
      (applyAugments ns' acc' raw k') := by
  unfold applyAugments
  dsimp only
  refine foldlM_agree (S := Eq) ?_ (List.forall₂_same.mpr fun _ _ => rfl) h
  intro a b x _ hab hx
  subst hx
  have hsc : ∀ m, lookupKey (Scope.ofStatement raw ns).namespaces m = lookupKey ns' m := hns
  exact (applyAugment_agree hab hsc x.1 _ _).bind fun r r' hr => Agree.pure hr

theorem applyAugments_of_not_hasAugments {ns : List (Text × Text)}
    (acc : List Module × List (Nat × Applied)) {raw : Value} (h : hasAugments raw = false)
    (k : Nat) : applyAugments ns acc raw k = pure acc := by
  have hnil : raw.itemsAt "augments" = [] := by simpa [hasAugments] using h
  simp [applyAugments, hnil]

end Augment

/-! ## Loading a reordered document -/

theorem foldlM_filter {m : Type → Type} [Monad m] [LawfulMonad m] {α β : Type}
    {f : β → α → m β} {p : α → Bool} (hskip : ∀ b x, p x = false → f b x = pure b)
    (l : List α) (b : β) : l.foldlM f b = (l.filter p).foldlM f b := by
  induction l generalizing b with
  | nil => rfl
  | cons x l ih =>
    cases hx : p x
    · rw [List.foldlM_cons, hskip b x hx, pure_bind, List.filter_cons_of_neg (by simp [hx]), ih]
    · rw [List.foldlM_cons, List.filter_cons_of_pos hx, List.foldlM_cons]
      exact congrArg _ (funext fun b' => ih b')

/-- The statements of a reordered document build the same modules, in the new order. -/
theorem build_agree {raws raws' : List Value} (hp : raws.Perm raws')
    (hnd : (raws.map statementName).Nodup) :
    Agree Reordered (raws.zipIdx.mapM fun p => buildModule p.1 p.2 (namespacesOf raws))
      (raws'.zipIdx.mapM fun p => buildModule p.1 p.2 (namespacesOf raws')) := by
  have hindex : ∀ (rs : List Value) (ns : List (Text × Text)),
      Agree Eq (rs.zipIdx.mapM fun p => buildModule p.1 p.2 ns)
        (rs.mapM fun raw => buildModule raw 0 ns) := by
    intro rs ns
    have hfst : List.Forall₂ (fun p raw => p.1 = raw) rs.zipIdx rs := by
      have h : List.Forall₂ (fun p raw => p.1 = raw) rs.zipIdx (rs.zipIdx.map Prod.fst) :=
        List.forall₂_map_right_iff.mpr (List.forall₂_same.mpr fun _ _ => rfl)
      rwa [List.zipIdx_map_fst] at h
    have h := mapM_agree (f := fun p : Value × Nat => buildModule p.1 p.2 ns)
      (g := fun raw => buildModule raw 0 ns) (S := fun p raw => p.1 = raw) (R := Eq)
      (fun p raw hp => hp ▸ buildModule_agree p.1 p.2 0 fun _ => rfl) hfst
    rwa [List.forall₂_eq_eq_eq] at h
  have hperm₀ := mapM_perm (f := fun raw => buildModule raw 0 (namespacesOf raws)) hp
  have hsame : Agree (List.Forall₂ Eq) (raws'.mapM fun raw => buildModule raw 0 (namespacesOf raws))
      (raws'.mapM fun raw => buildModule raw 0 (namespacesOf raws')) :=
    mapM_agree_self fun raw _ => buildModule_agree raw 0 0 (lookupKey_namespacesOf_perm hp hnd)
  rw [List.forall₂_eq_eq_eq] at hsame
  have hperm := ((hindex raws _).trans hperm₀ fun _ _ _ h₁ h₂ => h₁ ▸ h₂).trans
    (hsame.trans (hindex raws' _).symm fun _ _ _ h₁ h₂ => h₁.trans h₂.symm)
    fun _ _ _ h₁ h₂ => h₂ ▸ h₁
  refine (hperm.and_left (P := fun built => (built.map (·.name)).Nodup)
    fun built hbuilt => ?_).imp fun _ _ h => ⟨h.1, h.2⟩
  have hnames := forall₂_of_mapM_zipIdx (R := fun raw m => m.name = statementName raw) hbuilt
    fun _ _ _ hm => (buildModule_names hm).1
  have heq : raws.map statementName = built.map (·.name) := by
    rw [← List.forall₂_eq_eq_eq, List.forall₂_map_left_iff, List.forall₂_map_right_iff]
    exact hnames.imp fun _ _ h => h.symm
  rw [← heq]
  exact hnd

theorem map_fst_filter_zipIdx (raws : List Value) :
    (raws.zipIdx.filter fun q => hasAugments q.1).map Prod.fst = raws.filter hasAugments := by
  have h := List.filter_map (f := Prod.fst) (p := hasAugments) (l := raws.zipIdx)
  rw [List.zipIdx_map_fst] at h
  exact h.symm

/-- Reordering the module statements of a document keeps whether it loads, when no two statements
share a module name and those with augment statements keep their order among themselves. -/
theorem Context.load_reorder_iff {ms : Members} {raws raws' : List Value}
    (hmodules : Members.find? ms "modules" = some (.arr raws))
    (hnames : (raws.map statementName).Nodup) (hperm : raws.Perm raws')
    (horder : raws.filter hasAugments = raws'.filter hasAugments) :
    (∃ ctx, Context.load (.obj ms) = .ok ctx) ↔
      ∃ ctx', Context.load (.obj (ms.set "modules" (.arr raws'))) = .ok ctx' := by
  refine Agree.ok_iff (R := fun _ _ => True) ?_
  have hitems : (Value.obj ms).itemsAt "modules" = raws := by
    simp [Value.itemsAt, Value.get?, hmodules]
  have hitems' : (Value.obj (ms.set "modules" (.arr raws'))).itemsAt "modules" = raws' := by
    simp [Value.itemsAt, Value.get?, Members.find?_set_self]
  have hcheck := Document.check_set_modules hmodules hperm
  unfold Context.load
  rw [hitems, hitems']
  cases hc : Document.check (.obj ms) with
  | some f =>
    cases hc' : Document.check (.obj (ms.set "modules" (.arr raws'))) with
    | some f' => exact Agree.throw_throw _ _
    | none => exact absurd (hcheck.mpr hc') (by simp [hc])
  | none =>
    rw [hcheck.mp hc]
    dsimp only
    refine (build_agree hperm hnames).bind fun built built' hbuilt => ?_
    have hskip : ∀ (ns : List (Text × Text)) (acc : List Module × List (Nat × Applied))
        (q : Value × Nat), hasAugments q.1 = false → applyAugments ns acc q.1 q.2 = pure acc :=
      fun _ acc _ hq => applyAugments_of_not_hasAugments acc hq _
    rw [foldlM_filter (hskip (namespacesOf raws)), foldlM_filter (hskip (namespacesOf raws'))]
    have hsame : List.Forall₂ (fun q q' => q.1 = q'.1)
        (raws.zipIdx.filter fun q => hasAugments q.1)
        (raws'.zipIdx.filter fun q => hasAugments q.1) := by
      have h : List.Forall₂ Eq ((raws.zipIdx.filter fun q => hasAugments q.1).map Prod.fst)
          ((raws'.zipIdx.filter fun q => hasAugments q.1).map Prod.fst) := by
        rw [List.forall₂_eq_eq_eq, map_fst_filter_zipIdx, map_fst_filter_zipIdx, horder]
      rwa [List.forall₂_map_left_iff, List.forall₂_map_right_iff] at h
    refine Agree.bind (foldlM_agree (R := fun acc acc' => Reordered acc.1 acc'.1) ?_ hsame hbuilt)
      fun _ _ _ => trivial
    intro acc acc' q q' hacc hq
    rw [← hq]
    exact applyAugments_agree (lookupKey_namespacesOf_perm hperm hnames) hacc q.1 q.2 q'.2

open AugmentChain in
/-- Moving the module without augments of the chain of augments to the end keeps the document
loading. -/
theorem load_reorder_augmentChain :
    Members.find? [("modules", .arr [rawA, rawB, rawC])] "modules" =
        some (.arr [rawA, rawB, rawC]) ∧
      ([rawA, rawB, rawC].map statementName).Nodup ∧ [rawA, rawB, rawC].Perm [rawB, rawC, rawA] ∧
      [rawA, rawB, rawC].filter hasAugments = [rawB, rawC, rawA].filter hasAugments ∧
      ∃ ctx', Context.load (.obj (Members.set [("modules", .arr [rawA, rawB, rawC])] "modules"
        (.arr [rawB, rawC, rawA]))) = .ok ctx' := by
  have hm : Members.find? [("modules", .arr [rawA, rawB, rawC])] "modules" =
      some (.arr [rawA, rawB, rawC]) := by
    simp [Members.find?]
  have hn : ([rawA, rawB, rawC].map statementName).Nodup := by
    decide
  have hp : [rawA, rawB, rawC].Perm [rawB, rawC, rawA] :=
    (List.perm_append_comm : ([rawA] ++ [rawB, rawC]).Perm ([rawB, rawC] ++ [rawA]))
  have hf : [rawA, rawB, rawC].filter hasAugments = [rawB, rawC, rawA].filter hasAugments := by
    have hA : hasAugments rawA = false := by decide
    have hB : hasAugments rawB = true := by decide
    have hC : hasAugments rawC = true := by decide
    simp [hA, hB, hC]
  exact ⟨hm, hn, hp, hf, (Context.load_reorder_iff hm hn hp hf).mp ⟨_, load_docBC⟩⟩

open AugmentChain in
/-- Three modules that load in one order and not in another: `c`'s target passes through the
container `b` adds, which is not there yet when `c` comes first. -/
theorem load_depends_on_module_order :
    [rawA, rawB, rawC].Perm [rawA, rawC, rawB] ∧
      Context.load (.obj [("modules", .arr [rawA, rawB, rawC])]) = .ok contextBC ∧
      Context.load (.obj [("modules", .arr [rawA, rawC, rawB])]) =
        .error (.targetNotFound "/a:x/b:c" "c" "/modules/1/augments/0/target") :=
  ⟨.cons _ (.swap _ _ _), load_docBC, load_docCB⟩

end YangDiagram.Schema
