-- Augment targets: when no namespace is shared by two module names, a resolved target is the
-- path of the node reached, and every node a statement adds stands one name below it.
import Mathlib
import YangDiagram.Proofs.Schema.Recorded
import YangDiagram.Schema.Lookup

namespace YangDiagram.Schema

open YangDiagram.Json YangDiagram.Document

/-! ## Pieces of a split -/

/-- Every piece of a list split where a test holds is made of items of the list that fail the
test. -/
theorem forall_mem_splitOnP {α : Type} {p : α → Bool} :
    ∀ {xs : List α}, ∀ l ∈ xs.splitOnP p, ∀ x ∈ l, x ∈ xs ∧ p x = false
  | [], l, hl, x, hx => by
    rw [List.splitOnP_nil, List.mem_singleton] at hl
    subst hl
    simp at hx
  | y :: ys, l, hl, x, hx => by
    rw [List.splitOnP_cons_eq_if_modifyHead] at hl
    split at hl
    · rcases List.mem_cons.mp hl with rfl | hl
      · simp at hx
      · obtain ⟨h₁, h₂⟩ := forall_mem_splitOnP l hl x hx
        exact ⟨List.mem_cons_of_mem _ h₁, h₂⟩
    · rename_i hy
      cases hrest : ys.splitOnP p with
      | nil => simp [hrest] at hl
      | cons l₀ rest =>
        rw [hrest, List.modifyHead_cons, List.mem_cons] at hl
        rcases hl with rfl | hl
        · rcases List.mem_cons.mp hx with rfl | hx
          · exact ⟨List.mem_cons_self, by simpa using hy⟩
          · have hl₀ : l₀ ∈ ys.splitOnP p := by simp [hrest]
            obtain ⟨h₁, h₂⟩ := forall_mem_splitOnP l₀ hl₀ x hx
            exact ⟨List.mem_cons_of_mem _ h₁, h₂⟩
        · have hl' : l ∈ ys.splitOnP p := by simp [hrest, hl]
          obtain ⟨h₁, h₂⟩ := forall_mem_splitOnP l hl' x hx
          exact ⟨List.mem_cons_of_mem _ h₁, h₂⟩

theorem mem_intercalate_cases {α : Type} {sep : List α} :
    ∀ {ls : List (List α)} {x : α}, x ∈ sep.intercalate ls → x ∈ sep ∨ ∃ l ∈ ls, x ∈ l
  | [], x, h => by simp at h
  | [l], x, h => by
    rw [List.intercalate_singleton] at h
    exact .inr ⟨l, List.mem_singleton_self l, h⟩
  | l :: l' :: ls, x, h => by
    rw [List.intercalate_cons_cons] at h
    simp only [List.mem_append] at h
    rcases h with (h | h) | h
    · exact .inr ⟨l, List.mem_cons_self, h⟩
    · exact .inl h
    · rcases mem_intercalate_cases h with h | ⟨l'', hl'', h⟩
      · exact .inl h
      · exact .inr ⟨l'', List.mem_cons_of_mem _ hl'', h⟩

theorem units_of_mem_splitOn {t s : Text} {u : UInt16} (hs : s ∈ t.splitOn u) :
    ∀ x ∈ s.units, x ∈ t.units ∧ x ≠ u := by
  simp only [Text.splitOn, List.mem_map] at hs
  obtain ⟨l, hl, rfl⟩ := hs
  intro x hx
  obtain ⟨h₁, h₂⟩ := forall_mem_splitOnP l hl x hx
  exact ⟨h₁, by simpa using h₂⟩

/-! ## Names qualified by the latest revision -/

@[simp] theorem Module.revision_modifyTop (g : Node → Node) (m : Module) (t : Top) :
    (m.modifyTop g t).revision = m.revision := by
  cases t <;> rfl

def headersOf (mods : List Module) : List (Text × Option Text × Text) :=
  mods.map fun m => (m.name, m.revision, m.namespaceUri)

theorem headersOf_modifyAt (mods : List Module) (a : Address) (f : Node → Node) :
    headersOf (modifyAt mods a f) = headersOf mods := by
  apply List.ext_getElem?
  intro j
  simp only [headersOf, modifyAt, List.getElem?_map, List.getElem?_modify]
  split <;> simp [Function.comp_def]

theorem latestIndex_eq (mods : List Module) (name : Text) :
    latestIndex mods name =
      (firstLatest (·.1.2.1) ((headersOf mods).zipIdx.filter (·.1.1 = name))).map (·.2) := by
  rw [latestIndex, headersOf, List.zipIdx_map, List.filter_map, firstLatest_map, Option.map_map]
  rfl

theorem name_of_latestIndex {mods : List Module} {name : Text} {i : Nat}
    (h : latestIndex mods name = some i) : ∃ m, mods[i]? = some m ∧ m.name = name := by
  rw [latestIndex, Option.map_eq_some_iff] at h
  obtain ⟨⟨m, k⟩, hfirst, rfl⟩ := h
  have hmem := ((firstLatest_eq_some _ _ _).mp hfirst).mem
  rw [List.mem_filter] at hmem
  exact ⟨m, List.mem_zipIdx_iff_getElem?.mp hmem.1, by simpa using hmem.2⟩

/-- A name qualified by the latest revision of its module: the module its module name resolves
to has the name's namespace. -/
def LatestNamed (mods : List Module) (q : QName) : Prop :=
  ∃ i m, latestIndex mods q.module = some i ∧ mods[i]? = some m ∧ m.namespaceUri = q.namespaceUri

theorem LatestNamed.of_headersOf {mods mods' : List Module} (h : headersOf mods' = headersOf mods)
    {q : QName} (hq : LatestNamed mods q) : LatestNamed mods' q := by
  obtain ⟨i, m, hi, hm, hns⟩ := hq
  have hheader : (headersOf mods')[i]? = some (m.name, m.revision, m.namespaceUri) := by
    rw [h]
    simp [headersOf, hm]
  simp only [headersOf, List.getElem?_map, Option.map_eq_some_iff, Prod.mk.injEq] at hheader
  obtain ⟨m', hm', -, -, hns'⟩ := hheader
  exact ⟨i, m', by rw [latestIndex_eq, h, ← latestIndex_eq]; exact hi, hm', hns'.trans hns⟩

theorem LatestNamed.namespaceUri_eq {mods : List Module} {q q' : QName} (hq : LatestNamed mods q)
    (hq' : LatestNamed mods q') (h : q.module = q'.module) : q.namespaceUri = q'.namespaceUri := by
  obtain ⟨i, m, hi, hm, hns⟩ := hq
  obtain ⟨i', m', hi', hm', hns'⟩ := hq'
  rw [h, hi', Option.some.injEq] at hi
  subst hi
  rw [hm, Option.some.injEq] at hm'
  subst hm'
  exact hns.symm.trans hns'

/-! ## Looking a node up by its step -/

theorem Module.top?_of_mem_tops {m : Module} {t : Top} {n : Node} (h : (t, n) ∈ m.tops) :
    m.top? t = some n := by
  simp only [Module.tops, List.mem_append, List.mem_map, Prod.mk.injEq] at h
  rw [Module.top?_eq]
  rcases h with (⟨⟨x, i⟩, hx, rfl, rfl⟩ | ⟨⟨x, i⟩, hx, rfl, rfl⟩) | ⟨⟨x, i⟩, hx, rfl, rfl⟩ <;>
    exact List.mem_zipIdx_iff_getElem?.mp hx

theorem Node.slot?_of_mem_slots {n c : Node} {s : Slot} (h : (s, c) ∈ n.slots) :
    n.slot? s = some c := by
  cases s with
  | child i =>
    rw [slot?_child]
    cases n <;> simp [slots, childList, List.mem_zipIdx_iff_getElem?] at h ⊢ <;> exact h
  | action i =>
    rw [slot?_action]
    cases n <;> simp [slots, actionList, List.mem_zipIdx_iff_getElem?] at h ⊢ <;> exact h
  | input =>
    rw [slot?_body _ (.inl rfl)]
    cases n <;> simp [slots, body?] at h ⊢ <;> exact h.symm
  | output =>
    rw [slot?_body _ (.inr rfl)]
    cases n <;> simp [slots, body?] at h ⊢ <;> exact h.symm

/-! ## Resolving a target -/

/-- One step of a target path qualifies a slash-free local name by the latest revision of a
module, and takes the first node with that namespace and name where the walk stands. -/
theorem stepTarget_cases {sc : Scope} {mods : List Module} {text place seg : Text}
    {sofar : Option Target} {t : Target} (h : stepTarget sc mods text place sofar seg = .ok t) :
    ∃ (l : Text) (mi : Nat) (m : Module), (Text.unit '/' ∉ seg.units → Text.unit '/' ∉ l.units) ∧
      latestIndex mods m.name = some mi ∧ mods[mi]? = some m ∧
      t.path = (sofar.map (·.path)).getD [] ++ [⟨m.name, m.namespaceUri, l⟩] ∧
      t.node.qname.same ⟨m.name, m.namespaceUri, l⟩ = true ∧
      ((sofar = none ∧ ∃ top, (top, t.node) ∈ m.tops ∧ t.address = ⟨mi, top, []⟩) ∨
        ∃ s, sofar = some s ∧ ∃ slot, (slot, t.node) ∈ s.node.slots ∧
          t.address = { s.address with steps := s.address.steps ++ [slot] }) := by
  unfold stepTarget at h
  simp only [bind, Except.bind, pure, Except.pure] at h
  split at h
  · cases h
  · rename_i moduleName hresolve
    split at h
    · rename_i mi hmi
      split at h
      · rename_i m hm
        split at h
        · rename_i a n hfound
          cases h
          obtain ⟨m', hm', hname⟩ := name_of_latestIndex hmi
          rw [hm, Option.some.injEq] at hm'
          subst hm'
          refine ⟨_, mi, m, ?_, by rw [hname]; exact hmi, hm, rfl, ?_, ?_⟩
          · intro hseg hmem
            split at hmem
            · rename_i l hl
              exact hseg (units_of_mem_splitOn (hl ▸ List.mem_singleton_self l) _ hmem).1
            · rename_i p rest hl
              rcases mem_intercalate_cases hmem with hc | ⟨r, hr, hc⟩
              · exact absurd hc (by decide)
              · obtain ⟨r', hr', rfl⟩ := List.mem_map.mp hr
                have hpiece : r' ∈ seg.splitOn (Text.unit ':') := by
                  rw [hl]
                  exact List.mem_cons_of_mem _ hr'
                exact hseg (units_of_mem_splitOn hpiece _ hc).1
            · exact hseg hmem
          · cases sofar with
            | none =>
              simp only [Option.map_eq_some_iff] at hfound
              obtain ⟨⟨top, x⟩, hx, heq⟩ := hfound
              cases heq
              simpa using List.find?_some hx
            | some s =>
              simp only [Option.map_eq_some_iff] at hfound
              obtain ⟨⟨slot, x⟩, hx, heq⟩ := hfound
              cases heq
              simpa using List.find?_some hx
          · cases sofar with
            | none =>
              simp only [Option.map_eq_some_iff] at hfound
              obtain ⟨⟨top, x⟩, hx, heq⟩ := hfound
              cases heq
              exact .inl ⟨rfl, top, List.mem_of_find?_eq_some hx, rfl⟩
            | some s =>
              simp only [Option.map_eq_some_iff] at hfound
              obtain ⟨⟨slot, x⟩, hx, heq⟩ := hfound
              cases heq
              exact .inr ⟨s, rfl, slot, List.mem_of_find?_eq_some hx, rfl⟩
        · cases h
      · cases h
    · cases h

/-- Resolving a target keeps a property of the target reached so far that holds before the first
step and that every step keeps, each step taking a piece of the path between slashes. -/
theorem resolveTarget_induct {sc : Scope} {mods : List Module} {text place : Text} {t : Target}
    (P : Option Target → Prop) (hnone : P none)
    (hstep : ∀ sofar seg t', P sofar → Text.unit '/' ∉ seg.units →
      stepTarget sc mods text place sofar seg = .ok t' → P (some t'))
    (h : resolveTarget sc mods text place = .ok t) : P (some t) := by
  unfold resolveTarget at h
  simp only [bind, Except.bind, pure, Except.pure] at h
  split at h
  · cases h
  · rename_i found hfold
    split at h
    · cases h
      refine foldlM_ok_invariant_mem P ?_ hnone hfold
      intro sofar seg next hseg hsofar hnext
      have hslash : Text.unit '/' ∉ seg.units := fun hmem =>
        (units_of_mem_splitOn (List.mem_of_mem_drop hseg) _ hmem).2 rfl
      cases hres : stepTarget sc mods text place sofar seg with
      | error e => simp [hres] at hnext
      | ok t' =>
        simp only [hres, Functor.map, Except.map, Except.ok.injEq] at hnext
        subst hnext
        exact hstep sofar seg t' hsofar hslash hres
    · cases h

/-- A target found in modules: its node stands at its address, and each name of its path is
qualified by the latest revision of its module with a local name that holds no slash. -/
def Target.Found (mods : List Module) (t : Target) : Prop :=
  nodeAt? mods t.address = some t.node ∧
    ∀ q ∈ t.path, LatestNamed mods q ∧ Text.unit '/' ∉ q.localName.units

theorem stepTarget_found {sc : Scope} {mods : List Module} {text place seg : Text}
    {sofar : Option Target} {t : Target} (hsofar : ∀ s ∈ sofar, s.Found mods)
    (hseg : Text.unit '/' ∉ seg.units) (h : stepTarget sc mods text place sofar seg = .ok t) :
    t.Found mods := by
  obtain ⟨l, mi, m, hl, hmi, hm, hpath, -, hcases⟩ := stepTarget_cases h
  have hq : LatestNamed mods ⟨m.name, m.namespaceUri, l⟩ ∧ Text.unit '/' ∉ l.units :=
    ⟨⟨mi, m, hmi, hm, rfl⟩, hl hseg⟩
  rcases hcases with ⟨rfl, top, htop, haddr⟩ | ⟨s, rfl, slot, hslot, haddr⟩
  · refine ⟨by simp [haddr, nodeAt?_eq, hm, Module.top?_of_mem_tops htop, Node.nodeAt?], ?_⟩
    rw [hpath]
    simpa using hq
  · obtain ⟨hs, hsq⟩ := hsofar s rfl
    refine ⟨by rw [haddr, nodeAt?_under hs, Node.slot?_of_mem_slots hslot], ?_⟩
    rw [hpath]
    intro q hq'
    rcases List.mem_append.mp hq' with hq' | hq'
    · exact hsq q hq'
    · rw [List.mem_singleton] at hq'
      subst hq'
      exact hq

/-- A resolved target is found: its node stands at its address. -/
theorem resolveTarget_found {sc : Scope} {mods : List Module} {text place : Text} {t : Target}
    (h : resolveTarget sc mods text place = .ok t) : t.Found mods :=
  resolveTarget_induct (fun sofar => ∀ s ∈ sofar, s.Found mods) (by simp)
    (fun _ _ _ hsofar hseg hstep s hs => (Option.mem_some_iff.mp hs) ▸ stepTarget_found hsofar hseg hstep)
    h _ rfl

section Exact

variable {named : QName → Prop} {mods : List Module}

-- modules that stand with names of modules of the list, no two module names sharing a namespace
variable (hst : ∀ m ∈ mods, m.Stands named)
  (hnamed : ∀ q, named q → ∃ m ∈ mods, m.name = q.module ∧ m.namespaceUri = q.namespaceUri)
  (hns : ∀ m ∈ mods, ∀ m' ∈ mods, m.namespaceUri = m'.namespaceUri → m.name = m'.name)

include hnamed hns in
/-- A node named after a module that has the namespace and local name of a name qualified by a
module has that very name: the two modules share a namespace, so they share a name. -/
theorem qname_eq_of_same {n : Node} {p : List QName} (hn : n.Under named p) {m : Module}
    (hm : m ∈ mods) {l : Text} (hsame : n.qname.same ⟨m.name, m.namespaceUri, l⟩ = true) :
    n.qname = ⟨m.name, m.namespaceUri, l⟩ := by
  obtain ⟨N, hN, hname, hnsN⟩ := hnamed _ hn.name
  rcases hq : n.qname with ⟨mod, uri, loc⟩
  rw [hq] at hname hnsN hsame
  simp only [QName.same, Bool.and_eq_true, beq_iff_eq] at hname hnsN hsame
  have hNm : N.name = m.name := hns N hN m hm (hnsN.trans hsame.1)
  rw [← hname, hNm, hsame.1, hsame.2]

include hst hnamed hns in
/-- One step of a target path from a found target whose path is its node's path reaches a node
whose path is the target's path: the name the step resolves to is the node's own name. -/
theorem stepTarget_exact {sc : Scope} {text place seg : Text} {sofar : Option Target}
    {t : Target} (hsofar : ∀ s ∈ sofar, s.Found mods ∧ s.node.path = s.path)
    (h : stepTarget sc mods text place sofar seg = .ok t) : t.node.path = t.path := by
  obtain ⟨l, mi, m, -, -, hm, hpath, hsame, hcases⟩ := stepTarget_cases h
  have hmods : m ∈ mods := List.mem_of_getElem? hm
  rcases hcases with ⟨rfl, top, htop, -⟩ | ⟨s, rfl, slot, hslot, -⟩
  · have hunder : t.node.Under named [] := (hst m hmods).top? (Module.top?_of_mem_tops htop)
    rw [hunder.path_eq, hpath, qname_eq_of_same hnamed hns hunder hmods hsame]
    rfl
  · obtain ⟨⟨hs, -⟩, hspath⟩ := hsofar s rfl
    obtain ⟨p, hsu⟩ := under_nodeAt? hst hs
    have hunder : t.node.Under named s.node.path :=
      hsu.child (Node.mem_childNodes_of_mem_slots hslot)
    rw [hunder.path_eq, hspath, hpath, qname_eq_of_same hnamed hns hunder hmods hsame]
    rfl

include hst hnamed hns in
/-- When no two module names share a namespace, a resolved target's path is its node's path. -/
theorem resolveTarget_exact {sc : Scope} {text place : Text} {t : Target}
    (h : resolveTarget sc mods text place = .ok t) : t.node.path = t.path :=
  (resolveTarget_induct (fun sofar => ∀ s ∈ sofar, s.Found mods ∧ s.node.path = s.path) (by simp)
    (fun _ _ _ hsofar hseg hstep s hs => (Option.mem_some_iff.mp hs) ▸
      ⟨stepTarget_found (fun s hs => (hsofar s hs).1) hseg hstep,
        stepTarget_exact hst hnamed hns hsofar hstep⟩)
    h _ rfl).2

end Exact

/-! ## Applying augments -/

def HoldsAt (mods : List Module) (a : Address) (P : Info → Prop) : Prop :=
  ∃ n, nodeAt? mods a = some n ∧ P n.info

theorem HoldsAt.modifyAt {mods : List Module} {a : Address} {P : Info → Prop} {f : Node → Node}
    (hf : Node.Keeps f) (b : Address) (h : HoldsAt mods a P) : HoldsAt (modifyAt mods b f) a P := by
  obtain ⟨n, hn, hP⟩ := h
  obtain ⟨n', hn', hinfo⟩ := nodeAt?_modifyAt hf b hn
  exact ⟨n', hn', hinfo ▸ hP⟩

section Apply

variable {named : QName → Prop} {sc : Scope} {mods mods' : List Module} {raw : Value}
  {place : Text}

/-- Attaching under a target's node keeps standing modules standing, keeps the information at
every address, and adds a node one name below that node. -/
theorem attach_stands {target : Target} {a : Address} (hst : ∀ m ∈ mods, m.Stands named)
    (hsc : ∀ q, sc.Defines q → named q) (ht : nodeAt? mods target.address = some target.node)
    (h : attach sc mods target raw place = .ok (mods', a)) :
    (∀ m ∈ mods', m.Stands named) ∧ headersOf mods' = headersOf mods ∧
      HoldsAt mods' a (fun i => i.path = target.node.path ++ [i.qname]) ∧
      ∀ b P, HoldsAt mods b P → HoldsAt mods' b P := by
  obtain ⟨c, -, -, hunder, -, hcases⟩ := attach_added h
  have hc : c.Under named target.node.path := hunder.mono hsc
  rcases hcases with ⟨htake, hr⟩ | ⟨hkind, hr⟩
  · obtain ⟨rfl, rfl⟩ := Prod.mk.inj hr
    refine ⟨stands_modifyAt hst ht (Node.keeps_addChild c) fun q hq => Node.Under.addChild hc hq,
      headersOf_modifyAt _ _ _, ⟨c, ?_, hunder.path_eq⟩,
      fun b P hb => hb.modifyAt (Node.keeps_addChild c) _⟩
    rw [nodeAt?_under (nodeAt?_modifyAt_self ht), Node.slot?_addChild_length htake]
  · obtain ⟨rfl, rfl⟩ := Prod.mk.inj hr
    refine ⟨stands_modifyAt hst ht (Node.keeps_addAction c) fun q hq => Node.Under.addAction hc hq,
      headersOf_modifyAt _ _ _, ⟨c, ?_, hunder.path_eq⟩,
      fun b P hb => hb.modifyAt (Node.keeps_addAction c) _⟩
    rw [nodeAt?_under (nodeAt?_modifyAt_self ht), Node.slot?_addAction_length hkind]

/-- An augment statement keeps standing modules standing, resolves a found target and adds
nodes one name below its node, whose path is the target's when no namespace is shared. -/
theorem applyAugment_stands {ap : Applied} (hst : ∀ m ∈ mods, m.Stands named)
    (hnamed : ∀ q, named q → ∃ m ∈ mods, m.name = q.module ∧ m.namespaceUri = q.namespaceUri)
    (hsc : ∀ q, sc.Defines q → named q) (h : applyAugment sc mods raw place = .ok (mods', ap)) :
    (∀ m ∈ mods', m.Stands named) ∧ headersOf mods' = headersOf mods ∧ ap.target.Found mods ∧
      ((∀ m ∈ mods, ∀ m' ∈ mods, m.namespaceUri = m'.namespaceUri → m.name = m'.name) →
        ap.target.node.path = ap.target.path) ∧
      (∀ a ∈ ap.added, HoldsAt mods' a (fun i => i.path = ap.target.node.path ++ [i.qname])) ∧
      ∀ b P, HoldsAt mods b P → HoldsAt mods' b P := by
  obtain ⟨-, ht, hadded⟩ := applyAugment_cases h
  have hfound := resolveTarget_found ht
  have hres := foldlM_ok_invariant
    (fun acc : List Module × List Address => (∀ m ∈ acc.1, m.Stands named) ∧
      headersOf acc.1 = headersOf mods ∧ HoldsAt acc.1 ap.target.address (· = ap.target.node.info) ∧
      (∀ a ∈ acc.2, HoldsAt acc.1 a (fun i => i.path = ap.target.node.path ++ [i.qname])) ∧
      ∀ b P, HoldsAt mods b P → HoldsAt acc.1 b P) ?_
    ⟨hst, rfl, ⟨ap.target.node, hfound.1, rfl⟩, by simp, fun _ _ hb => hb⟩ hadded
  · obtain ⟨hst', hheaders, -, hadd, hframe⟩ := hres
    exact ⟨hst', hheaders, hfound, fun hns => resolveTarget_exact hst hnamed hns ht, hadd, hframe⟩
  · intro acc item acc' hinv hstep
    obtain ⟨hsta, hheada, ⟨x, hx, hxinfo⟩, hacc, hframea⟩ := hinv
    obtain ⟨node, r, hnode, hr, rfl⟩ := attachItem_cases hstep
    rw [hx, Option.some.injEq] at hnode
    subst hnode
    obtain ⟨hstr, hheadr, hnew, hframer⟩ := attach_stands hsta hsc hx hr
    have hxpath : x.path = ap.target.node.path := congrArg Info.path hxinfo
    refine ⟨hstr, hheadr.trans hheada, hframer _ _ ⟨x, hx, hxinfo⟩, fun a ha => ?_,
      fun b P hb => hframer b P (hframea b P hb)⟩
    rcases List.mem_append.mp ha with ha | ha
    · exact hframer _ _ (hacc a ha)
    · rw [List.mem_singleton] at ha
      subst ha
      rw [← hxpath]
      exact hnew

end Apply

/-! ## Loading -/

theorem namesOf_eq_of_headersOf {mods mods' : List Module} (h : headersOf mods = headersOf mods') :
    namesOf mods = namesOf mods' := by
  have := congrArg (List.map fun x : Text × Option Text × Text => (x.1, x.2.2)) h
  simpa [headersOf, namesOf, Function.comp_def] using this

theorem exists_of_mem_namesOf {mods : List Module} {x y : Text} (h : (x, y) ∈ namesOf mods) :
    ∃ m ∈ mods, m.name = x ∧ m.namespaceUri = y := by
  simp only [namesOf, List.mem_map] at h
  obtain ⟨m, hm, hxy⟩ := h
  obtain ⟨rfl, rfl⟩ := Prod.mk.inj hxy
  exact ⟨m, hm, rfl, rfl⟩

theorem name_eq_of_namesOf {mods mods' : List Module} (h : namesOf mods = namesOf mods')
    (hns : ∀ m ∈ mods', ∀ m' ∈ mods', m.namespaceUri = m'.namespaceUri → m.name = m'.name) :
    ∀ m ∈ mods, ∀ m' ∈ mods, m.namespaceUri = m'.namespaceUri → m.name = m'.name := by
  intro m hm m' hm' hsame
  obtain ⟨n, hn, hn₁, hn₂⟩ := exists_of_mem_namesOf (h ▸ List.mem_map_of_mem hm :
    (m.name, m.namespaceUri) ∈ namesOf mods')
  obtain ⟨n', hn', hn₁', hn₂'⟩ := exists_of_mem_namesOf (h ▸ List.mem_map_of_mem hm' :
    (m'.name, m'.namespaceUri) ∈ namesOf mods')
  rw [← hn₁, ← hn₁']
  exact hns n hn n' hn' (by rw [hn₂, hn₂']; exact hsame)

/-- What the augments so far leave: standing modules with their names, revisions and
namespaces, and each target resolved to latest-revision names, its nodes one name below. -/
def AugmentsStand (built : List Module) (acc : List Module × List (Nat × Applied)) : Prop :=
  (∀ m ∈ acc.1, m.Stands fun q => (q.module, q.namespaceUri) ∈ namesOf built) ∧
    headersOf acc.1 = headersOf built ∧
    ∀ p ∈ acc.2,
      (∀ q ∈ p.2.target.path, LatestNamed acc.1 q ∧ Text.unit '/' ∉ q.localName.units) ∧
      ((∀ m ∈ built, ∀ m' ∈ built, m.namespaceUri = m'.namespaceUri → m.name = m'.name) →
        p.2.target.node.path = p.2.target.path) ∧
      ∀ a ∈ p.2.added, HoldsAt acc.1 a (fun i => i.path = p.2.target.node.path ++ [i.qname])

theorem applyAugments_stand {namespaces : List (Text × Text)} {built : List Module}
    {acc result : List Module × List (Nat × Applied)} {raw : Value} {k : Nat}
    (hsc : ∀ q, (Scope.ofStatement raw namespaces).Defines q →
      (q.module, q.namespaceUri) ∈ namesOf built)
    (hacc : AugmentsStand built acc) (h : applyAugments namespaces acc raw k = .ok result) :
    AugmentsStand built result := by
  refine foldlM_ok_invariant (AugmentsStand built) ?_ hacc h
  intro acc item acc' hinv hstep
  obtain ⟨hst, hhead, happ⟩ := hinv
  simp only [bind, Except.bind, pure, Except.pure] at hstep
  split at hstep
  · cases hstep
  · rename_i r hr
    cases hstep
    have hnames : namesOf acc.1 = namesOf built := namesOf_eq_of_headersOf hhead
    obtain ⟨hst', hhead', hfound, hexact, hadded, hframe⟩ :=
      applyAugment_stands hst (fun q hq => exists_of_mem_namesOf (hnames ▸ hq)) hsc hr
    refine ⟨hst', hhead'.trans hhead, fun p hp => ?_⟩
    rcases List.mem_append.mp hp with hp | hp
    · obtain ⟨hq, hex, hadd⟩ := happ p hp
      exact ⟨fun q hq' => ⟨(hq q hq').1.of_headersOf hhead', (hq q hq').2⟩, hex,
        fun a ha => hframe _ _ (hadd a ha)⟩
    · rw [List.mem_singleton] at hp
      subst hp
      exact ⟨fun q hq' => ⟨(hfound.2 q hq').1.of_headersOf hhead', (hfound.2 q hq').2⟩,
        fun hns => hexact (name_eq_of_namesOf hnames hns), hadded⟩

/-- The augments of a loaded document leave what `AugmentsStand` says, and the loaded modules
are the modules they leave, each with its own augments recorded. -/
theorem Context.augmentsStand_of_load {doc : Value} {ctx : Context}
    (h : Context.load doc = .ok ctx) :
    ∃ built r, AugmentsStand built r ∧ headersOf ctx.modules = headersOf r.1 ∧
      ∀ m ∈ ctx.modules, ∃ m' k, (m', k) ∈ r.1.zipIdx ∧
        m = { m' with augments := augmentsOf r.1 r.2 k } := by
  obtain ⟨-, built, r, hbuilt, hr, hctx⟩ := Context.load_cases h
  have hscope : ∀ raw k, (raw, k) ∈ (doc.itemsAt "modules").zipIdx → ∀ q,
      (Scope.ofStatement raw (namespacesOf (doc.itemsAt "modules"))).Defines q →
      (q.module, q.namespaceUri) ∈ namesOf built := by
    intro raw k hmem q hq
    obtain ⟨b, hb, hname, hns⟩ := exists_built_of_mem_zipIdx hbuilt hmem
    have hq' : (q.module, q.namespaceUri) = (b.name, b.namespaceUri) := by
      rw [hq.1, hq.2, hname, hns]
    rw [hq']
    exact List.mem_map_of_mem (List.mem_of_getElem? hb)
  have hinit : AugmentsStand built (built, []) := by
    refine ⟨fun m hm => ?_, rfl, by simp⟩
    obtain ⟨⟨raw, k⟩, hmem, hbuild⟩ := exists_mem_of_mapM_ok hbuilt m hm
    exact (buildModule_stands hbuild).mono (hscope raw k hmem)
  have hfinal := foldlM_ok_invariant_mem (AugmentsStand built)
    (fun acc item acc' hitem hacc hstep => applyAugments_stand (hscope item.1 item.2 hitem) hacc hstep)
    hinit hr
  refine ⟨built, r, hfinal, ?_, fun m hm => ?_⟩
  · rw [hctx]
    simp only [headersOf, List.map_map, Function.comp_def]
    conv_rhs => rw [← List.zipIdx_map_fst 0 r.1]
    simp only [List.map_map, Function.comp_def]
  · rw [hctx, List.mem_map] at hm
    obtain ⟨⟨m', k⟩, hm', rfl⟩ := hm
    exact ⟨m', k, hm', rfl⟩

/-- Every module of a loaded document stands: each node's path is its parent's with its own
name added, and every name is that of a module of the document. -/
theorem Context.stands_of_load {doc : Value} {ctx : Context} (h : Context.load doc = .ok ctx) :
    ∀ m ∈ ctx.modules, m.Stands fun q => (q.module, q.namespaceUri) ∈ namesOf ctx.modules := by
  obtain ⟨built, r, ⟨hst, hhead, -⟩, hctx, hmods⟩ := Context.augmentsStand_of_load h
  have hnames : namesOf ctx.modules = namesOf built :=
    namesOf_eq_of_headersOf (hctx.trans hhead)
  intro m hm
  obtain ⟨m', k, hm', rfl⟩ := hmods m hm
  rw [hnames]
  exact hst m' (List.fst_mem_of_mem_zipIdx hm')

/-- When no namespace has two module names, each augment of a loaded document records its
node's path as its target, and every node it adds stands one name below it. -/
theorem Context.targets_of_load {doc : Value} {ctx : Context} (h : Context.load doc = .ok ctx)
    (hns : ∀ m ∈ ctx.modules, ∀ m' ∈ ctx.modules, m.namespaceUri = m'.namespaceUri →
      m.name = m'.name) :
    ∀ m ∈ ctx.modules, ∀ a ∈ m.augments,
      (∀ q ∈ a.target, LatestNamed ctx.modules q ∧ Text.unit '/' ∉ q.localName.units) ∧
      ∀ n ∈ a.nodes, n.Under (fun q => (q.module, q.namespaceUri) ∈ namesOf ctx.modules) a.target := by
  obtain ⟨built, r, ⟨hst, hhead, happ⟩, hctx, hmods⟩ := Context.augmentsStand_of_load h
  have hnames : namesOf ctx.modules = namesOf built :=
    namesOf_eq_of_headersOf (hctx.trans hhead)
  intro m hm a ha
  obtain ⟨m', k, -, rfl⟩ := hmods m hm
  simp only [augmentsOf, List.mem_map, List.mem_filter] at ha
  obtain ⟨⟨k', ap⟩, ⟨hap, -⟩, rfl⟩ := ha
  obtain ⟨hq, hex, hadd⟩ := happ _ hap
  have hexact : ap.target.node.path = ap.target.path := hex (name_eq_of_namesOf hnames.symm hns)
  refine ⟨fun q hq' => ⟨(hq q hq').1.of_headersOf hctx, (hq q hq').2⟩, fun n hn => ?_⟩
  simp only [List.mem_filterMap] at hn
  obtain ⟨addr, haddr, hn⟩ := hn
  obtain ⟨n', hn', hpath⟩ := hadd addr haddr
  rw [hn, Option.some.injEq] at hn'
  subst hn'
  obtain ⟨p, hp⟩ := under_nodeAt? hst hn
  have hpeq : p = ap.target.path := by
    have hpp := hp.path_eq
    rw [Node.path, hpath, hexact] at hpp
    exact (List.append_cancel_right hpp).symm
  rw [hnames]
  exact hpeq ▸ hp

end YangDiagram.Schema
