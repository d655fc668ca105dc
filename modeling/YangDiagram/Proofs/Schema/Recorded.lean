-- Every node an augment statement of a loaded module records is named in that module, with an
-- identifier for its local name and a path that ends in that name.
import Mathlib
import YangDiagram.Proofs.Schema.Keyed

namespace YangDiagram.Schema

open YangDiagram.Json YangDiagram.Document

/-- A node named in a scope: its qualified name is the scope's module and namespace with a local
name that holds no separator, and its path ends in that name. -/
def Node.NamedIn (sc : Scope) (n : Node) : Prop :=
  n.qname = sc.qname n.qname.localName ∧ n.qname.localName.SeparatorFree ∧ n.Pathed

theorem Node.NamedIn.of_info_eq {sc : Scope} {x y : Node} (h : x.info = y.info)
    (hx : x.NamedIn sc) : y.NamedIn sc := by
  obtain ⟨hq, hsep, hpath⟩ := hx
  have hqname : x.qname = y.qname := congrArg Info.qname h
  exact ⟨hqname ▸ hq, hqname ▸ hsep, hpath.of_info_eq h⟩

def NamedAt (sc : Scope) (mods : List Module) (a : Address) : Prop :=
  ∃ n, nodeAt? mods a = some n ∧ n.NamedIn sc

theorem NamedAt.modifyAt {sc : Scope} {mods : List Module} {a : Address} {f : Node → Node}
    (hf : Node.Keeps f) (b : Address) (h : NamedAt sc mods a) :
    NamedAt sc (modifyAt mods b f) a := by
  obtain ⟨n, hn, hnamed⟩ := h
  obtain ⟨n', hn', hinfo⟩ := nodeAt?_modifyAt hf b hn
  exact ⟨n', hn', hnamed.of_info_eq hinfo.symm⟩

def namesOf (mods : List Module) : List (Text × Text) := mods.map fun m => (m.name, m.namespaceUri)

theorem namesOf_modifyAt (mods : List Module) (a : Address) (f : Node → Node) :
    namesOf (modifyAt mods a f) = namesOf mods := by
  apply List.ext_getElem?
  intro j
  simp only [namesOf, modifyAt, List.getElem?_map, List.getElem?_modify]
  split <;> simp [Function.comp_def, Module.name_modifyTop, Module.namespaceUri_modifyTop]

/-- Attaching a node from a statement named by an identifier names the new node in the scope,
keeps every node named where it was, and leaves every module's name and namespace. -/
theorem attach_namedAt {sc : Scope} {mods mods' : List Module} {target : Target} {raw : Value}
    {place : Text} {a : Address} (ht : nodeAt? mods target.address = some target.node)
    (hraw : NamedByIdentifier raw) (h : attach sc mods target raw place = .ok (mods', a)) :
    NamedAt sc mods' a ∧ (∀ sc' b, NamedAt sc' mods b → NamedAt sc' mods' b) ∧
      namesOf mods' = namesOf mods := by
  obtain ⟨c, hc, -, -, hq, hcases⟩ := attach_added h
  obtain ⟨s, hs, hid⟩ := hraw
  have hlocal : c.qname.localName = s := by simp [hq, hs, Scope.qname]
  have hnamed : c.NamedIn sc :=
    ⟨by rw [hlocal, hq, hs, Option.getD_some], hlocal ▸ Text.separatorFree_of_isIdentifier hid,
      hc.self⟩
  rcases hcases with ⟨htake, hr⟩ | ⟨hkind, hr⟩
  · obtain ⟨rfl, rfl⟩ := Prod.mk.inj hr
    refine ⟨⟨c, ?_, hnamed⟩, fun sc' b hb => hb.modifyAt (Node.keeps_addChild c) _,
      namesOf_modifyAt _ _ _⟩
    rw [nodeAt?_under (nodeAt?_modifyAt_self ht), Node.slot?_addChild_length htake]
  · obtain ⟨rfl, rfl⟩ := Prod.mk.inj hr
    refine ⟨⟨c, ?_, hnamed⟩, fun sc' b hb => hb.modifyAt (Node.keeps_addAction c) _,
      namesOf_modifyAt _ _ _⟩
    rw [nodeAt?_under (nodeAt?_modifyAt_self ht), Node.slot?_addAction_length hkind]

/-- An augment statement of identifier-named nodes names each node it adds in its module's
scope, and keeps every other node and every module's name and namespace. -/
theorem applyAugment_namedAt {sc : Scope} {mods mods' : List Module} {raw : Value}
    {place : Text} {ap : Applied} (hnodes : ∀ d ∈ raw.itemsAt "nodes", NamedByIdentifier d)
    (h : applyAugment sc mods raw place = .ok (mods', ap)) :
    (∀ a ∈ ap.added, NamedAt sc mods' a) ∧ (∀ sc' b, NamedAt sc' mods b → NamedAt sc' mods' b) ∧
      namesOf mods' = namesOf mods := by
  obtain ⟨-, -, hadded⟩ := applyAugment_cases h
  refine foldlM_ok_invariant_mem (fun acc => (∀ a ∈ acc.2, NamedAt sc acc.1 a) ∧
    (∀ sc' b, NamedAt sc' mods b → NamedAt sc' acc.1 b) ∧ namesOf acc.1 = namesOf mods)
    ?_ ⟨by simp, fun _ _ hb => hb, rfl⟩ hadded
  intro acc item acc' hitem hinv hstep
  obtain ⟨hacc, hframe, hnames⟩ := hinv
  obtain ⟨node, r, hnode, hr, rfl⟩ := attachItem_cases hstep
  obtain ⟨hnew, hkeep, hnames'⟩ :=
    attach_namedAt hnode (hnodes item.1 (List.fst_mem_of_mem_zipIdx hitem)) hr
  refine ⟨fun a ha => ?_, fun sc' b hb => hkeep sc' b (hframe sc' b hb), hnames'.trans hnames⟩
  rcases List.mem_append.mp ha with ha | ha
  · exact hkeep sc a (hacc a ha)
  · rw [List.mem_singleton] at ha
    subst ha
    exact hnew

/-- What the augments so far leave: modules keep their names and namespaces, and each added node
is named in the scope of the statement the application records. -/
def AppliedNamed (raws : List Value) (namespaces : List (Text × Text)) (built : List Module)
    (acc : List Module × List (Nat × Applied)) : Prop :=
  namesOf acc.1 = namesOf built ∧ ∀ p ∈ acc.2, ∃ raw, (raw, p.1) ∈ raws.zipIdx ∧
    ∀ a ∈ p.2.added, NamedAt (Scope.ofStatement raw namespaces) acc.1 a

theorem applyAugments_named {raws : List Value} {namespaces : List (Text × Text)}
    {built : List Module} {acc result : List Module × List (Nat × Applied)} {raw : Value}
    {k : Nat} (hmem : (raw, k) ∈ raws.zipIdx)
    (hnames : ∀ aug ∈ raw.itemsAt "augments", ∀ d ∈ aug.itemsAt "nodes", NamedByIdentifier d)
    (hacc : AppliedNamed raws namespaces built acc)
    (h : applyAugments namespaces acc raw k = .ok result) :
    AppliedNamed raws namespaces built result := by
  refine foldlM_ok_invariant_mem (AppliedNamed raws namespaces built) ?_ hacc h
  intro acc item acc' hitem hinv hstep
  obtain ⟨hmods, hap⟩ := hinv
  obtain ⟨aug, i⟩ := item
  simp only [bind, Except.bind, pure, Except.pure] at hstep
  split at hstep
  · cases hstep
  · rename_i r hr
    cases hstep
    obtain ⟨hadded, hframe, hnames'⟩ :=
      applyAugment_namedAt (hnames aug (List.fst_mem_of_mem_zipIdx hitem)) hr
    refine ⟨hnames'.trans hmods, fun p hp => ?_⟩
    rcases List.mem_append.mp hp with hp | hp
    · obtain ⟨raw', hraw', hp⟩ := hap p hp
      exact ⟨raw', hraw', fun a ha => hframe _ a (hp a ha)⟩
    · rw [List.mem_singleton] at hp
      subst hp
      exact ⟨raw, hmem, hadded⟩

theorem buildModule_names {raw : Value} {index : Nat} {namespaces : List (Text × Text)}
    {m : Module} (h : buildModule raw index namespaces = .ok m) :
    m.name = (Scope.ofStatement raw namespaces).name ∧
      m.namespaceUri = (Scope.ofStatement raw namespaces).namespaceUri := by
  obtain ⟨-, -, -, -, -, -, rfl⟩ := buildModule_cases h
  exact ⟨rfl, rfl⟩

/-- The module built from the `k`-th module statement stands `k`-th among the built modules, with
the name and namespace of the statement's scope. -/
theorem exists_built_of_mem_zipIdx {raws : List Value} {namespaces : List (Text × Text)}
    {built : List Module}
    (hbuilt : raws.zipIdx.mapM (fun p => buildModule p.1 p.2 namespaces) = .ok built)
    {raw : Value} {k : Nat} (hmem : (raw, k) ∈ raws.zipIdx) :
    ∃ b, built[k]? = some b ∧ b.name = (Scope.ofStatement raw namespaces).name ∧
      b.namespaceUri = (Scope.ofStatement raw namespaces).namespaceUri := by
  have hrawk : raws.zipIdx[k]? = some (raw, k) := by
    simp [List.getElem?_zipIdx, List.mem_zipIdx_iff_getElem?.mp hmem]
  obtain ⟨b, hb, hbuild⟩ := exists_getElem?_of_forall₂ (forall₂_of_mapM_ok hbuilt) hrawk
  exact ⟨b, hb, buildModule_names hbuild⟩

/-- Every node an augment statement of a loaded module records is named in that module, with a
separator-free local name at the end of its path. -/
theorem Context.recorded_of_load {doc : Value} {ctx : Context} (h : Context.load doc = .ok ctx) :
    ∀ m ∈ ctx.modules, ∀ a ∈ m.augments, ∀ n ∈ a.nodes,
      n.qname = ⟨m.name, m.namespaceUri, n.qname.localName⟩ ∧
        n.qname.localName.SeparatorFree ∧ n.Pathed := by
  obtain ⟨hcheck, built, r, hbuilt, hr, hctx⟩ := Context.load_cases h
  have hnames := augmentNames_of_check hcheck
  have hfinal := foldlM_ok_invariant_mem
    (AppliedNamed (doc.itemsAt "modules") (namespacesOf (doc.itemsAt "modules")) built)
    (fun acc item acc' hitem hacc hstep =>
      applyAugments_named hitem (hnames item.1 (List.fst_mem_of_mem_zipIdx hitem)) hacc hstep)
    ⟨rfl, by simp⟩ hr
  obtain ⟨hmods, happ⟩ := hfinal
  intro m hm a ha n hn
  rw [hctx, List.mem_map] at hm
  obtain ⟨⟨m', k⟩, hm', rfl⟩ := hm
  simp only [augmentsOf, List.mem_map, List.mem_filter] at ha
  obtain ⟨⟨k', ap⟩, ⟨hap, hk⟩, rfl⟩ := ha
  simp only [decide_eq_true_eq] at hk
  subst hk
  simp only [List.mem_filterMap] at hn
  obtain ⟨addr, haddr, hn⟩ := hn
  obtain ⟨raw, hraw, hnamed⟩ := happ _ hap
  obtain ⟨n', hn', hnamedIn⟩ := hnamed addr haddr
  rw [hn, Option.some.injEq] at hn'
  subst hn'
  have hmk : r.1[k']? = some m' := List.mem_zipIdx_iff_getElem?.mp hm'
  obtain ⟨b, hb, hname, hns⟩ := exists_built_of_mem_zipIdx hbuilt hraw
  have hsame : (m'.name, m'.namespaceUri) = (b.name, b.namespaceUri) := by
    have h1 : (namesOf r.1)[k']? = some (m'.name, m'.namespaceUri) := by
      simp [namesOf, hmk]
    have h2 : (namesOf built)[k']? = some (b.name, b.namespaceUri) := by
      simp [namesOf, hb]
    rw [hmods] at h1
    exact Option.some.inj (h1.symm.trans h2)
  obtain ⟨hq, hsep, hpath⟩ := hnamedIn
  refine ⟨?_, hsep, hpath⟩
  rw [hq]
  simp only [Prod.mk.injEq] at hsame
  simp [Scope.qname, hsame.1, hsame.2, hname, hns]

end YangDiagram.Schema
