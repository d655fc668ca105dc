-- The entries under the root: every module's top-level nodes, then every recorded augment node,
-- keyed by path. A module that shares no name or namespace and has distinct top-level names has
-- its top-level nodes as its own roots.
import Mathlib
import YangDiagram.Proofs.Schema.Keyed

namespace YangDiagram.Schema

open YangDiagram.Json

/-! ## Keyed lists -/

section Keyed

variable {κ α : Type} (key : α → κ) (p : α → Bool)

/-- A list whose keys stay apart for a property: the entries with the property have distinct
keys, and an entry that shares its key with one of them has the property too. -/
def KeysApart (l : List α) : Prop :=
  ((l.filter p).map key).Nodup ∧ ∀ x ∈ l, p x = true → ∀ y ∈ l, key y = key x → p y = true

theorem KeysApart.of_filter_eq {l l' : List α} (h : KeysApart key p l)
    (hf : l'.filter p = l.filter p) (hs : ∀ x ∈ l', x ∈ l) : KeysApart key p l' :=
  ⟨hf ▸ h.1, fun x hx hpx y hy hk => h.2 x (hs x hx) hpx y (hs y hy) hk⟩

variable [DecidableEq κ]

theorem filter_putKey {k : κ} {v : α} (hv : p v = false) :
    ∀ {cs : List (κ × α)}, (∀ q ∈ cs, q.1 = k → p q.2 = false) →
      ((putKey cs k v).map Prod.snd).filter p = (cs.map Prod.snd).filter p
  | [], _ => by simp [putKey, hv]
  | (k', v') :: rest, h => by
    rw [putKey]
    split
    · rename_i hk
      simp [hv, h _ List.mem_cons_self hk]
    · simp only [List.map_cons, List.filter_cons]
      rw [filter_putKey hv fun q hq => h q (List.mem_cons_of_mem _ hq)]

/-- Entries put one by one under their keys: when the keys stay apart, the entries kept with
the property are the entries with it, in order. -/
theorem filter_foldl_putKey : ∀ (E : List α) (cs : List (κ × α)), (∀ q ∈ cs, q.1 = key q.2) →
    KeysApart key p (cs.map Prod.snd ++ E) →
    ((E.foldl (fun cs e => putKey cs (key e) e) cs).map Prod.snd).filter p =
      (cs.map Prod.snd ++ E).filter p
  | [], cs, _, _ => by simp
  | e :: E, cs, hcs, hap => by
    have hcs' : ∀ q ∈ putKey cs (key e) e, q.1 = key q.2 := fun q hq => by
      rcases mem_putKey hq with hq | rfl
      · exact hcs q hq
      · rfl
    have hq_mem : ∀ q ∈ cs, q.2 ∈ cs.map Prod.snd ++ e :: E := fun q hq =>
      List.mem_append_left _ (List.mem_map_of_mem hq)
    have he_mem : e ∈ cs.map Prod.snd ++ e :: E := List.mem_append_right _ List.mem_cons_self
    have hput : ((putKey cs (key e) e).map Prod.snd ++ E).filter p =
          (cs.map Prod.snd ++ e :: E).filter p ∧
        ∀ x ∈ (putKey cs (key e) e).map Prod.snd ++ E, x ∈ cs.map Prod.snd ++ e :: E := by
      cases hpe : p e
      · have hold : ∀ q ∈ cs, q.1 = key e → p q.2 = false := fun q hq hk => by
          cases hq2 : p q.2
          · rfl
          · have := hap.2 q.2 (hq_mem q hq) hq2 e he_mem (by rw [← hk, hcs q hq])
            rw [hpe] at this
            cases this
        refine ⟨?_, fun x hx => ?_⟩
        · rw [List.filter_append, filter_putKey p hpe hold, List.filter_append, List.filter_cons,
            hpe]
          rfl
        · rcases List.mem_append.mp hx with hx | hx
          · obtain ⟨q, hq, rfl⟩ := List.mem_map.mp hx
            rcases mem_putKey hq with hq | rfl
            · exact hq_mem q hq
            · exact he_mem
          · exact List.mem_append_right _ (List.mem_cons_of_mem _ hx)
      · have hnew : ∀ q ∈ cs, q.1 ≠ key e := fun q hq hk => by
          have hkq : key q.2 = key e := by rw [← hcs q hq, hk]
          have hpq := hap.2 e he_mem hpe q.2 (hq_mem q hq) hkq
          have hnodup := hap.1
          rw [List.filter_append, List.filter_cons, hpe, if_pos rfl, List.map_append,
            List.map_cons, List.nodup_append] at hnodup
          exact hnodup.2.2 _ (List.mem_map_of_mem (List.mem_filter.mpr
            ⟨List.mem_map_of_mem hq, hpq⟩)) _ List.mem_cons_self hkq
        rw [putKey_of_forall_ne hnew]
        simp
    rw [List.foldl_cons, filter_foldl_putKey E _ hcs' (hap.of_filter_eq key p hput.1 hput.2),
      hput.1]

end Keyed

/-! ## The root as a keyed list -/

namespace SchemaTree

theorem foldl_add_mk {β : Type} (g : β → SchemaTree) (l : List β) (n : Option Node)
    (path : List QName) (a : Bool) (cs : List (Text × SchemaTree)) :
    l.foldl (fun t b => t.add (g b)) (mk n path a cs) =
      mk n path a (l.foldl (fun cs b => putKey cs (pathKey (g b).path) (g b)) cs) := by
  induction l generalizing cs with
  | nil => rfl
  | cons b l ih => exact ih _

@[simp] theorem path_ofNode (n : Node) : (ofNode n).path = n.path := by
  rw [ofNode, foldl_add_mk (fun (c : {c // c ∈ n.childNodes}) => ofNode c.1)]
  rfl

@[simp] theorem augmenting_ofNode (n : Node) : (ofNode n).augmenting = n.info.augmenting := by
  rw [ofNode, foldl_add_mk (fun (c : {c // c ∈ n.childNodes}) => ofNode c.1)]
  rfl

/-- Whether an entry is one of a module's own roots: it stands in the module's namespace, and no
augment added it. -/
def isOwnRoot (uri : Text) (t : SchemaTree) : Bool :=
  decide (t.namespaceUri? = some uri) && !t.augmenting

end SchemaTree

open SchemaTree

/-- The entries put under the root of a context's schema tree, in order: every module's
top-level data nodes, then every node each augment statement records. -/
def Context.rootEntries (ctx : Context) : List SchemaTree :=
  ctx.modules.flatMap (fun m => m.dataNodes.map ofNode) ++
    ctx.modules.flatMap (fun m => m.augments.flatMap fun a => a.nodes.map ofNode)

theorem Context.schemaTree_eq_foldl (ctx : Context) :
    ctx.schemaTree =
      .mk none [] false (ctx.rootEntries.foldl (fun cs e => putKey cs (pathKey e.path) e) []) := by
  have hfold : ctx.schemaTree =
      ctx.rootEntries.foldl (fun t e => t.add e) (SchemaTree.mk none [] false []) := by
    simp only [Context.schemaTree, rootEntries, List.foldl_append, List.foldl_flatMap,
      List.foldl_map]
  rw [hfold]
  exact foldl_add_mk id ctx.rootEntries none [] false []

theorem Context.childTrees_schemaTree (ctx : Context) :
    ctx.schemaTree.childTrees =
      (ctx.rootEntries.foldl (fun cs e => putKey cs (pathKey e.path) e) []).map Prod.snd := by
  rw [Context.schemaTree_eq_foldl]
  rfl

/-! ## Keys of paths -/

theorem units_colon : (Text.ofString ":").units = [Text.unit ':'] := by decide

theorem units_slash : (Text.ofString "/").units = [Text.unit '/'] := by decide

theorem pathKey_singleton (q : QName) : pathKey [q] = q.module ++ ":" ++ q.localName := by
  have hu : (pathKey [q]).units = (q.module ++ ":" ++ q.localName).units := by
    simp [pathKey, Text.intercalate]
  exact congrArg Text.mk hu

theorem slash_mem_pathKey {path : List QName} (h : 2 ≤ path.length) :
    Text.unit '/' ∈ (pathKey path).units := by
  match path, h with
  | q₁ :: q₂ :: rest, _ =>
    simp [pathKey, Text.intercalate, List.intercalate_cons_cons, units_slash]

theorem slash_not_mem_key {a b : Text} (ha : a.SeparatorFree) (hb : b.SeparatorFree) :
    Text.unit '/' ∉ (a ++ ":" ++ b).units := by
  simp only [Text.units_append, units_colon, List.mem_append, List.mem_singleton, not_or]
  exact ⟨⟨ha.2, by decide⟩, hb.2⟩

theorem eq_of_key_eq {a b c d : Text} (ha : a.SeparatorFree) (hb : b.SeparatorFree)
    (h : a ++ ":" ++ b = c ++ ":" ++ d) : a = c ∧ b = d := by
  have hu := congrArg Text.units h
  simp only [Text.units_append, units_colon, List.append_assoc, List.singleton_append] at hu
  obtain ⟨h1, -, h3⟩ := (List.append_cons_inj_of_notMem ha.1 hb.1).mp hu
  cases a
  cases b
  cases c
  cases d
  exact ⟨congrArg Text.mk h1, congrArg Text.mk h3⟩

theorem key_right_injective (a : Text) : Function.Injective fun b : Text => a ++ ":" ++ b := by
  intro b c h
  have hu := congrArg Text.units h
  simp only [Text.units_append] at hu
  cases b
  cases c
  exact congrArg Text.mk (List.append_cancel_left hu)

/-! ## A module's own roots -/

section OwnRoots

variable {ctx : Context} {pre post : List Module} {M : Module}

theorem ofNode_of_ownRoot {m : Module} {n : Node} (h : m.OwnRoot n) :
    (ofNode n).path = [⟨m.name, m.namespaceUri, n.qname.localName⟩] ∧
      (ofNode n).augmenting = false := by
  rw [path_ofNode, augmenting_ofNode]
  exact ⟨h.1, h.2.2⟩

theorem isOwnRoot_ofNode {m : Module} {n : Node} (h : m.OwnRoot n) (uri : Text) :
    isOwnRoot uri (ofNode n) = decide (m.namespaceUri = uri) := by
  obtain ⟨hpath, haug⟩ := ofNode_of_ownRoot h
  simp [isOwnRoot, namespaceUri?, hpath, haug]

theorem key_ofNode_of_ownRoot {m : Module} {n : Node} (h : m.OwnRoot n) :
    pathKey (ofNode n).path = m.name ++ ":" ++ n.qname.localName := by
  rw [(ofNode_of_ownRoot h).1, pathKey_singleton]

/-- The key of a root entry of a keyed context: a module's name and one of its top-level data
nodes' local name, or, for a node an augment added, a key with a slash. -/
theorem key_of_mem_rootEntries (hk : ctx.Keyed) {y : SchemaTree} (hy : y ∈ ctx.rootEntries) :
    (∃ m ∈ ctx.modules, ∃ n ∈ m.dataNodes,
        y = ofNode n ∧ pathKey y.path = m.name ++ ":" ++ n.qname.localName) ∨
      Text.unit '/' ∈ (pathKey y.path).units := by
  rcases List.mem_append.mp hy with hy | hy
  · simp only [List.mem_flatMap, List.mem_map] at hy
    obtain ⟨m, hm, n, hn, rfl⟩ := hy
    exact .inl ⟨m, hm, n, hn, rfl, key_ofNode_of_ownRoot ((hk.modules m hm).roots n hn)⟩
  · simp only [List.mem_flatMap, List.mem_map] at hy
    obtain ⟨m, hm, a, ha, n, hn, rfl⟩ := hy
    exact .inr (slash_mem_pathKey ((path_ofNode n) ▸ (hk.augments m hm a ha n hn).2))

/-- The own roots among the root entries of a keyed context are a module's top-level data
nodes, when no other module has its namespace. -/
theorem filter_rootEntries (hk : ctx.Keyed) (hM : ctx.modules = pre ++ M :: post)
    (hns : ∀ m ∈ pre ++ post, m.namespaceUri ≠ M.namespaceUri) :
    ctx.rootEntries.filter (isOwnRoot M.namespaceUri) = M.dataNodes.map ofNode := by
  have hmods : ∀ m ∈ pre ++ M :: post, m.Keyed := fun m hm => hk.modules m (hM ▸ hm)
  have hdata : ∀ m ∈ pre ++ M :: post, (m.dataNodes.map ofNode).filter (isOwnRoot M.namespaceUri) =
      if m.namespaceUri = M.namespaceUri then m.dataNodes.map ofNode else [] := by
    intro m hm
    split
    · rename_i he
      refine List.filter_eq_self.mpr fun t ht => ?_
      obtain ⟨n, hn, rfl⟩ := List.mem_map.mp ht
      simp [isOwnRoot_ofNode ((hmods m hm).roots n hn), he]
    · rename_i he
      refine List.filter_eq_nil_iff.mpr fun t ht => ?_
      obtain ⟨n, hn, rfl⟩ := List.mem_map.mp ht
      simp [isOwnRoot_ofNode ((hmods m hm).roots n hn), he]
  have haug : ∀ m ∈ pre ++ M :: post,
      (m.augments.flatMap fun a => a.nodes.map ofNode).filter (isOwnRoot M.namespaceUri) = [] := by
    intro m hm
    refine List.filter_eq_nil_iff.mpr fun t ht => ?_
    simp only [List.mem_flatMap, List.mem_map] at ht
    obtain ⟨a, ha, n, hn, rfl⟩ := ht
    simp [isOwnRoot, (hk.augments m (hM ▸ hm) a ha n hn).1]
  rw [Context.rootEntries, List.filter_append, List.filter_flatMap, List.filter_flatMap, hM,
    List.flatMap_congr hdata, List.flatMap_congr haug]
  have hout : ∀ l : List Module, (∀ m ∈ l, m.namespaceUri ≠ M.namespaceUri) →
      l.flatMap (fun m => if m.namespaceUri = M.namespaceUri then m.dataNodes.map ofNode else []) =
        [] := fun l hl => List.flatMap_eq_nil_iff.mpr fun m hm => by simp [hl m hm]
  rw [List.flatMap_append, List.flatMap_cons,
    hout pre fun m hm => hns m (List.mem_append_left _ hm),
    hout post fun m hm => hns m (List.mem_append_right _ hm)]
  simp

/-- The root entries of a keyed context keep their keys apart for a module's own roots when it
shares no name or namespace and its top-level local names differ. -/
theorem keysApart_rootEntries (hk : ctx.Keyed) (hM : ctx.modules = pre ++ M :: post)
    (hother : ∀ m ∈ pre ++ post, m.name ≠ M.name ∧ m.namespaceUri ≠ M.namespaceUri)
    (hnames : (M.dataNodes.map fun n => n.qname.localName).Nodup) :
    KeysApart (fun t => pathKey t.path) (isOwnRoot M.namespaceUri) ctx.rootEntries := by
  have hown := filter_rootEntries hk hM fun m hm => (hother m hm).2
  have hMk : M.Keyed := hk.modules M (by rw [hM]; simp)
  refine ⟨?_, fun x hx hpx y hy hkey => ?_⟩
  · rw [hown, List.map_map]
    have hkeys : M.dataNodes.map ((fun t => pathKey t.path) ∘ ofNode) =
        (M.dataNodes.map fun n => n.qname.localName).map (M.name ++ ":" ++ ·) := by
      rw [List.map_map]
      exact List.map_congr_left fun n hn => key_ofNode_of_ownRoot (hMk.roots n hn)
    rw [hkeys]
    exact hnames.map (key_right_injective M.name)
  · have hx' : x ∈ M.dataNodes.map ofNode := hown ▸ List.mem_filter.mpr ⟨hx, hpx⟩
    obtain ⟨n, hn, rfl⟩ := List.mem_map.mp hx'
    have hroot := hMk.roots n hn
    dsimp only at hkey
    rw [key_ofNode_of_ownRoot hroot] at hkey
    rcases key_of_mem_rootEntries hk hy with ⟨m, hm, n', hn', rfl, hky⟩ | hslash
    · have hmk := hk.modules m hm
      rw [hky] at hkey
      have hname := (eq_of_key_eq hmk.name (hmk.roots n' hn').2.1 hkey).1
      have hmM : m = M := by
        rw [hM, List.mem_append, List.mem_cons] at hm
        rcases hm with hm | rfl | hm
        · exact absurd hname (hother m (List.mem_append_left _ hm)).1
        · rfl
        · exact absurd hname (hother m (List.mem_append_right _ hm)).1
      subst hmM
      rw [isOwnRoot_ofNode (hmk.roots n' hn')]
      simp
    · rw [hkey] at hslash
      exact absurd hslash (slash_not_mem_key hMk.name hroot.2.1)

end OwnRoots

/-- A module's own roots in a loaded document's schema tree are its top-level data nodes, in
order, when it shares no name or namespace and their local names differ. -/
theorem Context.ownRoots_schemaTree {doc : Value} {ctx : Context} {pre post : List Module}
    {M : Module} (hload : Context.load doc = .ok ctx) (hM : ctx.modules = pre ++ M :: post)
    (hother : ∀ m ∈ pre ++ post, m.name ≠ M.name ∧ m.namespaceUri ≠ M.namespaceUri)
    (hnames : (M.dataNodes.map fun n => n.qname.localName).Nodup) :
    ctx.schemaTree.childTrees.filter (isOwnRoot M.namespaceUri) = M.dataNodes.map ofNode := by
  have hk := Context.keyed_of_load hload
  have hapart := keysApart_rootEntries hk hM hother hnames
  rw [Context.childTrees_schemaTree,
    filter_foldl_putKey (fun t => pathKey t.path) _ ctx.rootEntries [] (by simp) (by simpa using hapart)]
  simpa using filter_rootEntries hk hM fun m hm => (hother m hm).2

end YangDiagram.Schema
