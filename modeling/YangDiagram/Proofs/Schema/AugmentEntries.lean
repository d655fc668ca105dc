-- The entries a module adds under the root: its attached nodes, in order, each keyed by its
-- target followed by its own qualified name, when no other module shares its name or namespace.
import Mathlib
import YangDiagram.Proofs.Schema.RootEntries
import YangDiagram.Proofs.Schema.Targets

namespace YangDiagram.Schema

open YangDiagram.Json SchemaTree

/-- The nodes a module's augment statements attach, each with the resolved target of its
statement, in statement order and then node order. -/
def Module.attached (m : Module) : List (List QName × Node) :=
  m.augments.flatMap fun a => a.nodes.map fun n => (a.target, n)

theorem Module.mem_attached {m : Module} {p : List QName × Node} :
    p ∈ m.attached ↔ ∃ a ∈ m.augments, ∃ n ∈ a.nodes, p = (a.target, n) := by
  simp only [Module.attached, List.mem_flatMap, List.mem_map]
  constructor
  · rintro ⟨a, ha, n, hn, rfl⟩
    exact ⟨a, ha, n, hn, rfl⟩
  · rintro ⟨a, ha, n, hn, rfl⟩
    exact ⟨a, ha, n, hn, rfl⟩

theorem QName.eq_of_parts {q q' : QName} (hm : q.module = q'.module)
    (hn : q.namespaceUri = q'.namespaceUri) (hl : q.localName = q'.localName) : q = q' := by
  obtain ⟨m, u, l⟩ := q
  obtain ⟨m', u', l'⟩ := q'
  simp only at hm hn hl
  rw [hm, hn, hl]

/-! ## Reading a path back from its key -/

/-- A name whose step of a path key reads back: its module name holds no separator and its local
name no slash. -/
def QName.Readable (q : QName) : Prop :=
  q.module.SeparatorFree ∧ Text.unit '/' ∉ q.localName.units

theorem units_pathKey (path : List QName) :
    (pathKey path).units =
      [Text.unit '/'].intercalate (path.map fun q : QName => (q.module ++ ":" ++ q.localName).units) := by
  simp [pathKey, Text.intercalate, units_slash, Function.comp_def]

theorem QName.Readable.slash_not_mem {q : QName} (h : q.Readable) :
    Text.unit '/' ∉ (q.module ++ ":" ++ q.localName).units := by
  simp only [Text.units_append, units_colon, List.mem_append, List.mem_singleton, not_or]
  exact ⟨⟨h.1.2, by decide⟩, h.2⟩

theorem step_ne_nil (q : QName) : (q.module ++ ":" ++ q.localName).units ≠ [] := by
  simp [units_colon]

theorem eq_of_append_cons_eq {α : Type} {a : α} :
    ∀ {x₁ x₂ z₁ z₂ : List α}, a ∉ x₁ → a ∉ x₂ → x₁ ++ a :: z₁ = x₂ ++ a :: z₂ →
      x₁ = x₂ ∧ z₁ = z₂
  | [], [], _, _, _, _, h => ⟨rfl, (List.cons.inj h).2⟩
  | [], b :: x₂, _, _, _, h₂, h => by
    simp only [List.nil_append, List.cons_append, List.cons.injEq] at h
    exact absurd (h.1 ▸ List.mem_cons_self) h₂
  | b :: x₁, [], _, _, h₁, _, h => by
    simp only [List.nil_append, List.cons_append, List.cons.injEq] at h
    exact absurd (h.1 ▸ List.mem_cons_self) h₁
  | b :: x₁, c :: x₂, _, _, h₁, h₂, h => by
    simp only [List.cons_append, List.cons.injEq] at h
    obtain ⟨rfl, h⟩ := h
    obtain ⟨rfl, rfl⟩ := eq_of_append_cons_eq (fun hx => h₁ (List.mem_cons_of_mem _ hx))
      (fun hx => h₂ (List.mem_cons_of_mem _ hx)) h
    exact ⟨rfl, rfl⟩

theorem eq_of_step_eq {q q' : QName} (h : Text.unit ':' ∉ q.module.units)
    (h' : Text.unit ':' ∉ q'.module.units)
    (hu : (q.module ++ ":" ++ q.localName).units = (q'.module ++ ":" ++ q'.localName).units) :
    q.module = q'.module ∧ q.localName = q'.localName := by
  obtain ⟨⟨mu⟩, u, ⟨lu⟩⟩ := q
  obtain ⟨⟨mu'⟩, u', ⟨lu'⟩⟩ := q'
  simp only [Text.units_append, units_colon, List.append_assoc, List.singleton_append] at hu h h'
  obtain ⟨hm, hl⟩ := eq_of_append_cons_eq h h' hu
  exact ⟨congrArg Text.mk hm, congrArg Text.mk hl⟩

theorem splitOn_pathKey {path : List QName} (h : ∀ q ∈ path, q.Readable) (hne : path ≠ []) :
    (pathKey path).units.splitOn (Text.unit '/') =
      path.map fun q : QName => (q.module ++ ":" ++ q.localName).units := by
  rw [units_pathKey]
  refine List.splitOn_intercalate _ (fun l hl => ?_) (by simpa using hne)
  obtain ⟨q, hq, rfl⟩ := List.mem_map.mp hl
  exact (h q hq).slash_not_mem

theorem steps_of_pathKey_eq {xs ys : List QName} (hx : ∀ q ∈ xs, q.Readable)
    (hy : ∀ q ∈ ys, q.Readable) (h : pathKey xs = pathKey ys) :
    xs.map (fun q : QName => (q.module ++ ":" ++ q.localName).units) =
      ys.map fun q : QName => (q.module ++ ":" ++ q.localName).units := by
  have hsplit := congrArg (fun t : Text => t.units.splitOn (Text.unit '/')) h
  have hempty : ∀ zs : List QName, (∀ q ∈ zs, q.Readable) → zs ≠ [] →
      (pathKey zs).units.splitOn (Text.unit '/') ≠ [[]] := fun zs hz hne heq => by
    rw [splitOn_pathKey hz hne] at heq
    obtain ⟨q, -, hq⟩ := List.mem_map.mp (heq ▸ List.mem_singleton_self [])
    exact step_ne_nil q hq
  have hnil : (pathKey []).units.splitOn (Text.unit '/') = [[]] := rfl
  by_cases hxs : xs = [] <;> by_cases hys : ys = []
  · subst hxs hys
    rfl
  · subst hxs
    exact absurd (hsplit.symm.trans hnil) (hempty ys hy hys)
  · subst hys
    exact absurd (hsplit.trans hnil) (hempty xs hx hxs)
  · simpa only [splitOn_pathKey hx hxs, splitOn_pathKey hy hys] using hsplit

theorem LatestNamed.separatorFree {mods : List Module}
    (hnames : ∀ m ∈ mods, m.name.SeparatorFree) {q : QName} (hq : LatestNamed mods q) :
    q.module.SeparatorFree := by
  obtain ⟨i, m, hi, hm, -⟩ := hq
  obtain ⟨m', hm', hname⟩ := name_of_latestIndex hi
  rw [hm, Option.some.injEq] at hm'
  subst hm'
  exact hname ▸ hnames m (List.mem_of_getElem? hm)

/-- Paths of readable names qualified by the latest revisions of their modules are told apart by
their keys. -/
theorem eq_of_pathKey_eq {mods : List Module} {xs ys : List QName}
    (hxs : ∀ q ∈ xs ++ ys, LatestNamed mods q ∧ q.Readable) (h : pathKey xs = pathKey ys) :
    xs = ys := by
  have hx : ∀ q ∈ xs, LatestNamed mods q ∧ q.Readable := fun q hq => hxs q (List.mem_append_left _ hq)
  have hy : ∀ q ∈ ys, LatestNamed mods q ∧ q.Readable := fun q hq => hxs q (List.mem_append_right _ hq)
  have hsteps := steps_of_pathKey_eq (fun q hq => (hx q hq).2) (fun q hq => (hy q hq).2) h
  have hlen : xs.length = ys.length := by simpa using congrArg List.length hsteps
  refine List.ext_getElem hlen fun i hi hi' => ?_
  have hstep := congrArg (fun l => l[i]?) hsteps
  simp only [List.getElem?_map, List.getElem?_eq_getElem hi, List.getElem?_eq_getElem hi',
    Option.map_some, Option.some.injEq] at hstep
  have hxi := hx _ (List.getElem_mem hi)
  have hyi := hy _ (List.getElem_mem hi')
  obtain ⟨hm, hl⟩ := eq_of_step_eq hxi.2.1.1 hyi.2.1.1 hstep
  exact QName.eq_of_parts hm (hxi.1.namespaceUri_eq hyi.1 hm) hl

/-- A module that no other module of the list shares a name with is the latest of its name: its
names are qualified by the latest revision of their module. -/
theorem latestNamed_of_unique {mods pre post : List Module} {M : Module}
    (hM : mods = pre ++ M :: post) (hname : ∀ m ∈ pre ++ post, m.name ≠ M.name) (l : Text) :
    LatestNamed mods ⟨M.name, M.namespaceUri, l⟩ := by
  have honly : ∀ m ∈ mods, m.name = M.name → m = M := by
    intro m hm he
    rw [hM, List.mem_append, List.mem_cons] at hm
    rcases hm with hm | rfl | hm
    · exact absurd he (hname m (List.mem_append_left _ hm))
    · rfl
    · exact absurd he (hname m (List.mem_append_right _ hm))
  have hlatest : latestIndex mods M.name ≠ none := by
    simp only [latestIndex, ne_eq, Option.map_eq_none_iff, firstLatest_eq_none,
      List.filter_eq_nil_iff, decide_eq_true_eq, not_forall, not_not]
    exact ⟨(M, pre.length), List.mem_zipIdx_iff_getElem?.mpr (by simp [hM]), rfl⟩
  obtain ⟨i, hi⟩ := Option.ne_none_iff_exists'.mp hlatest
  obtain ⟨m, hm, hmname⟩ := name_of_latestIndex hi
  exact ⟨i, m, hi, hm, by rw [honly m (List.mem_of_getElem? hm) hmname]⟩

/-! ## Attached nodes -/

/-- A node a module attached under the target `T`, as loading leaves it: its path is `T` and its
own name, `T` has readable latest-revision names, and the node is marked as added. -/
structure Module.AttachedAt (mods : List Module) (m : Module) (T : List QName) (n : Node) :
    Prop where
  path : n.path = T ++ [⟨m.name, m.namespaceUri, n.qname.localName⟩]
  name : m.name.SeparatorFree
  localName : n.qname.localName.SeparatorFree
  augmenting : n.info.augmenting = true
  target_ne_nil : T ≠ []
  target : ∀ q ∈ T, LatestNamed mods q ∧ q.Readable

def SchemaTree.isAddedIn (uri : Text) (t : SchemaTree) : Bool :=
  t.augmenting && decide (t.namespaceUri? = some uri)

namespace Module.AttachedAt

variable {mods : List Module} {m : Module} {T : List QName} {n : Node}

theorem readable (h : m.AttachedAt mods T n) : ∀ q ∈ n.path, q.Readable := by
  rw [h.path]
  intro q hq
  rcases List.mem_append.mp hq with hq | hq
  · exact (h.target q hq).2
  · rw [List.mem_singleton.mp hq]
    exact ⟨h.name, h.localName.2⟩

theorem two_le_length (h : m.AttachedAt mods T n) : 2 ≤ n.path.length := by
  have := List.length_pos_iff.mpr h.target_ne_nil
  rw [h.path, List.length_append, List.length_singleton]
  omega

theorem dropLast_path (h : m.AttachedAt mods T n) : (ofNode n).path.dropLast = T := by
  rw [path_ofNode, h.path, List.dropLast_concat]

theorem namespaceUri_ofNode (h : m.AttachedAt mods T n) :
    (ofNode n).namespaceUri? = some m.namespaceUri := by
  simp [namespaceUri?, h.path]

theorem isAddedIn_ofNode (h : m.AttachedAt mods T n) (uri : Text) :
    isAddedIn uri (ofNode n) = decide (m.namespaceUri = uri) := by
  simp [isAddedIn, h.namespaceUri_ofNode, h.augmenting]

end Module.AttachedAt

/-- When no namespace has two module names, every augment target of a loaded document is a path
of readable names qualified by the latest revisions of their modules. -/
theorem Context.targetNames_of_load {doc : Value} {ctx : Context} (h : Context.load doc = .ok ctx)
    (hns : ∀ m ∈ ctx.modules, ∀ m' ∈ ctx.modules, m.namespaceUri = m'.namespaceUri →
      m.name = m'.name) :
    ∀ m ∈ ctx.modules, ∀ a ∈ m.augments, ∀ q ∈ a.target, LatestNamed ctx.modules q ∧ q.Readable := by
  have hk := Context.keyed_of_load h
  intro m hm a ha q hq
  obtain ⟨hlatest, hslash⟩ := (Context.targets_of_load h hns m hm a ha).1 q hq
  exact ⟨hlatest, hlatest.separatorFree fun m hm => (hk.modules m hm).name, hslash⟩

/-- When no two modules of different names share a namespace, every node a module of a loaded
document attached stands one name below the target of its statement. -/
theorem Context.attachedAt_of_load {doc : Value} {ctx : Context} (h : Context.load doc = .ok ctx)
    (hns : ∀ m ∈ ctx.modules, ∀ m' ∈ ctx.modules, m.namespaceUri = m'.namespaceUri →
      m.name = m'.name) :
    ∀ m ∈ ctx.modules, ∀ p ∈ m.attached, m.AttachedAt ctx.modules p.1 p.2 := by
  have hk := Context.keyed_of_load h
  intro m hm p hp
  obtain ⟨a, ha, n, hn, rfl⟩ := Module.mem_attached.mp hp
  obtain ⟨hq, hfree, -⟩ := Context.recorded_of_load h m hm a ha n hn
  obtain ⟨haug, hlen⟩ := hk.augments m hm a ha n hn
  have hpath : n.path = a.target ++ [⟨m.name, m.namespaceUri, n.qname.localName⟩] := by
    rw [((Context.targets_of_load h hns m hm a ha).2 n hn).path_eq, ← hq]
  refine ⟨hpath, (hk.modules m hm).name, hfree, haug, fun hnil => ?_,
    Context.targetNames_of_load h hns m hm a ha⟩
  have hnil : a.target = [] := hnil
  rw [hpath, hnil] at hlen
  simp at hlen

/-- The keys of a module's attached paths are distinct when the paths are and no other module
shares its name. -/
theorem attached_keys_nodup {mods pre post : List Module} {M : Module}
    (hat : ∀ p ∈ M.attached, M.AttachedAt mods p.1 p.2) (hM : mods = pre ++ M :: post)
    (hname : ∀ m ∈ pre ++ post, m.name ≠ M.name)
    (hdistinct : (M.attached.map fun p => p.2.path).Nodup) :
    (M.attached.map fun p => pathKey p.2.path).Nodup := by
  have hlatest : ∀ p ∈ M.attached, ∀ q ∈ p.2.path, LatestNamed mods q ∧ q.Readable := by
    intro p hp q hq
    refine ⟨?_, (hat p hp).readable q hq⟩
    rw [(hat p hp).path, List.mem_append, List.mem_singleton] at hq
    rcases hq with hq | rfl
    · exact ((hat p hp).target q hq).1
    · exact latestNamed_of_unique hM hname _
  have hmap : (M.attached.map fun p => pathKey p.2.path) =
      (M.attached.map fun p => p.2.path).map pathKey := by
    rw [List.map_map]
    rfl
  rw [hmap]
  refine hdistinct.map_on fun x hx y hy hxy => ?_
  obtain ⟨p, hp, rfl⟩ := List.mem_map.mp hx
  obtain ⟨p', hp', rfl⟩ := List.mem_map.mp hy
  refine eq_of_pathKey_eq (fun q hq => (?_ : LatestNamed mods q ∧ q.Readable)) hxy
  rcases List.mem_append.mp hq with hq | hq
  · exact hlatest p hp q hq
  · exact hlatest p' hp' q hq

/-! ## The entries a module added -/

section Added

variable {ctx : Context} {pre post : List Module} {M : Module}

theorem Module.augmentEntries_eq (m : Module) :
    (m.augments.flatMap fun a => a.nodes.map ofNode) = m.attached.map fun p => ofNode p.2 := by
  simp [Module.attached, List.map_flatMap, Function.comp_def]

/-- The entries an augment added in a module's namespace among the root entries of a keyed
context are the module's attached nodes, when no other module has its namespace. -/
theorem filter_isAddedIn_rootEntries (hk : ctx.Keyed)
    (hat : ∀ m ∈ ctx.modules, ∀ p ∈ m.attached, m.AttachedAt ctx.modules p.1 p.2)
    (hM : ctx.modules = pre ++ M :: post)
    (hns : ∀ m ∈ pre ++ post, m.namespaceUri ≠ M.namespaceUri) :
    ctx.rootEntries.filter (isAddedIn M.namespaceUri) = M.attached.map fun p => ofNode p.2 := by
  have hdata : ∀ m ∈ ctx.modules, (m.dataNodes.map ofNode).filter (isAddedIn M.namespaceUri) = [] := by
    intro m hm
    refine List.filter_eq_nil_iff.mpr fun t ht => ?_
    obtain ⟨n, hn, rfl⟩ := List.mem_map.mp ht
    simp [isAddedIn, ((hk.modules m hm).roots n hn).2.2]
  have haug : ∀ m ∈ ctx.modules, (m.attached.map fun p => ofNode p.2).filter
      (isAddedIn M.namespaceUri) =
        if m.namespaceUri = M.namespaceUri then m.attached.map fun p => ofNode p.2 else [] := by
    intro m hm
    split
    · rename_i he
      refine List.filter_eq_self.mpr fun t ht => ?_
      obtain ⟨p, hp, rfl⟩ := List.mem_map.mp ht
      simp [(hat m hm p hp).isAddedIn_ofNode, he]
    · rename_i he
      refine List.filter_eq_nil_iff.mpr fun t ht => ?_
      obtain ⟨p, hp, rfl⟩ := List.mem_map.mp ht
      simp [(hat m hm p hp).isAddedIn_ofNode, he]
  have hout : ∀ l : List Module, (∀ m ∈ l, m.namespaceUri ≠ M.namespaceUri) →
      l.flatMap (fun m => if m.namespaceUri = M.namespaceUri then
        m.attached.map fun p => ofNode p.2 else []) = [] :=
    fun l hl => List.flatMap_eq_nil_iff.mpr fun m hm => by simp [hl m hm]
  simp only [Context.rootEntries, Module.augmentEntries_eq, List.filter_append,
    List.filter_flatMap]
  rw [List.flatMap_congr hdata, List.flatMap_congr haug, hM]
  simp only [List.flatMap_append, List.flatMap_cons]
  rw [hout pre fun m hm => hns m (List.mem_append_left _ hm),
    hout post fun m hm => hns m (List.mem_append_right _ hm)]
  have hnil : ∀ l : List Module, l.flatMap (fun _ => ([] : List SchemaTree)) = [] :=
    fun l => List.flatMap_eq_nil_iff.mpr fun _ _ => rfl
  simp [hnil]

/-- The root entries of a keyed context keep their keys apart for a module's added entries, when
it shares no name or namespace and its attached keys are distinct. -/
theorem keysApart_added (hk : ctx.Keyed)
    (hat : ∀ m ∈ ctx.modules, ∀ p ∈ m.attached, m.AttachedAt ctx.modules p.1 p.2)
    (hM : ctx.modules = pre ++ M :: post)
    (hother : ∀ m ∈ pre ++ post, m.name ≠ M.name ∧ m.namespaceUri ≠ M.namespaceUri)
    (hkeys : (M.attached.map fun p => pathKey p.2.path).Nodup) :
    KeysApart (fun t => pathKey t.path) (isAddedIn M.namespaceUri) ctx.rootEntries := by
  have hadded := filter_isAddedIn_rootEntries hk hat hM fun m hm => (hother m hm).2
  have hMmem : M ∈ ctx.modules := by rw [hM]; simp
  refine ⟨?_, fun x hx hpx y hy hkey => ?_⟩
  · rw [hadded, List.map_map]
    simpa [Function.comp_def] using hkeys
  · have hx' : x ∈ M.attached.map fun p => ofNode p.2 := hadded ▸ List.mem_filter.mpr ⟨hx, hpx⟩
    obtain ⟨⟨T, n⟩, hp, rfl⟩ := List.mem_map.mp hx'
    have hatn := hat M hMmem _ hp
    dsimp only at hkey
    rw [path_ofNode] at hkey
    rcases List.mem_append.mp hy with hy | hy
    · simp only [List.mem_flatMap, List.mem_map] at hy
      obtain ⟨m, hm, n', hn', rfl⟩ := hy
      have hroot := (hk.modules m hm).roots n' hn'
      rw [key_ofNode_of_ownRoot hroot] at hkey
      have hslash := slash_mem_pathKey hatn.two_le_length
      rw [← hkey] at hslash
      exact absurd hslash (slash_not_mem_key (hk.modules m hm).name hroot.2.1)
    · rw [List.mem_flatMap] at hy
      obtain ⟨m, hm, hy⟩ := hy
      rw [Module.augmentEntries_eq] at hy
      obtain ⟨⟨T', n'⟩, hp', rfl⟩ := List.mem_map.mp hy
      have hatn' := hat m hm _ hp'
      rw [path_ofNode] at hkey
      have hsteps := steps_of_pathKey_eq hatn'.readable hatn.readable hkey
      rw [hatn'.path, hatn.path, List.map_append, List.map_append] at hsteps
      have hlast := (List.append_inj' hsteps (by simp)).2
      simp only [List.map_cons, List.map_nil, List.cons.injEq, and_true] at hlast
      have hname : m.name = M.name :=
        (@eq_of_step_eq ⟨m.name, m.namespaceUri, n'.qname.localName⟩
          ⟨M.name, M.namespaceUri, n.qname.localName⟩ hatn'.name.1 hatn.name.1 hlast).1
      have hmM : m = M := by
        rw [hM, List.mem_append, List.mem_cons] at hm
        rcases hm with hm | rfl | hm
        · exact absurd hname (hother m (List.mem_append_left _ hm)).1
        · rfl
        · exact absurd hname (hother m (List.mem_append_right _ hm)).1
      subst hmM
      simp [hatn'.isAddedIn_ofNode]

end Added

/-- The entries an augment added in a module's namespace under a loaded document's root are its
attached nodes, in order, when no name or namespace is shared and its attached paths differ. -/
theorem Context.addedEntries_schemaTree {doc : Value} {ctx : Context} {pre post : List Module}
    {M : Module} (hload : Context.load doc = .ok ctx) (hM : ctx.modules = pre ++ M :: post)
    (hother : ∀ m ∈ pre ++ post, m.name ≠ M.name ∧ m.namespaceUri ≠ M.namespaceUri)
    (hns : ∀ m ∈ ctx.modules, ∀ m' ∈ ctx.modules, m.namespaceUri = m'.namespaceUri →
      m.name = m'.name)
    (hdistinct : (M.attached.map fun p => p.2.path).Nodup) :
    ctx.schemaTree.childTrees.filter (isAddedIn M.namespaceUri) =
      M.attached.map fun p => ofNode p.2 := by
  have hk := Context.keyed_of_load hload
  have hat := Context.attachedAt_of_load hload hns
  have hMmem : M ∈ ctx.modules := by rw [hM]; simp
  have hkeys := attached_keys_nodup (hat M hMmem) hM (fun m hm => (hother m hm).1) hdistinct
  rw [Context.childTrees_schemaTree,
    filter_foldl_putKey (fun t => pathKey t.path) _ ctx.rootEntries [] (by simp)
      (by simpa using keysApart_added hk hat hM hother hkeys)]
  simpa using filter_isAddedIn_rootEntries hk hat hM fun m hm => (hother m hm).2

end YangDiagram.Schema
