-- The schema tree mirrors the schema while keys stay apart: a node whose children have distinct
-- names holds one entry per child, in order. A key reads no namespace, so two module entries of
-- one name in two namespaces lose a root entry.
import Mathlib
import YangDiagram.Proofs.Schema.Identified
import YangDiagram.Proofs.Schema.Attachment
import YangDiagram.Proofs.Schema.AugmentEntries

namespace YangDiagram.Schema

open YangDiagram.Json YangDiagram.Document SchemaTree

/-! ## What a key reads -/

def QName.keyNames (q : QName) : Text × Text := (q.module, q.localName)

/-- The names a path key reads, step by step. -/
def pathNames (path : List QName) : List (Text × Text) := path.map QName.keyNames

theorem pathKey_eq_intercalate (path : List QName) :
    pathKey path = Text.intercalate "/" ((pathNames path).map fun x => x.1 ++ ":" ++ x.2) := by
  simp [pathKey, pathNames, QName.keyNames, Function.comp_def]

theorem QName.Identified.readable {q : QName} (h : q.Identified) : q.Readable :=
  ⟨Text.separatorFree_of_isIdentifier h.1, (Text.separatorFree_of_isIdentifier h.2).2⟩

theorem pathNames_eq_of_steps_eq : ∀ {xs ys : List QName},
    (∀ q ∈ xs, Text.unit ':' ∉ q.module.units) → (∀ q ∈ ys, Text.unit ':' ∉ q.module.units) →
    xs.map (fun q : QName => (q.module ++ ":" ++ q.localName).units) =
      ys.map (fun q : QName => (q.module ++ ":" ++ q.localName).units) →
    pathNames xs = pathNames ys
  | [], [], _, _, _ => rfl
  | [], _ :: _, _, _, h => by simp at h
  | _ :: _, [], _, _, h => by simp at h
  | x :: xs, y :: ys, hx, hy, h => by
    simp only [List.map_cons, List.cons.injEq] at h
    obtain ⟨hm, hl⟩ := eq_of_step_eq (hx x List.mem_cons_self) (hy y List.mem_cons_self) h.1
    have hrest := pathNames_eq_of_steps_eq (fun q hq => hx q (List.mem_cons_of_mem _ hq))
      (fun q hq => hy q (List.mem_cons_of_mem _ hq)) h.2
    simp only [pathNames, List.map_cons, QName.keyNames, hm, hl] at hrest ⊢
    rw [hrest]

/-- The key of a path whose names are identifiers gives its names back: two such paths have one
key exactly when they read the same module and local names. -/
theorem pathKey_eq_pathKey_iff {p p' : List QName} (hp : ∀ q ∈ p, q.Identified)
    (hp' : ∀ q ∈ p', q.Identified) : pathKey p = pathKey p' ↔ pathNames p = pathNames p' := by
  constructor
  · intro h
    exact pathNames_eq_of_steps_eq (fun q hq => (hp q hq).readable.1.1)
      (fun q hq => (hp' q hq).readable.1.1)
      (steps_of_pathKey_eq (fun q hq => (hp q hq).readable) (fun q hq => (hp' q hq).readable) h)
  · intro h
    rw [pathKey_eq_intercalate, pathKey_eq_intercalate p', h]

/-- Items whose paths have identifier names have distinct keys exactly when they read distinct
names. -/
theorem nodup_pathKeys_iff {β : Type} (path : β → List QName) {l : List β}
    (hl : ∀ x ∈ l, ∀ q ∈ path x, q.Identified) :
    (l.map fun x => pathKey (path x)).Nodup ↔ (l.map fun x => pathNames (path x)).Nodup := by
  simp only [List.Nodup, List.pairwise_map]
  exact List.Pairwise.iff_of_mem fun hx hy =>
    not_congr (pathKey_eq_pathKey_iff (hl _ hx) (hl _ hy))

/-! ## Keyed lists with keys apart -/

theorem foldl_putKey_of_nodup {κ α β : Type} [DecidableEq κ] (k : β → κ) (g : β → α) :
    ∀ (l : List β) (cs : List (κ × α)), (cs.map Prod.fst ++ l.map k).Nodup →
      l.foldl (fun cs b => putKey cs (k b) (g b)) cs = cs ++ l.map fun b => (k b, g b)
  | [], cs, _ => by simp
  | b :: l, cs, h => by
    have hb : ∀ q ∈ cs, q.1 ≠ k b := by
      intro q hq he
      rw [List.map_cons, List.nodup_append] at h
      exact h.2.2 _ (List.mem_map_of_mem hq) _ List.mem_cons_self he
    rw [List.foldl_cons, putKey_of_forall_ne hb,
      foldl_putKey_of_nodup k g l _ (by simpa using h)]
    simp

/-! ## The entry of a node -/

theorem Node.exists_slot?_of_mem_childNodes {n c : Node} (h : c ∈ n.childNodes) :
    ∃ s, n.slot? s = some c := by
  have hchild : c ∈ Node.childList n → ∃ s, n.slot? s = some c := fun hc => by
    obtain ⟨i, hi⟩ := List.mem_iff_getElem?.mp hc
    exact ⟨.child i, by rw [Node.slot?_child, hi]⟩
  have haction : c ∈ Node.actionList n → ∃ s, n.slot? s = some c := fun hc => by
    obtain ⟨i, hi⟩ := List.mem_iff_getElem?.mp hc
    exact ⟨.action i, by rw [Node.slot?_action, hi]⟩
  cases n with
  | container _ _ cs as | list _ _ cs as =>
    simp only [Node.childNodes, List.mem_append] at h
    rcases h with hc | hc
    · exact hchild hc
    · exact haction hc
  | choice _ _ cs | case _ cs | input _ cs | output _ cs | notification _ cs => exact hchild h
  | rpc _ i o | action _ i o =>
    simp only [Node.childNodes, List.mem_cons, List.not_mem_nil, or_false] at h
    rcases h with rfl | rfl
    · exact ⟨.input, by rw [Node.slot?_body _ (.inl rfl)]; rfl⟩
    · exact ⟨.output, by rw [Node.slot?_body _ (.inr rfl)]; rfl⟩
  | leaf | leafList | anydata | anyxml => simp [Node.childNodes] at h

/-- The entry of a node whose children have distinct keys holds each child's entry under its
key, in order. -/
theorem children_ofNode_of_nodup {n : Node} (h : (n.childNodes.map fun c => pathKey c.path).Nodup) :
    (ofNode n).children = n.childNodes.map fun c => (pathKey c.path, ofNode c) := by
  rw [ofNode, foldl_add_mk (fun (c : {c // c ∈ n.childNodes}) => ofNode c.1)]
  rw [children, foldl_putKey_of_nodup _ _ _ [] (by simpa [Function.comp_def] using h)]
  simp

theorem childTrees_of_children {t : SchemaTree} {ns : List Node}
    (h : t.children = ns.map fun c => (pathKey c.path, ofNode c)) :
    t.childTrees = ns.map ofNode := by
  simp [childTrees, h]

theorem dataChildren_of_children {t : SchemaTree} {ns : List Node}
    (h : t.children = ns.map fun c => (pathKey c.path, ofNode c)) :
    t.dataChildren = (ns.filter fun c => c.kind ≠ .action).map ofNode := by
  rw [dataChildren, childTrees_of_children h, List.filter_map]
  congr 1
  exact List.filter_congr fun c _ => by simp [kind?_ofNode]

theorem actionChildren_of_children {t : SchemaTree} {ns : List Node}
    (h : t.children = ns.map fun c => (pathKey c.path, ofNode c)) :
    t.actionChildren = (ns.filter fun c => c.kind = .action).map ofNode := by
  rw [actionChildren, childTrees_of_children h, List.filter_map]
  congr 1
  exact List.filter_congr fun c _ => by simp [kind?_ofNode]

section Loaded

variable {doc : Value} {ctx : Context}

/-- The entry of a node of a loaded document whose children have distinct module and local names
holds one entry per child, in order, each the child's own entry under the key of its path. -/
theorem Context.children_ofNode_of_load (hload : Context.load doc = .ok ctx) {a : Address}
    {n : Node} (hn : nodeAt? ctx.modules a = some n)
    (hnames : (n.childNodes.map fun c => c.qname.keyNames).Nodup) :
    (ofNode n).children = n.childNodes.map fun c => (pathKey c.path, ofNode c) := by
  obtain ⟨p, hp⟩ := under_nodeAt? (Context.stands_of_load hload) hn
  have hpath : ∀ c ∈ n.childNodes, c.path = n.path ++ [c.qname] :=
    fun c hc => (hp.child hc).path_eq
  have hid : ∀ c ∈ n.childNodes, ∀ q ∈ c.path, q.Identified := fun c hc => by
    obtain ⟨s, hs⟩ := Node.exists_slot?_of_mem_childNodes hc
    exact Context.identified_of_load hload ((nodeAt?_under hn s).trans hs)
  refine children_ofNode_of_nodup ((nodup_pathKeys_iff Node.path hid).mpr ?_)
  have hnames' : (n.childNodes.map fun c => pathNames c.path) =
      (n.childNodes.map fun c => c.qname.keyNames).map fun x => pathNames n.path ++ [x] := by
    rw [List.map_map]
    exact List.map_congr_left fun c hc => by simp [hpath c hc, pathNames]
  rw [hnames']
  exact hnames.map fun x y hxy => by simpa using hxy

/-- Every entry under the root of a loaded document's schema tree is the entry of a node of the
document: a top-level data node, or a node an augment added. -/
theorem Context.exists_nodeAt?_of_mem_rootEntries (hload : Context.load doc = .ok ctx)
    {e : SchemaTree} (he : e ∈ ctx.rootEntries) :
    ∃ a n, nodeAt? ctx.modules a = some n ∧ e = ofNode n := by
  obtain ⟨-, built, r, -, -, hctx⟩ := Context.load_cases hload
  rcases List.mem_append.mp he with he | he
  · simp only [List.mem_flatMap, List.mem_map] at he
    obtain ⟨m, hm, n, hn, rfl⟩ := he
    obtain ⟨i, hi⟩ := List.mem_iff_getElem?.mp hm
    obtain ⟨j, hj⟩ := List.mem_iff_getElem?.mp hn
    exact ⟨⟨i, .data j, []⟩, n, by simp [nodeAt?_eq, hi, Module.top?_eq, hj, Node.nodeAt?], rfl⟩
  · simp only [List.mem_flatMap, List.mem_map] at he
    obtain ⟨m, hm, au, ha, n, hn, rfl⟩ := he
    rw [hctx, List.mem_map] at hm
    obtain ⟨⟨m', k⟩, -, rfl⟩ := hm
    simp only [augmentsOf, List.mem_map] at ha
    obtain ⟨⟨k', ap⟩, -, rfl⟩ := ha
    simp only [List.mem_filterMap] at hn
    obtain ⟨addr, -, hn⟩ := hn
    exact ⟨addr, n, by rw [hctx, nodeAt?_withAugments r.1 (augmentsOf r.1 r.2)]; exact hn, rfl⟩

/-- The root of a loaded document's schema tree holds every root entry under its key, in order,
when the paths of the root entries read distinct module and local names. -/
theorem Context.children_schemaTree_of_load (hload : Context.load doc = .ok ctx)
    (hnames : (ctx.rootEntries.map fun e => pathNames e.path).Nodup) :
    ctx.schemaTree.children = ctx.rootEntries.map fun e => (pathKey e.path, e) := by
  have hid : ∀ e ∈ ctx.rootEntries, ∀ q ∈ e.path, q.Identified := fun e he => by
    obtain ⟨a, n, hn, rfl⟩ := Context.exists_nodeAt?_of_mem_rootEntries hload he
    rw [path_ofNode]
    exact Context.identified_of_load hload hn
  have hkeys := (nodup_pathKeys_iff SchemaTree.path hid).mpr hnames
  rw [Context.schemaTree_eq_foldl, children,
    foldl_putKey_of_nodup (fun e : SchemaTree => pathKey e.path) (fun e => e) _ []
      (by simpa using hkeys)]
  simp

/-- The schema tree of a loaded document mirrors its schema: a node's entry holds its children's
entries in order, and the root every top-level and recorded node, when their names differ. -/
theorem Context.schemaTree_mirrors_of_load (hload : Context.load doc = .ok ctx) :
    (∀ p p' : List QName, (∀ q ∈ p, q.Identified) → (∀ q ∈ p', q.Identified) →
      (pathKey p = pathKey p' ↔ pathNames p = pathNames p')) ∧
    (∀ (a : Address) (n : Node), nodeAt? ctx.modules a = some n →
      (n.childNodes.map fun c => c.qname.keyNames).Nodup →
      (ofNode n).children = n.childNodes.map (fun c => (pathKey c.path, ofNode c)) ∧
      (ofNode n).dataChildren = (n.childNodes.filter fun c => c.kind ≠ .action).map ofNode ∧
      (ofNode n).actionChildren = (n.childNodes.filter fun c => c.kind = .action).map ofNode) ∧
    ((ctx.rootEntries.map fun e => pathNames e.path).Nodup →
      ctx.schemaTree.children = ctx.rootEntries.map fun e => (pathKey e.path, e)) := by
  refine ⟨fun p p' hp hp' => pathKey_eq_pathKey_iff hp hp', fun a n hn hnames => ?_,
    Context.children_schemaTree_of_load hload⟩
  have hchildren := Context.children_ofNode_of_load hload hn hnames
  exact ⟨hchildren, dataChildren_of_children hchildren, actionChildren_of_children hchildren⟩

end Loaded

open AugmentChain in
/-- In the chain of augments, `x` holds the entry of the container `c` that `b` adds, under the
key of its path, and the root holds `x`, then `c`, then the leaf `l` that `c` adds under `c`. -/
theorem schemaTree_mirrors_augmentChain :
    Context.load docBC = .ok contextBC ∧
      nodeAt? contextBC.modules ⟨0, .data 0, []⟩ = some (containerX [containerC [leafL]]) ∧
      (ofNode (containerX [containerC [leafL]])).children =
        [(pathKey [qx, qc], ofNode (containerC [leafL]))] ∧
      contextBC.schemaTree.children =
        [(pathKey [qx], ofNode (containerX [containerC [leafL]])),
          (pathKey [qx, qc], ofNode (containerC [leafL])), (pathKey [qx, qc, ql], ofNode leafL)] := by
  have hat : nodeAt? contextBC.modules ⟨0, .data 0, []⟩ = some (containerX [containerC [leafL]]) := by
    simp [nodeAt?, contextBC, moduleA, Module.tops, Node.nodeAt?]
  have hroots : contextBC.rootEntries =
      [ofNode (containerX [containerC [leafL]]), ofNode (containerC [leafL]), ofNode leafL] := by
    simp [Context.rootEntries, contextBC, moduleA, augmentingB, augmentingC, moduleB, moduleC]
  obtain ⟨-, hnode, hroot⟩ := Context.schemaTree_mirrors_of_load load_docBC
  refine ⟨load_docBC, hat, ?_, ?_⟩
  · exact (hnode _ _ hat (by decide)).1.trans rfl
  · rw [hroot (by simp [hroots, path_ofNode, pathNames, QName.keyNames, containerX, containerC,
      leafL, Node.path, Node.info, qx, qc, ql]), hroots]
    simp [path_ofNode, containerX, containerC, leafL, Node.path, Node.info]

/-! ## One name in two namespaces

Two module entries named `a`, the first in namespace `urn:a1` with a leaf `x`, the second in
`urn:a2` with a container `x`. -/

namespace SharedName

open YangDiagram.Diagram

def leafX : Node :=
  .leaf { qname := ⟨"a", "urn:a1", "x"⟩, path := [⟨"a", "urn:a1", "x"⟩], status := .current,
          config := some true, ifFeatures := [], augmenting := false } { name := "string" } false

def containerX : Node :=
  .container { qname := ⟨"a", "urn:a2", "x"⟩, path := [⟨"a", "urn:a2", "x"⟩], status := .current,
               config := some true, ifFeatures := [], augmenting := false } false [] []

def moduleIn (uri : Text) (nodes : List Node) : Module :=
  { name := "a", prefixName := "a", namespaceUri := uri, revision := none,
    imports := [("a", "a")], features := [], dataNodes := nodes, rpcs := [], notifications := [],
    augments := [] }

def rawLeaf : Value := .obj [("name", .str "a"), ("prefix", .str "a"), ("namespace", .str "urn:a1"),
  ("data", .arr [.obj [("kind", .str "leaf"), ("name", .str "x"), ("type", .str "string")]])]

def rawContainer : Value := .obj [("name", .str "a"), ("prefix", .str "a"),
  ("namespace", .str "urn:a2"), ("data", .arr [.obj [("kind", .str "container"), ("name", .str "x")]])]

def document : Value := .obj [("modules", .arr [rawLeaf, rawContainer])]

def context : Context := ⟨[moduleIn "urn:a1" [leafX], moduleIn "urn:a2" [containerX]]⟩

theorem check_document : Document.check document = none :=
  Document.check_eq_none_of_conforms (n := 64) (by decide)

theorem build_rawLeaf (i : Nat) (ns : List (Text × Text)) :
    buildModule rawLeaf i ns = .ok (moduleIn "urn:a1" [leafX]) := by
  have hstring : (Text.ofString "string").splitOn (Text.unit ':') = [Text.ofString "string"] := by
    decide
  simp +decide [buildModule, rawLeaf, moduleIn, leafX, hstring, Scope.qname, Value.itemsAt,
    Scope.ofStatement, Value.get?, Value.textAt?, Value.text?, Value.textsAt, Members.find?,
    List.zipIdx_cons, List.mapM_cons, bind, Except.bind, pure, Except.pure, buildDataNode_leaf,
    baseInfo, inheritConfig, Scope.typeRef, Value.flagAt?, Except.map]

theorem build_rawContainer (i : Nat) (ns : List (Text × Text)) :
    buildModule rawContainer i ns = .ok (moduleIn "urn:a2" [containerX]) := by
  have hd : rawContainer.itemsAt "data" = [.obj [("kind", .str "container"), ("name", .str "x")]] :=
    rfl
  have hr : rawContainer.itemsAt "rpcs" = [] := rfl
  have hn : rawContainer.itemsAt "notifications" = [] := rfl
  simp only [buildModule, hd, hr, hn, List.zipIdx_cons, List.zipIdx_nil, List.mapM_cons,
    List.mapM_nil]
  rw [buildDataNode_container_nil _ _ _ _ (by decide) rfl rfl]
  simp +decide [bind, Except.bind, pure, Except.pure, moduleIn, containerX, baseInfo,
    inheritConfig, Scope.ofStatement, Scope.qname, Value.textAt?, Value.text?, Value.get?,
    Value.flagAt?, Members.find?, Value.textsAt, Value.itemsAt, rawContainer]

theorem load_document : Context.load document = .ok context := by
  have hitems : document.itemsAt "modules" = [rawLeaf, rawContainer] := rfl
  have hl : rawLeaf.itemsAt "augments" = [] := rfl
  have hc : rawContainer.itemsAt "augments" = [] := rfl
  simp only [Context.load, check_document, hitems]
  simp [List.zipIdx_cons, build_rawLeaf, build_rawContainer, applyAugments, hl, hc, augmentsOf,
    context, moduleIn, bind, Except.bind, pure, Except.pure]

end SharedName

open SharedName in
/-- Two module entries named `a` in two namespaces, each with a node `x`: the nodes have
distinct paths with one key, so the root holds one entry for both. -/
theorem shared_module_name_drops_root_entry :
    Context.load document = .ok context ∧
      context.rootEntries = [ofNode leafX, ofNode containerX] ∧
      (context.rootEntries.map (·.path)).Nodup ∧
      context.schemaTree.childTrees = [ofNode containerX] := by
  have hroots : context.rootEntries = [ofNode leafX, ofNode containerX] := by
    simp [Context.rootEntries, context, moduleIn]
  have hkey : pathKey leafX.path = pathKey containerX.path := by decide
  refine ⟨load_document, hroots, ?_, ?_⟩
  · rw [hroots]
    simp only [List.map_cons, List.map_nil, path_ofNode]
    decide
  · rw [Context.childTrees_schemaTree, hroots]
    simp [putKey, hkey]

end YangDiagram.Schema
