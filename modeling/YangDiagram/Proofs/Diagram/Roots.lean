-- The root section: a module's own top-level nodes, in order, when no other entry shares its name
-- or namespace. Two revisions of one module share both and the newer draws the older's nodes; a
-- module that augments its own node draws the added node twice.
import Mathlib
import YangDiagram.Proofs.Diagram.Layout
import YangDiagram.Proofs.Schema.RootEntries

namespace YangDiagram.Diagram

open YangDiagram.Schema YangDiagram.Json

/-- The entries of a module's root section. -/
def rootsOf (tree : SchemaTree) (m : Module) : List SchemaTree :=
  (ownTrees m.namespaceUri tree.childTrees).filter (!·.augmenting)

theorem rootsOf_eq_filter (tree : SchemaTree) (m : Module) :
    rootsOf tree m = tree.childTrees.filter (SchemaTree.isOwnRoot m.namespaceUri) := by
  unfold rootsOf ownTrees
  rw [List.filter_filter]
  refine List.filter_congr fun t _ => ?_
  rw [SchemaTree.isOwnRoot, Bool.and_comm]

/-- The root section draws the module's own top-level data nodes, in order, when no other module
shares its name or namespace and its top-level nodes have distinct local names. -/
theorem root_section_own_nodes {doc : Value} {ctx : Context} {pre post : List Module}
    {M : Module} (hload : Context.load doc = .ok ctx) (hM : ctx.modules = pre ++ M :: post)
    (hother : ∀ m ∈ pre ++ post, m.name ≠ M.name ∧ m.namespaceUri ≠ M.namespaceUri)
    (hnames : (M.dataNodes.map fun n => n.qname.localName).Nodup) (env : Env) :
    (sections env ctx.schemaTree M).head? =
      some ⟨"module: " ++ M.name, .plain, M.dataNodes.map SchemaTree.ofNode⟩ := by
  have hhead : (sections env ctx.schemaTree M).head? =
      some ⟨"module: " ++ M.name, .plain, rootsOf ctx.schemaTree M⟩ := rfl
  rw [hhead, rootsOf_eq_filter, Context.ownRoots_schemaTree hload hM hother hnames]

theorem SchemaTree.ofNode_of_childNodes_nil {n : Node} (h : n.childNodes = []) :
    SchemaTree.ofNode n = .mk (some n) n.path n.info.augmenting [] := by
  rw [SchemaTree.ofNode, List.attach_eq_nil_iff.mpr h, List.foldl_nil]

theorem buildDataNode_container_nil (sc : Scope) (raw : Value) (parent : Parent) (place : Text)
    (h : (raw.textAt? "kind").getD "" = "container") (hc : raw.itemsAt "children" = [])
    (ha : raw.itemsAt "actions" = []) :
    buildDataNode sc raw parent place =
      .ok (.container (baseInfo sc ((raw.textAt? "name").getD "") raw parent
          (inheritConfig parent (raw.flagAt? "config"))) ((raw.flagAt? "presence").getD false)
        [] []) := by
  rw [buildDataNode]
  simp only [h, bind, Except.bind, pure, Except.pure]
  rw [List.attach_eq_nil_iff.mpr hc, List.attach_eq_nil_iff.mpr ha]
  rfl

theorem buildOperation_nil (sc : Scope) (raw : Value) (isAction : Bool) (parent : Parent)
    (place : Text) (hi : raw.itemsAt "input" = []) (ho : raw.itemsAt "output" = []) :
    buildOperation sc raw isAction parent place =
      let info := baseInfo sc ((raw.textAt? "name").getD "") raw parent none
      let body (which : Body) : Info :=
        { qname := sc.qname which.word, path := info.path ++ [sc.qname which.word],
          status := .current, config := none, ifFeatures := [], augmenting := parent.augmenting }
      .ok (if isAction then .action info (.input (body .input) []) (.output (body .output) [])
        else .rpc info (.input (body .input) []) (.output (body .output) [])) := by
  rw [buildOperation]
  simp only [bind, Except.bind, pure, Except.pure]
  rw [List.attach_eq_nil_iff.mpr hi, List.attach_eq_nil_iff.mpr ho]
  rfl

theorem SchemaTree.ofNode_eq_foldl (n : Node) : SchemaTree.ofNode n =
    n.childNodes.foldl (fun t c => t.add (SchemaTree.ofNode c))
      (.mk (some n) n.path n.info.augmenting []) := by
  rw [SchemaTree.ofNode]
  conv_rhs => rw [← List.attach_map_subtype_val n.childNodes, List.foldl_map]

/-! ## Two revisions of one module

Module `a` in two revisions: the newer with a string leaf `x`, then the older with int8 leaves `x`
and `y`. Both define the root key `a:x`, and only the older defines `a:y`. -/

def leafA (name type : Text) : Node :=
  .leaf { qname := ⟨"a", "urn:a", name⟩, path := [⟨"a", "urn:a", name⟩], status := .current,
          config := some true, ifFeatures := [], augmenting := false } { name := type } false

def revisionA (revision : Text) (nodes : List Node) : Module :=
  { name := "a", prefixName := "a", namespaceUri := "urn:a", revision := some revision,
    imports := [("a", "a")], features := [], dataNodes := nodes, rpcs := [], notifications := [],
    augments := [] }

def twoRevisions : Value :=
  .obj [("modules", .arr [
    .obj [("name", .str "a"), ("prefix", .str "a"), ("namespace", .str "urn:a"),
      ("revision", .str "2024-01-01"),
      ("data", .arr [.obj [("kind", .str "leaf"), ("name", .str "x"), ("type", .str "string")]])],
    .obj [("name", .str "a"), ("prefix", .str "a"), ("namespace", .str "urn:a"),
      ("revision", .str "2023-01-01"),
      ("data", .arr [.obj [("kind", .str "leaf"), ("name", .str "x"), ("type", .str "int8")],
        .obj [("kind", .str "leaf"), ("name", .str "y"), ("type", .str "int8")]])]])]

def twoRevisionsContext : Context :=
  ⟨[revisionA "2024-01-01" [leafA "x" "string"],
    revisionA "2023-01-01" [leafA "x" "int8", leafA "y" "int8"]]⟩

theorem load_twoRevisions : Context.load twoRevisions = .ok twoRevisionsContext := by
  have hcheck : Document.check twoRevisions = none :=
    Document.check_eq_none_of_conforms (n := 64) (by decide)
  have hstring : (Text.ofString "string").splitOn (Text.unit ':') = [Text.ofString "string"] := by
    decide
  have hint8 : (Text.ofString "int8").splitOn (Text.unit ':') = [Text.ofString "int8"] := by
    decide
  simp only [Context.load, hcheck]
  simp +decide [hstring, hint8, Scope.qname, twoRevisions, twoRevisionsContext, Value.itemsAt,
    namespacesOf, buildModule, revisionA, leafA, Scope.ofStatement, Value.get?, Value.textAt?,
    Value.text?, Value.textsAt, Members.find?, List.zipIdx_cons, List.mapM_cons, applyAugments,
    augmentsOf, bind, Except.bind, pure, Except.pure, buildDataNode_leaf, baseInfo,
    inheritConfig, Scope.typeRef, Value.flagAt?, Except.map]

theorem schemaTree_twoRevisions : twoRevisionsContext.schemaTree =
    .mk none [] false
      [(pathKey [⟨"a", "urn:a", "x"⟩], .mk (some (leafA "x" "int8")) [⟨"a", "urn:a", "x"⟩] false []),
       (pathKey [⟨"a", "urn:a", "y"⟩], .mk (some (leafA "y" "int8")) [⟨"a", "urn:a", "y"⟩] false [])] := by
  have hleaf : ∀ name type, SchemaTree.ofNode (leafA name type) =
      .mk (some (leafA name type)) [⟨"a", "urn:a", name⟩] false [] :=
    fun _ _ => SchemaTree.ofNode_of_childNodes_nil rfl
  have hxy : pathKey [⟨"a", "urn:a", "x"⟩] ≠ pathKey [⟨"a", "urn:a", "y"⟩] := by decide
  simp only [Context.schemaTree, twoRevisionsContext, revisionA, List.foldl_cons, List.foldl_nil]
  simp only [hleaf]
  simp only [SchemaTree.add, SchemaTree.path]
  simp only [putKey, if_pos, if_neg hxy]

/-- The diagram of the newest revision of `a` draws at level 0 the older revision's `x` and `y`,
and not its own `x`. -/
theorem newer_revision_draws_older_roots :
    Context.load twoRevisions = .ok twoRevisionsContext ∧
      twoRevisionsContext.findModule "a" = some (revisionA "2024-01-01" [leafA "x" "string"]) ∧
      (rootsOf twoRevisionsContext.schemaTree (revisionA "2024-01-01" [leafA "x" "string"])).map
        SchemaTree.node = [some (leafA "x" "int8"), some (leafA "y" "int8")] := by
  refine ⟨load_twoRevisions, ?_, ?_⟩
  · simp +decide [Context.findModule, twoRevisionsContext, revisionA, firstLatest, keepLater]
  · rw [schemaTree_twoRevisions]
    simp [rootsOf, revisionA, ownTrees, SchemaTree.childTrees, SchemaTree.children,
      SchemaTree.namespaceUri?, SchemaTree.path, SchemaTree.node, SchemaTree.augmenting]

/-! ## Two modules

Module `a` with a string leaf `x`, then module `b`, in another namespace, with an int8 leaf `x`.
The two leaves have one local name but different keys. -/

def leafB : Node :=
  .leaf { qname := ⟨"b", "urn:b", "x"⟩, path := [⟨"b", "urn:b", "x"⟩], status := .current,
          config := some true, ifFeatures := [], augmenting := false } { name := "int8" } false

def moduleB : Module :=
  { name := "b", prefixName := "b", namespaceUri := "urn:b", revision := none,
    imports := [("b", "b")], features := [], dataNodes := [leafB], rpcs := [], notifications := [],
    augments := [] }

def twoModules : Value :=
  .obj [("modules", .arr [
    .obj [("name", .str "a"), ("prefix", .str "a"), ("namespace", .str "urn:a"),
      ("revision", .str "2024-01-01"),
      ("data", .arr [.obj [("kind", .str "leaf"), ("name", .str "x"), ("type", .str "string")]])],
    .obj [("name", .str "b"), ("prefix", .str "b"), ("namespace", .str "urn:b"),
      ("data", .arr [.obj [("kind", .str "leaf"), ("name", .str "x"), ("type", .str "int8")]])]])]

theorem load_twoModules :
    Context.load twoModules = .ok ⟨[revisionA "2024-01-01" [leafA "x" "string"], moduleB]⟩ := by
  have hcheck : Document.check twoModules = none :=
    Document.check_eq_none_of_conforms (n := 64) (by decide)
  have hstring : (Text.ofString "string").splitOn (Text.unit ':') = [Text.ofString "string"] := by
    decide
  have hint8 : (Text.ofString "int8").splitOn (Text.unit ':') = [Text.ofString "int8"] := by
    decide
  simp only [Context.load, hcheck]
  simp +decide [hstring, hint8, Scope.qname, twoModules, moduleB, Value.itemsAt,
    namespacesOf, buildModule, revisionA, leafA, Scope.ofStatement, Value.get?, Value.textAt?,
    Value.text?, Value.textsAt, Members.find?, List.zipIdx_cons, List.mapM_cons, applyAugments,
    augmentsOf, bind, Except.bind, pure, Except.pure, buildDataNode_leaf, baseInfo,
    inheritConfig, Scope.typeRef, Value.flagAt?, Except.map, leafB]

/-- Beside module `b`, which has a leaf of the same name, the root section of module `a` draws
its own leaf. -/
theorem root_section_own_nodes_twoModules :
    Context.load twoModules = .ok ⟨[revisionA "2024-01-01" [leafA "x" "string"], moduleB]⟩ ∧
      [revisionA "2024-01-01" [leafA "x" "string"], moduleB] =
        [] ++ revisionA "2024-01-01" [leafA "x" "string"] :: [moduleB] ∧
      (∀ m ∈ ([] ++ [moduleB] : List Module), m.name ≠ "a" ∧ m.namespaceUri ≠ "urn:a") ∧
      ([leafA "x" "string"].map fun n => n.qname.localName).Nodup ∧
      (sections ⟨revisionA "2024-01-01" [leafA "x" "string"], []⟩
          (Context.schemaTree ⟨[revisionA "2024-01-01" [leafA "x" "string"], moduleB]⟩)
          (revisionA "2024-01-01" [leafA "x" "string"])).head? =
        some ⟨"module: " ++ "a", .plain, [leafA "x" "string"].map SchemaTree.ofNode⟩ := by
  have hother : ∀ m ∈ ([] ++ [moduleB] : List Module), m.name ≠ "a" ∧ m.namespaceUri ≠ "urn:a" := by
    simp only [List.nil_append, List.mem_singleton, forall_eq, moduleB]
    decide
  have hnames : ([leafA "x" "string"].map fun n => n.qname.localName).Nodup := by
    simp
  exact ⟨load_twoModules, rfl, hother, hnames,
    root_section_own_nodes load_twoModules rfl hother hnames _⟩

/-! ## A module that augments its own container

Module `a` has a container `x` and an augment statement that adds a string leaf `y` under
`/a:x`. -/

namespace SelfAugment

def rawX : Value := .obj [("kind", .str "container"), ("name", .str "x")]

def rawAugment : Value := .obj [("target", .str "/a:x"),
  ("nodes", .arr [.obj [("kind", .str "leaf"), ("name", .str "y"), ("type", .str "string")]])]

def rawModule : Value := .obj [("name", .str "a"), ("prefix", .str "a"),
  ("namespace", .str "urn:a"), ("data", .arr [rawX]), ("augments", .arr [rawAugment])]

def doc : Value := .obj [("modules", .arr [rawModule])]

def qx : QName := ⟨"a", "urn:a", "x"⟩

def qy : QName := ⟨"a", "urn:a", "y"⟩

def leafY : Node :=
  .leaf { qname := qy, path := [qx, qy], status := .current, config := some true,
          ifFeatures := [], augmenting := true } { name := "string" } false

def containerX (children : List Node) : Node :=
  .container { qname := qx, path := [qx], status := .current, config := some true,
               ifFeatures := [], augmenting := false } false children []

def scope : Scope := ⟨"a", "a", "urn:a", [(Text.ofString "a", Text.ofString "a")],
  [(Text.ofString "a", Text.ofString "urn:a")]⟩

def built : Module :=
  { name := "a", prefixName := "a", namespaceUri := "urn:a", revision := none,
    imports := scope.imports, features := [], dataNodes := [containerX []], rpcs := [],
    notifications := [], augments := [] }

def augmented : Module := { built with dataNodes := [containerX [leafY]] }

def loaded : Module := { augmented with augments := [⟨"/a:x", [qx], none, [leafY]⟩] }

def context : Context := ⟨[loaded]⟩

theorem check_doc : Document.check doc = none :=
  Document.check_eq_none_of_conforms (n := 64) (by decide)

theorem build_rawX (place : Text) :
    buildDataNode scope rawX ⟨[], some true, false⟩ place = .ok (containerX []) := by
  rw [buildDataNode_container_nil _ _ _ _ (by decide) rfl rfl]
  simp +decide [containerX, baseInfo, rawX, inheritConfig, Value.textAt?, Value.text?,
    Value.get?, Members.find?, Value.flagAt?, Value.textsAt, Scope.qname, scope, qx]

theorem resolve_x (place : Text) :
    resolveTarget scope [built] "/a:x" place =
      .ok ⟨[qx], ⟨0, .data 0, []⟩, containerX [], none⟩ := by
  have hsplit : (Text.ofString "/a:x").splitOn (Text.unit '/') =
      [Text.ofString "", Text.ofString "a:x"] := by decide
  have hseg : (Text.ofString "a:x").splitOn (Text.unit ':') =
      [Text.ofString "a", Text.ofString "x"] := by decide
  simp only [resolveTarget, hsplit, List.drop, List.foldlM_cons, List.foldlM_nil]
  simp +decide [stepTarget, hseg, Scope.resolve, scope, latestIndex, firstLatest, Module.tops,
    built, containerX, qx, QName.same, bind, Except.bind, pure, Except.pure, Text.intercalate,
    Node.kind, lookupKey, Node.qname, Node.info]

theorem applyAugment_rawAugment (place : Text) :
    applyAugment scope [built] rawAugment place =
      .ok ([augmented], ⟨"/a:x", ⟨[qx], ⟨0, .data 0, []⟩, containerX [], none⟩,
        [⟨0, .data 0, [.child 0]⟩]⟩) := by
  have htarget : (rawAugment.textAt? "target").getD "" = "/a:x" := by decide
  have hstring : (Text.ofString "string").splitOn (Text.unit ':') = [Text.ofString "string"] := by
    decide
  simp only [applyAugment, htarget, resolve_x, bind, Except.bind]
  simp +decide [rawAugment, Value.itemsAt, Value.get?, Members.find?, List.zipIdx_cons, nodeAt?,
    built, Module.tops, Node.nodeAt?, attach, containerX, Node.counts, Node.kind,
    buildDataNode_leaf, Value.textAt?, Value.text?, baseInfo, inheritConfig, Scope.typeRef,
    hstring, Value.flagAt?, Value.textsAt, Scope.qname, scope, Node.info, Node.path, modifyAt,
    Module.modifyTop, Node.modifyAt, Node.addChild, augmented, leafY, qx, qy, Except.map, pure,
    Except.pure, bind, Except.bind]

theorem load_doc : Context.load doc = .ok context := by
  have hscope : Scope.ofStatement rawModule [(Text.ofString "a", Text.ofString "urn:a")] =
      scope := by
    simp +decide [Scope.ofStatement, rawModule, scope, Value.itemsAt, Value.get?, Value.textAt?,
      Value.text?, Members.find?]
  have hbuild : buildModule rawModule 0 [(Text.ofString "a", Text.ofString "urn:a")] =
      .ok built := by
    simp only [buildModule, hscope]
    simp +decide [rawModule, Value.itemsAt, Value.get?, Members.find?, List.zipIdx_cons, build_rawX,
      bind, Except.bind, pure, Except.pure, built, Value.textAt?, Value.text?, Value.textsAt]
  have hns : namespacesOf [rawModule] = [(Text.ofString "a", Text.ofString "urn:a")] := by decide
  have hmodules : doc.itemsAt "modules" = [rawModule] := rfl
  have haugments : rawModule.itemsAt "augments" = [rawAugment] := rfl
  simp only [Context.load, check_doc, hmodules, hns]
  simp only [List.zipIdx_cons, List.zipIdx_nil, List.mapM_cons, List.mapM_nil, hbuild, bind,
    Except.bind, pure, Except.pure, List.foldlM_cons, List.foldlM_nil]
  simp only [applyAugments, hscope, haugments, List.zipIdx_cons, List.zipIdx_nil,
    List.foldlM_cons, List.foldlM_nil, applyAugment_rawAugment, bind, Except.bind, pure,
    Except.pure]
  simp +decide [augmentsOf, nodeAt?, augmented, built, loaded, Module.tops, Node.nodeAt?,
    containerX, Node.slots, context]

theorem ofNode_leafY : SchemaTree.ofNode leafY = .mk (some leafY) [qx, qy] true [] :=
  SchemaTree.ofNode_of_childNodes_nil rfl

theorem ofNode_containerX : SchemaTree.ofNode (containerX [leafY]) =
    .mk (some (containerX [leafY])) [qx] false [(pathKey [qx, qy], SchemaTree.ofNode leafY)] := by
  have hc : (containerX [leafY]).childNodes = [leafY] := rfl
  have hp : (containerX [leafY]).path = [qx] := rfl
  have hpy : leafY.path = [qx, qy] := rfl
  rw [SchemaTree.ofNode_eq_foldl]
  simp only [hc, hp, List.foldl_cons, List.foldl_nil, SchemaTree.add, SchemaTree.path_ofNode, hpy,
    putKey]
  rfl

theorem schemaTree_context : context.schemaTree =
    .mk none [] false [(pathKey [qx], SchemaTree.ofNode (containerX [leafY])),
      (pathKey [qx, qy], SchemaTree.ofNode leafY)] := by
  have hne : pathKey [qx] ≠ pathKey [qx, qy] := by decide
  have hp : (containerX [leafY]).path = [qx] := rfl
  have hpy : leafY.path = [qx, qy] := rfl
  simp only [Context.schemaTree, context, loaded, augmented, built, List.foldl_cons,
    List.foldl_nil, SchemaTree.add, SchemaTree.path_ofNode, putKey, hp, hpy, if_neg hne]

theorem groupsOf_context : groupsOf context.schemaTree loaded =
    [⟨[qx], [SchemaTree.ofNode leafY], .plain⟩] := by
  rw [schemaTree_context, ofNode_containerX, ofNode_leafY]
  simp +decide [groupsOf, SchemaTree.childTrees, SchemaTree.children, SchemaTree.augmenting,
    SchemaTree.namespaceUri?, SchemaTree.path, loaded, augmented, built, lookupKey]

theorem rootsOf_context :
    (ownTrees loaded.namespaceUri context.schemaTree.childTrees).filter (!·.augmenting) =
      [SchemaTree.ofNode (containerX [leafY])] := by
  rw [schemaTree_context, ofNode_containerX, ofNode_leafY]
  simp [ownTrees, SchemaTree.childTrees, SchemaTree.children, SchemaTree.augmenting,
    SchemaTree.namespaceUri?, SchemaTree.path, loaded, augmented, built, qx, qy]

theorem shownChildren_containerX (env : Env) (henv : env.module.namespaceUri = "urn:a") :
    shownChildren env (SchemaTree.ofNode (containerX [leafY])) = [SchemaTree.ofNode leafY] := by
  rw [ofNode_containerX, ofNode_leafY]
  simp [shownChildren, ownTrees, henv, SchemaTree.kind?, SchemaTree.node,
    SchemaTree.dataChildren, SchemaTree.actionChildren, SchemaTree.childTrees,
    SchemaTree.children, SchemaTree.namespaceUri?, SchemaTree.path, containerX, leafY, Node.kind,
    qy]

theorem shownChildren_leafY (env : Env) : shownChildren env (SchemaTree.ofNode leafY) = [] := by
  rw [ofNode_leafY]
  simp [shownChildren, ownTrees, SchemaTree.kind?, SchemaTree.node, SchemaTree.dataChildren,
    SchemaTree.actionChildren, SchemaTree.childTrees, SchemaTree.children, leafY, Node.kind]

end SelfAugment

open SelfAugment in
/-- With the default options, the diagram of `a` draws `y` under `x` in its root section, and
again as the member of the group of `/a:x`. -/
theorem self_augment_drawn_twice :
    Context.load doc = .ok context ∧ ({} : Options).check = .ok ⟨{}, unbounded, unbounded⟩ ∧
      (moduleLines context context.schemaTree loaded ⟨{}, unbounded, unbounded⟩).map
          Line.shape =
        [(none, []), (some (containerX [leafY]), []), (some leafY, [false]),
          (none, []), (some leafY, [])] := by
  refine ⟨load_doc, Options.check_default, ?_⟩
  have hbudget : (⟨{}, unbounded, unbounded⟩ : Settings).budget = 9998 + 1 + 1 :=
    countNat_unbounded
  have hsound := sound_of_mem_sections (Context.placed_of_load load_doc)
    (List.mem_singleton_self _) (Env.ofModule context loaded ⟨{}, unbounded, unbounded⟩)
  have hrpcs : loaded.rpcs = [] := rfl
  have hnotifications : loaded.notifications = [] := rfl
  rw [moduleLines_shape hsound (by rw [hbudget]; omega), hbudget]
  simp only [sections, groupsOf_context, rootsOf_context, hrpcs, hnotifications, List.isEmpty_nil,
    if_true, List.append_nil, List.map_cons, List.map_nil, List.cons_append, List.flatMap_cons,
    List.flatMap_nil]
  simp only [trails_singleton,
    shownChildren_containerX (Env.ofModule context loaded ⟨{}, unbounded, unbounded⟩) rfl,
    shownChildren_leafY, trails_nil]
  simp [Trail.shape, Trail.tree?, Trail.connectors, Trail.flags, ofNode_containerX, ofNode_leafY,
    SchemaTree.node]

end YangDiagram.Diagram
