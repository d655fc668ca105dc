-- With no module named, each module entry finds a module and adds its diagram, and none is
-- reported missing. An entry finds itself unless an earlier entry of its name and revision, or a
-- dated one when it has none, takes its place.
import Mathlib
import YangDiagram.Schema.Lookup
import YangDiagram.Proofs.Diagram.Passes
import YangDiagram.Proofs.Diagram.Roots

namespace YangDiagram.Diagram

open YangDiagram.Schema YangDiagram.Json

/-! ## The module an entry finds -/

/-- The module that the name and revision of entry `m` find, `m` itself standing in when none is
found, which never happens for an entry of the context. -/
def entryModule (ctx : Context) (m : Module) : Module :=
  (ctx.findModule m.name m.revision).getD m

/-- Entry `m` is what its own name and revision find: no earlier entry has both, and without a
revision no earlier entry has its name and no later one of its name has a nonempty revision. -/
def FindsItself (ctx : Context) (m : Module) : Prop :=
  ∃ before after, ctx.modules = before ++ m :: after ∧
    match m.revision with
    | some r => ∀ v ∈ before, ¬(v.name = m.name ∧ v.revision = some r)
    | none => (∀ v ∈ before, v.name ≠ m.name) ∧
        ∀ v ∈ after, v.name = m.name → v.revision.getD ⟨[]⟩ = ⟨[]⟩

theorem laterRevision_none (b : Option Text) : laterRevision none b = false := by
  simp only [laterRevision, Option.getD_none]
  cases (b.getD ⟨[]⟩).units <;> rfl

theorem laterRevision_eq_false_none (a : Option Text) :
    laterRevision a none = false ↔ a.getD ⟨[]⟩ = ⟨[]⟩ := by
  simp only [laterRevision, Option.getD_none]
  obtain ⟨units⟩ := a.getD ⟨[]⟩
  cases units <;> simp [Text.precedes]

section Entries

variable {ctx : Context} {m : Module}

theorem findModule_entry (hm : m ∈ ctx.modules) :
    ctx.findModule m.name m.revision = some (entryModule ctx m) := by
  have hsome : (ctx.findModule m.name m.revision).isSome := by
    cases hr : m.revision with
    | none =>
      have hne := (findModule_first_latest ctx m.name).2.1
      cases hfind : ctx.findModule m.name none with
      | none => exact absurd (hne.mp hfind m hm) (by simp)
      | some _ => rfl
    | some r =>
      rw [(findModule_first_latest ctx m.name).1 r, List.find?_isSome]
      exact ⟨m, hm, by simp [hr]⟩
  obtain ⟨found, hfound⟩ := Option.isSome_iff_exists.mp hsome
  simp [entryModule, hfound]

theorem find_entrySource (hm : m ∈ ctx.modules) :
    (Source.ofText m.name m.revision).find ctx = .ok (entryModule ctx m) := by
  have hfind := findModule_entry hm
  cases hr : m.revision with
  | none =>
    rw [hr] at hfind
    simp [Source.find, Source.lookup, Source.ofText, hfind]
  | some r =>
    rw [hr] at hfind
    simp [Source.find, Source.lookup, Source.ofText, hfind]

/-- The module an entry's name and revision find is the entry itself exactly when it
`FindsItself`. -/
theorem findModule_eq_self_iff :
    ctx.findModule m.name m.revision = some m ↔ FindsItself ctx m := by
  cases hr : m.revision with
  | some r =>
    rw [(findModule_first_latest ctx m.name).1 r, List.find?_eq_some_iff_append]
    simp [FindsItself, hr, imp_iff_not_or]
  | none =>
    rw [(findModule_first_latest ctx m.name).2.2.1 m]
    simp only [IsFirstLatest, FindsItself, hr, laterRevision_none]
    constructor
    · rintro ⟨before, after, hsplit, hbefore, hafter⟩
      have hnil : before = [] := List.eq_nil_iff_forall_not_mem.mpr fun v hv => by
        simpa using hbefore v hv
      subst hnil
      obtain ⟨l₁, l₂, hl, hl₁, -, hl₂⟩ := List.filter_eq_cons_iff.mp hsplit
      refine ⟨l₁, l₂, hl, fun v hv => by simpa using hl₁ v hv, fun v hv hname => ?_⟩
      have hin : v ∈ after := by
        rw [← hl₂]
        exact List.mem_filter.mpr ⟨hv, by simpa using hname⟩
      exact (laterRevision_eq_false_none _).mp (hafter v hin)
    · rintro ⟨l₁, l₂, hl, hl₁, hl₂⟩
      refine ⟨[], l₂.filter (·.name = m.name), ?_, by simp, ?_⟩
      · rw [hl, List.filter_append,
          List.filter_eq_nil_iff.mpr fun v hv => by simpa using hl₁ v hv]
        simp
      · intro v hv
        obtain ⟨hv, hname⟩ := List.mem_filter.mp hv
        exact (laterRevision_eq_false_none _).mpr (hl₂ v hv (by simpa using hname))

theorem entryModule_eq_self_iff (hm : m ∈ ctx.modules) :
    entryModule ctx m = m ↔ FindsItself ctx m := by
  rw [← findModule_eq_self_iff, findModule_entry hm, Option.some.injEq]

end Entries

/-! ## Drawing the entries -/

/-- The part an entry's source adds: the diagram of the module it finds, and the event of drawing
that module. -/
theorem sourcePart_entry {ctx : Context} {opts : Options} {s : Settings} (hs : opts.check = .ok s)
    {m : Module} (hm : m ∈ ctx.modules) :
    sourcePart ctx opts (Source.ofText m.name m.revision) =
      .ok ⟨diagramLines ctx ctx.schemaTree (entryModule ctx m) s,
        [.drawing (entryModule ctx m) opts]⟩ := by
  simp only [sourcePart, find_entrySource hm, renderModule_of_check hs]
  rfl

theorem mapM_sourcePart_entries {ctx : Context} {opts : Options} {s : Settings}
    (hs : opts.check = .ok s) :
    ∀ entries : List Module, (∀ m ∈ entries, m ∈ ctx.modules) →
      (entries.map fun m => Source.ofText m.name m.revision).mapM (sourcePart ctx opts) =
        .ok (entries.map fun m => ⟨diagramLines ctx ctx.schemaTree (entryModule ctx m) s,
          [.drawing (entryModule ctx m) opts]⟩)
  | [], _ => rfl
  | m :: entries, hsub => by
    rw [List.map_cons, List.mapM_cons, sourcePart_entry hs (hsub m (by simp)),
      mapM_sourcePart_entries hs entries fun v hv => hsub v (by simp [hv])]
    rfl

/-- Drawing one source per module entry: after the legend when asked for, the diagram of the
module each entry finds, in the order of the entries, and no module reported missing. -/
theorem renderTrees_entrySources (ctx : Context) (opts : Options) :
    renderTrees ctx (ctx.modules.map fun m => Source.ofText m.name m.revision) opts = (do
      let s ← (opts.check).mapError OptionError.failure
      pure ⟨(if s.help then legendLines s else []) ++
          ctx.modules.flatMap (fun m => diagramLines ctx ctx.schemaTree (entryModule ctx m) s),
        ctx.modules.map fun m => .drawing (entryModule ctx m) opts⟩) := by
  rw [renderTrees_eq_parts]
  cases hs : opts.check with
  | error e => rfl
  | ok s =>
    simp only [Except.mapError, bind, Except.bind,
      mapM_sourcePart_entries hs ctx.modules fun _ h => h, List.flatMap_map]
    rw [List.map_eq_flatMap]

/-- With no module named, each entry is drawn as the module its name and revision find, none
is reported missing, and that module is the entry itself exactly when it `FindsItself`. -/
theorem entries_draw_found_modules (ctx : Context) (opts : Options) :
    renderTrees ctx (ctx.modules.map fun m => Source.ofText m.name m.revision) opts = (do
      let s ← (opts.check).mapError OptionError.failure
      pure ⟨(if s.help then legendLines s else []) ++
          ctx.modules.flatMap (fun m => diagramLines ctx ctx.schemaTree (entryModule ctx m) s),
        ctx.modules.map fun m => .drawing (entryModule ctx m) opts⟩) ∧
    ∀ m ∈ ctx.modules, ctx.findModule m.name m.revision = some (entryModule ctx m) ∧
      (entryModule ctx m = m ↔ FindsItself ctx m) :=
  ⟨renderTrees_entrySources ctx opts,
    fun _ hm => ⟨findModule_entry hm, entryModule_eq_self_iff hm⟩⟩

/-! ## Two entries of one name

Module `a` twice: first dated 2024-01-01 with an rpc `r`, then without a revision with an rpc
`s`. -/

namespace TwoEntries

def twoEntries : Value :=
  .obj [("modules", .arr [
    .obj [("name", .str "a"), ("prefix", .str "a"), ("namespace", .str "urn:a"),
      ("revision", .str "2024-01-01"), ("rpcs", .arr [.obj [("name", .str "r")]])],
    .obj [("name", .str "a"), ("prefix", .str "a"), ("namespace", .str "urn:a"),
      ("rpcs", .arr [.obj [("name", .str "s")]])]])]

def rpcInfo (name : Text) : Info :=
  { qname := ⟨"a", "urn:a", name⟩, path := [⟨"a", "urn:a", name⟩], status := .current,
    config := none, ifFeatures := [], augmenting := false }

def bodyInfo (name word : Text) : Info :=
  { qname := ⟨"a", "urn:a", word⟩, path := [⟨"a", "urn:a", name⟩, ⟨"a", "urn:a", word⟩],
    status := .current, config := none, ifFeatures := [], augmenting := false }

def rpcA (name : Text) : Node :=
  .rpc (rpcInfo name) (.input (bodyInfo name "input") []) (.output (bodyInfo name "output") [])

def entryA (revision : Option Text) (rpc : Text) : Module :=
  { name := "a", prefixName := "a", namespaceUri := "urn:a", revision, imports := [("a", "a")],
    features := [], dataNodes := [], rpcs := [rpcA rpc], notifications := [], augments := [] }

def twoEntriesContext : Context := ⟨[entryA (some "2024-01-01") "r", entryA none "s"]⟩

theorem load_twoEntries : Context.load twoEntries = .ok twoEntriesContext := by
  have hcheck : Document.check twoEntries = none :=
    Document.check_eq_none_of_conforms (n := 64) (by decide)
  simp only [Context.load, hcheck]
  simp +decide [Scope.qname, twoEntries, twoEntriesContext, Value.itemsAt, namespacesOf,
    buildModule, Scope.ofStatement, Value.get?, Value.textAt?, Value.text?, Value.textsAt,
    Members.find?, List.zipIdx_cons, List.mapM_cons, applyAugments, augmentsOf, bind,
    Except.bind, pure, Except.pure, baseInfo, buildOperation_nil, entryA, rpcA, rpcInfo,
    bodyInfo]

theorem schemaTree_twoEntries : twoEntriesContext.schemaTree = .mk none [] false [] := by
  simp [Context.schemaTree, twoEntriesContext, entryA]

theorem ofNode_rpcA (name : Text)
    (hkeys : pathKey (bodyInfo name "input").path ≠ pathKey (bodyInfo name "output").path) :
    SchemaTree.ofNode (rpcA name) =
      .mk (some (rpcA name)) [⟨"a", "urn:a", name⟩] false
        [(pathKey (bodyInfo name "input").path,
            .mk (some (.input (bodyInfo name "input") [])) (bodyInfo name "input").path false []),
          (pathKey (bodyInfo name "output").path,
            .mk (some (.output (bodyInfo name "output") [])) (bodyInfo name "output").path false
              [])] := by
  have hin := SchemaTree.ofNode_of_childNodes_nil (n := .input (bodyInfo name "input") []) rfl
  have hout := SchemaTree.ofNode_of_childNodes_nil (n := .output (bodyInfo name "output") []) rfl
  rw [SchemaTree.ofNode_eq_foldl]
  simp only [rpcA, Node.childNodes, List.foldl_cons, List.foldl_nil, hin, hout]
  simp only [SchemaTree.add, SchemaTree.path, Node.path, Node.info, putKey, hkeys, if_false]
  rfl

theorem childPlan_rpcA (name : Text)
    (hkeys : pathKey (bodyInfo name "input").path ≠ pathKey (bodyInfo name "output").path)
    (env : Env) (pl : Place) :
    (childPlan env (SchemaTree.ofNode (rpcA name)) (rpcA name) pl).1 = [] := by
  rw [ofNode_rpcA name hkeys]
  rfl

theorem typeWidth_rpcA (name : Text) (env : Env) (pl : Place) :
    typeWidth env [SchemaTree.ofNode (rpcA name)] pl = 0 := by
  simp [typeWidth, hasTypeColumn, rpcA, Node.kind]

/-- The diagram of an entry of `a`, drawn with the default options: its header, the heading of
its rpcs and the row of its rpc. -/
theorem diagramLines_entryA (revision : Option Text) (name : Text)
    (hkeys : pathKey (bodyInfo name "input").path ≠ pathKey (bodyInfo name "output").path) :
    diagramLines twoEntriesContext twoEntriesContext.schemaTree (entryA revision name)
        ⟨{}, unbounded, unbounded⟩ =
      [Text.clip 10000 ("module: " ++ "a"), Text.clip 10000 "RPCs:",
        Text.clip 10000 (rowOf (Env.ofModule twoEntriesContext (entryA revision name)
          ⟨{}, unbounded, unbounded⟩) (rpcA name) ⟨[], 10000, {}, .plain, none⟩
            0).text] := by
  have hbudget : (⟨{}, unbounded, unbounded⟩ : Settings).budget = 10000 := countNat_unbounded
  have hwidth : (⟨{}, unbounded, unbounded⟩ : Settings).width = 10000 := countNat_unbounded
  rw [schemaTree_twoEntries]
  simp only [diagramLines, moduleLines, hbudget, hwidth]
  simp [drawEntries, ownTrees, groupsOf, SchemaTree.childTrees, SchemaTree.children, entryA]
  rw [drawTree_of_node (SchemaTree.node_ofNode _)]
  simp only [childPlan_rpcA name hkeys, List.zipIdx_nil, List.flatMap_nil, typeWidth_rpcA,
    ite_self]
  exact ⟨rfl, rfl, _, rfl, rfl⟩

end TwoEntries

open TwoEntries in
/-- The two entries of `a`, drawn with the default options. -/
theorem entries_draw_found_modules_twoEntries :
    entryA none "s" ∈ twoEntriesContext.modules ∧
      (renderTrees twoEntriesContext
          (twoEntriesContext.modules.map fun m => Source.ofText m.name m.revision) {} = (do
        let s ← (({} : Options).check).mapError OptionError.failure
        pure ⟨(if s.help then legendLines s else []) ++
            twoEntriesContext.modules.flatMap (fun m =>
              diagramLines twoEntriesContext twoEntriesContext.schemaTree
                (entryModule twoEntriesContext m) s),
          twoEntriesContext.modules.map fun m =>
            .drawing (entryModule twoEntriesContext m) {}⟩) ∧
      ∀ m ∈ twoEntriesContext.modules,
        twoEntriesContext.findModule m.name m.revision = some (entryModule twoEntriesContext m) ∧
        (entryModule twoEntriesContext m = m ↔ FindsItself twoEntriesContext m)) :=
  ⟨by simp [twoEntriesContext], entries_draw_found_modules twoEntriesContext {}⟩

open TwoEntries in
/-- An entry without a revision is drawn as the dated entry of its name: of two entries of `a`,
the diagram with rpc `r` is drawn twice and the one with rpc `s` never. -/
theorem undated_entry_finds_dated :
    Context.load twoEntries = .ok twoEntriesContext ∧
      twoEntriesContext.findModule "a" none = some (entryA (some "2024-01-01") "r") ∧
      (renderTrees twoEntriesContext
          (twoEntriesContext.modules.map fun m => Source.ofText m.name m.revision) {}).map
        Drawn.lines =
        .ok ["module: a", "RPCs:", "  +---x r", "module: a", "RPCs:", "  +---x r"] ∧
      diagramLines twoEntriesContext twoEntriesContext.schemaTree (entryA none "s")
        ⟨{}, unbounded, unbounded⟩ = ["module: a", "RPCs:", "  +---x s"] := by
  have hr : pathKey (bodyInfo "r" "input").path ≠ pathKey (bodyInfo "r" "output").path := by
    decide
  have hs : pathKey (bodyInfo "s" "input").path ≠ pathKey (bodyInfo "s" "output").path := by
    decide
  have hfind : twoEntriesContext.findModule "a" none = some (entryA (some "2024-01-01") "r") := by
    simp +decide [Context.findModule, twoEntriesContext, entryA, firstLatest, keepLater]
  have hdated : entryModule twoEntriesContext (entryA (some "2024-01-01") "r") =
      entryA (some "2024-01-01") "r" := by
    simp +decide [entryModule, Context.findModule, twoEntriesContext, entryA]
  have hundated : entryModule twoEntriesContext (entryA none "s") =
      entryA (some "2024-01-01") "r" := by
    simp only [entryModule, entryA] at hfind ⊢
    simp [hfind]
  refine ⟨load_twoEntries, hfind, ?_, by rw [diagramLines_entryA none "s" hs]; decide⟩
  have hmods : twoEntriesContext.modules = [entryA (some "2024-01-01") "r", entryA none "s"] :=
    rfl
  rw [renderTrees_entrySources, Options.check_default, hmods]
  simp only [Except.mapError, bind, Except.bind, pure, Except.pure, Except.map,
    List.flatMap_cons, List.flatMap_nil, hdated, hundated, diagramLines_entryA _ "r" hr,
    Except.ok.injEq]
  decide

end YangDiagram.Diagram
