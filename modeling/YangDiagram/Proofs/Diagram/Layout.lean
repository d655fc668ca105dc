-- The layout of a module's diagram: section by section, its rows are the ends of the trails its
-- entries reach within the depth budget, and each row's connectors show a bar exactly where the
-- entry at that level has a later sibling.
import Mathlib
import YangDiagram.Diagram.Render
import YangDiagram.Proofs.Diagram.Trails
import YangDiagram.Proofs.Diagram.Budget
import YangDiagram.Proofs.Walker.Restore
import YangDiagram.Proofs.Document.Conformance

namespace YangDiagram.Diagram

open YangDiagram.Schema YangDiagram.Json

/-- A part of a module's diagram: its heading, the role its rows are drawn in, and its entries. -/
structure Section where
  heading : Text
  role : Role
  entries : List SchemaTree

/-- The parts of a module's diagram, in order: its own top-level data nodes that no augment
added, each augment group, its rpcs and its notifications when it has any. -/
def sections (env : Env) (tree : SchemaTree) (m : Module) : List Section :=
  ⟨"module: " ++ m.name, .plain,
      (ownTrees m.namespaceUri tree.childTrees).filter (!·.augmenting)⟩ ::
    (groupsOf tree m).map (fun g => ⟨groupHeading env.prefixes g.target, g.role, g.members⟩) ++
    (if m.rpcs.isEmpty then [] else [⟨"RPCs:", .plain, m.rpcs.map SchemaTree.ofNode⟩]) ++
    (if m.notifications.isEmpty then []
     else [⟨"notifications:", .plain, m.notifications.map SchemaTree.ofNode⟩])

def Section.lines (env : Env) (budget : Nat) (sec : Section) : List Line :=
  .heading sec.heading :: drawEntries env sec.role budget sec.entries

theorem moduleLines_eq_sections (ctx : Context) (tree : SchemaTree) (m : Module) (s : Settings) :
    moduleLines ctx tree m s =
      (sections (Env.ofModule ctx m s) tree m).flatMap
        (Section.lines (Env.ofModule ctx m s) s.budget) := by
  unfold moduleLines sections
  simp only [List.cons_append, List.flatMap_cons, List.flatMap_append, List.flatMap_map,
    Section.lines, Env.ofModule]
  split <;> split <;> simp [Section.lines]

theorem mem_childTrees_of_mem_members {root : SchemaTree} {m : Module} {g : Group}
    (hg : g ∈ groupsOf root m) {c : SchemaTree} (hc : c ∈ g.members) : c ∈ root.childTrees := by
  unfold groupsOf at hg
  simp only [List.mem_map] at hg
  obtain ⟨⟨key, target, ms⟩, hmem, rfl⟩ := hg
  simp only [List.mem_map] at hc
  obtain ⟨⟨k, c'⟩, hk, rfl⟩ := hc
  refine List.foldlRecOn
    (motive := fun (acc : List (Text × List QName × List (Text × SchemaTree))) =>
      ∀ e ∈ acc, ∀ p ∈ e.2.2, p.2 ∈ root.childTrees) _ _ (by simp) ?_ _ hmem _ hk
  intro acc hacc c hc e he p hp
  split at he
  · split at he
    · rename_i t ms' hlook
      rcases mem_putKey he with he | rfl
      · exact hacc e he p hp
      · rcases mem_putKey hp with hp | rfl
        · exact hacc _ (mem_of_lookupKey hlook) p hp
        · exact hc
    · rcases List.mem_append.mp he with he | he
      · exact hacc e he p hp
      · simp only [List.mem_singleton] at he
        subst he
        simp only [List.mem_singleton] at hp
        subst hp
        exact hc
  · exact hacc e he p hp

theorem sound_of_mem_sections {ctx : Context} (hctx : ctx.Placed) {m : Module}
    (hm : m ∈ ctx.modules) (env : Env) :
    ∀ sec ∈ sections env ctx.schemaTree m, ∀ t ∈ sec.entries, t.Sound := by
  have hroot := hctx.sound_schemaTree
  intro sec hsec t ht
  simp only [sections, List.cons_append, List.mem_cons, List.mem_append, List.mem_map] at hsec
  rcases hsec with rfl | (⟨g, hg, rfl⟩ | hsec) | hsec
  · exact hroot t (mem_of_mem_ownTrees (List.mem_filter.mp ht).1)
  · exact hroot t (mem_childTrees_of_mem_members hg ht)
  · split at hsec
    · simp at hsec
    · simp only [List.mem_singleton] at hsec
      subst hsec
      obtain ⟨n, hn, rfl⟩ := List.mem_map.mp ht
      exact SchemaTree.sound_ofNode n ((hctx.modules m hm).rpcs n hn)
  · split at hsec
    · simp at hsec
    · simp only [List.mem_singleton] at hsec
      subst hsec
      obtain ⟨n, hn, rfl⟩ := List.mem_map.mp ht
      exact SchemaTree.sound_ofNode n ((hctx.modules m hm).notifications n hn)

/-- Line by line, a diagram of sound sections is each section's heading followed by the ends of
the trails its entries reach. -/
theorem moduleLines_shape {ctx : Context} {tree : SchemaTree} {m : Module} {s : Settings}
    (hsound : ∀ sec ∈ sections (Env.ofModule ctx m s) tree m, ∀ t ∈ sec.entries, t.Sound)
    (hD : 0 < s.budget) :
    (moduleLines ctx tree m s).map Line.shape =
      (sections (Env.ofModule ctx m s) tree m).flatMap fun sec =>
        (none, []) :: (trails (Env.ofModule ctx m s) s.budget [] sec.entries).map Trail.shape := by
  rw [moduleLines_eq_sections, List.map_flatMap]
  refine List.flatMap_congr fun sec hsec => ?_
  rw [Section.lines, List.map_cons, drawEntries_shape (hsound sec hsec) hD]
  rfl

@[simp] theorem Line.shape_snd (l : Line) : l.shape.2 = l.connectors := by
  cases l <;> rfl

theorem length_sections (env : Env) (tree : SchemaTree) (m : Module) :
    (sections env tree m).length = 1 + (groupsOf tree m).length +
      (if m.rpcs.isEmpty then 0 else 1) + (if m.notifications.isEmpty then 0 else 1) := by
  unfold sections
  split <;> split <;> simp <;> omega

/-- A diagram of sound sections has a line for each heading and, under each entry, as many rows
as the entry reaches. -/
theorem length_moduleLines {ctx : Context} {tree : SchemaTree} {m : Module} {s : Settings}
    (hsound : ∀ sec ∈ sections (Env.ofModule ctx m s) tree m, ∀ t ∈ sec.entries, t.Sound)
    (hD : 0 < s.budget) :
    (moduleLines ctx tree m s).length = (sections (Env.ofModule ctx m s) tree m).length +
      ((sections (Env.ofModule ctx m s) tree m).map fun sec =>
        (sec.entries.map (reach (Env.ofModule ctx m s) s.budget)).sum).sum := by
  rw [← List.length_map Line.shape, moduleLines_shape hsound hD, List.length_flatMap]
  simp only [List.length_cons, List.length_map, length_trails, List.sum_map_add]
  simp [add_comm]

/-- Depth law: a module's diagram is, section by section, its heading followed by the ends of
the trails its entries reach within the depth budget, one row per trail. -/
theorem depth_law {doc : Value} {ctx : Context} (hload : Context.load doc = .ok ctx)
    {m : Module} (hm : m ∈ ctx.modules) {opts : Options} {s : Settings}
    (hs : opts.check = .ok s) :
    let env := Env.ofModule ctx m s
    let secs := sections env ctx.schemaTree m
    (moduleLines ctx ctx.schemaTree m s).map Line.shape =
        secs.flatMap (fun sec =>
          (none, []) :: (trails env s.budget [] sec.entries).map Trail.shape) ∧
      (∀ sec ∈ secs, ∀ tr,
        tr ∈ trails env s.budget [] sec.entries ↔ Reached env s.budget sec.entries tr) ∧
      (diagramLines ctx ctx.schemaTree m s).length =
        1 + (groupsOf ctx.schemaTree m).length + (if m.rpcs.isEmpty then 0 else 1) +
          (if m.notifications.isEmpty then 0 else 1) +
          (secs.map fun sec => (sec.entries.map (reach env s.budget)).sum).sum := by
  intro env secs
  have hsound := sound_of_mem_sections (Context.placed_of_load hload) hm env
  have hD := Options.budget_pos_of_check hs
  refine ⟨moduleLines_shape hsound hD, fun sec _ tr => mem_trails_iff_reached env _ _ tr, ?_⟩
  rw [diagramLines, List.length_map, length_moduleLines hsound hD, length_sections]

namespace ImportSample

/-- The statement of a module `ac` that imports `b` under the prefix `x` and writes two leaves:
`l`, of a type of `b`, and `r`, a leafref. -/
def acStatement : Value :=
  .obj [("name", .str "ac"), ("prefix", .str "ac"), ("namespace", .str "urn:ac"),
    ("imports", .arr [.obj [("module", .str "b"), ("prefix", .str "x")]]),
    ("data", .arr [
      .obj [("kind", .str "leaf"), ("name", .str "l"), ("type", .str "x:t")],
      .obj [("kind", .str "leaf"), ("name", .str "r"), ("type", .str "leafref"),
        ("path", .str "/mac:x/ac:y")]])]

def bStatement : Value :=
  .obj [("name", .str "b"), ("prefix", .str "bb"), ("namespace", .str "urn:b")]

def importDoc : Value := .obj [("modules", .arr [acStatement, bStatement])]

def acLeafInfo (name : Text) : Info :=
  { qname := ⟨"ac", "urn:ac", name⟩, path := [⟨"ac", "urn:ac", name⟩], status := .current,
    config := some true, ifFeatures := [], augmenting := false }

def acModule : Module :=
  { name := "ac", prefixName := "ac", namespaceUri := "urn:ac", revision := none,
    imports := [("ac", "ac"), ("x", "b")], features := [],
    dataNodes := [.leaf (acLeafInfo "l") { name := "t", namespaceUri := some "urn:b" } false,
      .leaf (acLeafInfo "r") { name := "leafref", path := some "/mac:x/ac:y" } false],
    rpcs := [], notifications := [], augments := [] }

def bModule : Module :=
  { name := "b", prefixName := "bb", namespaceUri := "urn:b", revision := none,
    imports := [("bb", "b")], features := [], dataNodes := [], rpcs := [], notifications := [],
    augments := [] }

theorem load_importDoc : Context.load importDoc = .ok ⟨[acModule, bModule]⟩ := by
  have hcheck : Document.check importDoc = none :=
    Document.check_eq_none_of_conforms (n := 64) (by decide)
  have hxt : (Text.ofString "x:t").splitOn (Text.unit ':') =
      [Text.ofString "x", Text.ofString "t"] := by
    decide
  have hleafref :
      (Text.ofString "leafref").splitOn (Text.unit ':') = [Text.ofString "leafref"] := by
    decide
  simp only [Context.load, hcheck]
  simp +decide [hxt, hleafref, Scope.qname, importDoc, acStatement, bStatement, acModule,
    bModule, acLeafInfo, Value.itemsAt, namespacesOf, buildModule, Scope.ofStatement, Value.get?,
    Value.textAt?, Value.text?, Value.textsAt, Members.find?, List.zipIdx_cons, List.mapM_cons,
    applyAugments, augmentsOf, bind, Except.bind, pure, Except.pure, buildDataNode_leaf, baseInfo,
    inheritConfig, Scope.typeRef, Scope.resolve, Value.flagAt?, Except.map, putKey, lookupKey,
    Text.intercalate]

end ImportSample

open ImportSample in
theorem depth_law_acModule :
    Context.load importDoc = .ok ⟨[acModule, bModule]⟩ ∧ acModule ∈ [acModule, bModule] ∧
      ({} : Options).check = .ok ⟨{}, unbounded, unbounded⟩ ∧
      let ctx : Context := ⟨[acModule, bModule]⟩
      let s : Settings := ⟨{}, unbounded, unbounded⟩
      let env := Env.ofModule ctx acModule s
      let secs := sections env ctx.schemaTree acModule
      (moduleLines ctx ctx.schemaTree acModule s).map Line.shape =
          secs.flatMap (fun sec =>
            (none, []) :: (trails env s.budget [] sec.entries).map Trail.shape) ∧
        (∀ sec ∈ secs, ∀ tr,
          tr ∈ trails env s.budget [] sec.entries ↔ Reached env s.budget sec.entries tr) ∧
        (diagramLines ctx ctx.schemaTree acModule s).length =
          1 + (groupsOf ctx.schemaTree acModule).length +
            (if acModule.rpcs.isEmpty then 0 else 1) +
            (if acModule.notifications.isEmpty then 0 else 1) +
            (secs.map fun sec => (sec.entries.map (reach env s.budget)).sum).sum :=
  ⟨load_importDoc, List.mem_cons_self, Options.check_default,
    depth_law load_importDoc List.mem_cons_self Options.check_default⟩

/-! ## Connectors -/

/-- The units of one connector group: two blanks, then a bar when a later sibling follows. -/
def groupUnits (more : Bool) : List UInt16 :=
  [Text.unit ' ', Text.unit ' ', if more then Text.unit '|' else Text.unit ' ']

theorem length_flatMap_groupUnits (flags : List Bool) :
    (flags.flatMap groupUnits).length = 3 * flags.length := by
  induction flags with
  | nil => rfl
  | cons more flags ih =>
    simp only [List.flatMap_cons, List.length_append, ih, List.length_cons]
    simp [groupUnits]
    omega

theorem getElem?_flatMap_groupUnits (flags : List Bool) (j : Nat) :
    (flags.flatMap groupUnits)[3 * j + 2]? =
      flags[j]?.map fun more => if more then Text.unit '|' else Text.unit ' ' := by
  induction flags generalizing j with
  | nil => simp
  | cons more flags ih =>
    cases j with
    | zero => cases more <;> rfl
    | succ j =>
      have hlen : (groupUnits more).length = 3 := rfl
      rw [List.flatMap_cons, List.getElem?_append_right (by omega), hlen,
        show 3 * (j + 1) + 2 - 3 = 3 * j + 2 by omega, ih]
      rfl

theorem units_connectorText (flags : List Bool) :
    (connectorText flags).units = flags.flatMap groupUnits ++ [Text.unit ' ', Text.unit ' '] := by
  have hgroup : ∀ more : Bool,
      (if more then Text.ofString "  |" else Text.ofString "   ").units = groupUnits more := by
    intro more
    cases more <;> rfl
  simp only [connectorText, Text.join, Text.units_append, List.flatMap_map, hgroup]
  rfl

theorem units_rowText (r : Row) : ∃ rest, r.text.units =
    r.connectors.flatMap groupUnits ++ [Text.unit ' ', Text.unit ' '] ++
      (Text.ofString (statusGlyph r.status)).units ++ rest := by
  simp only [Row.text, Text.units_append, units_connectorText, List.append_assoc]
  exact ⟨_, rfl⟩

theorem units_statusGlyph (st : Status) :
    ∃ g ∈ ['+', 'x', 'o'], (Text.ofString (statusGlyph st)).units = [Text.unit g] := by
  cases st
  · exact ⟨'+', by simp, rfl⟩
  · exact ⟨'x', by simp, rfl⟩
  · exact ⟨'o', by simp, rfl⟩

/-- Column `3 * j + 2` of a row, within its groups, holds a bar exactly when flag `j` is set. -/
theorem getElem?_rowText_of_lt (r : Row) {j : Nat} (hj : j < r.connectors.length) :
    r.text.units[3 * j + 2]? =
      some (if r.connectors[j] then Text.unit '|' else Text.unit ' ') := by
  obtain ⟨rest, h⟩ := units_rowText r
  have hlt : 3 * j + 2 < (r.connectors.flatMap groupUnits).length := by
    rw [length_flatMap_groupUnits]
    omega
  rw [h, List.append_assoc, List.append_assoc, List.getElem?_append_left hlt,
    getElem?_flatMap_groupUnits, List.getElem?_eq_getElem hj]
  rfl

theorem getElem?_rowText_glyph (r : Row) :
    ∃ g ∈ ['+', 'x', 'o'], r.text.units[3 * r.connectors.length + 2]? = some (Text.unit g) := by
  obtain ⟨rest, h⟩ := units_rowText r
  obtain ⟨g, hg, hu⟩ := units_statusGlyph r.status
  refine ⟨g, hg, ?_⟩
  rw [h, hu, List.append_assoc, List.append_assoc,
    List.getElem?_append_right (by rw [length_flatMap_groupUnits]; omega),
    length_flatMap_groupUnits, show 3 * r.connectors.length + 2 - 3 * r.connectors.length = 2 by omega]
  rfl

theorem mem_drawTree_row (env : Env) (b : Nat) : ∀ (pl : Place) (w : Nat) (more : Bool)
    (t : SchemaTree), pl.budget ≤ b + 1 → ∀ l ∈ drawTree env pl w more t,
      ∃ n p w', l = .row n p (rowOf env n p w') := by
  induction b with
  | zero =>
    intro pl w more t hb l hl
    cases hn : t.node with
    | none =>
      rw [drawTree] at hl
      simp [hn] at hl
    | some n =>
      rw [drawTree_of_node hn, List.mem_cons] at hl
      rcases hl with rfl | hl
      · exact ⟨_, _, _, rfl⟩
      · split at hl
        · simp at hl
        · omega
  | succ b ih =>
    intro pl w more t hb l hl
    cases hn : t.node with
    | none =>
      rw [drawTree] at hl
      simp [hn] at hl
    | some n =>
      rw [drawTree_of_node hn, List.mem_cons] at hl
      rcases hl with rfl | hl
      · exact ⟨_, _, _, rfl⟩
      · split at hl
        · simp at hl
        · obtain ⟨⟨c, i⟩, -, hl⟩ := List.mem_flatMap.mp hl
          exact ih _ _ _ c (by simp; omega) l hl

theorem mem_drawEntries_row {env : Env} {role : Role} {D : Nat} {g : List SchemaTree} {l : Line}
    (hl : l ∈ drawEntries env role D g) : ∃ n p w, l = .row n p (rowOf env n p w) := by
  simp only [drawEntries, List.mem_flatMap] at hl
  obtain ⟨⟨t, i⟩, -, hl⟩ := hl
  exact mem_drawTree_row env D _ _ _ t (by simp) l hl

/-- A row of a module's diagram is drawn under its place's connectors with its node's status. -/
theorem row_of_mem_moduleLines {ctx : Context} {tree : SchemaTree} {m : Module} {s : Settings}
    {n : Node} {p : Place} {r : Row} (h : Line.row n p r ∈ moduleLines ctx tree m s) :
    r.connectors = p.connectors ∧ r.status = n.info.status := by
  rw [moduleLines_eq_sections] at h
  obtain ⟨sec, -, h⟩ := List.mem_flatMap.mp h
  rcases List.mem_cons.mp h with h | h
  · cases h
  · obtain ⟨n', p', w, hrow⟩ := mem_drawEntries_row h
    cases hrow
    exact ⟨rfl, rfl⟩

/-- A bar of one line goes on in the next, which is a row: there it meets a bar in the same
column, or the row's own branch. -/
def Line.BarGoesOn (l₁ l₂ : Line) : Prop :=
  ∀ j, l₁.connectors[j]? = some true →
    ∃ n p r, l₂ = .row n p r ∧ (j = p.connectors.length ∨ p.connectors[j]? = some true)

theorem Line.barGoesOn_of_no_bar {l₁ : Line} (h : true ∉ l₁.connectors) (l₂ : Line) :
    l₁.BarGoesOn l₂ :=
  fun _ hj => absurd (List.mem_of_getElem? hj) h

/-- The rows a group of sound entries draws: every bar goes on, and the last row has none. -/
theorem drawEntries_bars {env : Env} {role : Role} {D : Nat} {g : List SchemaTree}
    (hg : ∀ t ∈ g, t.Sound) (hD : 0 < D) :
    (drawEntries env role D g).IsChain Line.BarGoesOn ∧
      ∀ l ∈ (drawEntries env role D g).getLast?, true ∉ l.connectors := by
  have hconn : (drawEntries env role D g).map Line.connectors =
      (trails env D [] g).map Trail.connectors := by
    have h := congrArg (List.map Prod.snd) (@drawEntries_shape env role D g hg hD)
    simpa [List.map_map, Function.comp_def, Trail.shape] using h
  obtain ⟨hchain, -, hlast⟩ := trails_bars env D [] g
  rw [← hconn] at hchain hlast
  constructor
  · refine ((List.isChain_map Line.connectors).mp hchain).imp_of_mem_imp
      fun a b _ hb hab j hj => ?_
    obtain ⟨n, p, w, rfl⟩ := mem_drawEntries_row hb
    exact ⟨n, p, _, rfl, hab j hj⟩
  · intro l hl
    obtain ⟨k, hk⟩ := hlast l.connectors (by rw [List.getLast?_map]; exact Option.mem_map_of_mem _ hl)
    simp [hk, Trail.flags]

theorem Section.lines_bars {env : Env} {D : Nat} {sec : Section}
    (hs : ∀ t ∈ sec.entries, t.Sound) (hD : 0 < D) :
    (sec.lines env D).IsChain Line.BarGoesOn ∧
      ∀ l ∈ (sec.lines env D).getLast?, true ∉ l.connectors := by
  obtain ⟨hchain, hlast⟩ := @drawEntries_bars env sec.role D sec.entries hs hD
  have hhead : true ∉ (Line.heading sec.heading).connectors := by simp [Line.connectors]
  refine ⟨List.isChain_cons.mpr ⟨fun y _ => Line.barGoesOn_of_no_bar hhead y, hchain⟩,
    fun l hl => ?_⟩
  rw [Section.lines, List.getLast?_cons] at hl
  cases h : (drawEntries env sec.role D sec.entries).getLast? with
  | none =>
    simp only [h, Option.getD_none, Option.mem_def, Option.some.injEq] at hl
    exact hl ▸ hhead
  | some l' =>
    simp only [h, Option.getD_some, Option.mem_def, Option.some.injEq] at hl
    exact hl ▸ hlast l' h

/-- Blocks of lines in each of which every bar goes on, and whose last lines have none, keep
both when put one after another. -/
theorem flatMap_bars {α : Type} (f : α → List Line) : ∀ xs : List α,
    (∀ x ∈ xs, (f x).IsChain Line.BarGoesOn ∧ ∀ l ∈ (f x).getLast?, true ∉ l.connectors) →
    (xs.flatMap f).IsChain Line.BarGoesOn ∧ ∀ l ∈ (xs.flatMap f).getLast?, true ∉ l.connectors
  | [], _ => by simp
  | x :: xs, h => by
    obtain ⟨hc, hl⟩ := h x List.mem_cons_self
    obtain ⟨hc', hl'⟩ := flatMap_bars f xs fun y hy => h y (List.mem_cons_of_mem _ hy)
    rw [List.flatMap_cons]
    refine ⟨hc.append hc' fun a ha b _ => Line.barGoesOn_of_no_bar (hl a ha) b, fun l hlast => ?_⟩
    rw [List.getLast?_append] at hlast
    cases h' : (xs.flatMap f).getLast? with
    | none =>
      simp only [h', Option.none_or] at hlast
      exact hl l hlast
    | some l' =>
      simp only [h', Option.some_or, Option.mem_def, Option.some.injEq] at hlast
      exact hlast ▸ hl' l' h'

/-- In a diagram of sound sections, a bar of a line goes on in the next line, which is a row. -/
theorem moduleLines_bar_next {ctx : Context} {tree : SchemaTree} {m : Module} {s : Settings}
    (hsound : ∀ sec ∈ sections (Env.ofModule ctx m s) tree m, ∀ t ∈ sec.entries, t.Sound)
    (hD : 0 < s.budget) {i j : Nat} {l : Line} (hl : (moduleLines ctx tree m s)[i]? = some l)
    (hj : l.connectors[j]? = some true) :
    ∃ n p r, (moduleLines ctx tree m s)[i + 1]? = some (.row n p r) ∧
      (j = p.connectors.length ∨ p.connectors[j]? = some true) := by
  obtain ⟨hchain, hlast⟩ : (moduleLines ctx tree m s).IsChain Line.BarGoesOn ∧
      ∀ l ∈ (moduleLines ctx tree m s).getLast?, true ∉ l.connectors := by
    rw [moduleLines_eq_sections]
    exact flatMap_bars _ _ fun sec hsec => Section.lines_bars (hsound sec hsec) hD
  have hi := (List.getElem?_eq_some_iff.mp hl).1
  by_cases hnext : i + 1 < (moduleLines ctx tree m s).length
  · obtain ⟨n, p, r, hrow, hgo⟩ := List.isChain_iff_getElem.mp hchain i hnext j
      (by rwa [(List.getElem?_eq_some_iff.mp hl).2])
    exact ⟨n, p, r, by rw [List.getElem?_eq_getElem hnext, hrow], hgo⟩
  · have hlast' : l ∈ (moduleLines ctx tree m s).getLast? := by
      rw [List.getLast?_eq_getElem?, show (moduleLines ctx tree m s).length - 1 = i by omega]
      exact hl
    exact absurd (List.mem_of_getElem? hj) (hlast l hlast')

theorem Text.clip_of_width_le {w : Nat} {t : Text} (h : t.width ≤ w) : Text.clip w t = t := by
  show Text.mk (t.units.take w) = t
  rw [List.take_of_length_le h]

theorem getElem?_diagramLines_row {ctx : Context} {tree : SchemaTree} {m : Module} {s : Settings}
    (hfit : ∀ l ∈ moduleLines ctx tree m s, l.text.width ≤ s.width) {i : Nat} {n : Node}
    {p : Place} {r : Row} (hi : (moduleLines ctx tree m s)[i]? = some (.row n p r)) :
    (diagramLines ctx tree m s)[i]? = some r.text := by
  rw [diagramLines, List.getElem?_map, hi, Option.map_some,
    Text.clip_of_width_le (hfit _ (List.mem_of_getElem? hi))]
  rfl

/-- Connector law: each row begins with its trail's connector groups, a bar exactly where the
ancestor at that level has a later sibling, and a bar meets a bar or a glyph on the next line. -/
theorem connector_law {doc : Value} {ctx : Context} (hload : Context.load doc = .ok ctx)
    {m : Module} (hm : m ∈ ctx.modules) {opts : Options} {s : Settings}
    (hs : opts.check = .ok s) :
    let env := Env.ofModule ctx m s
    let lines := moduleLines ctx ctx.schemaTree m s
    let out := diagramLines ctx ctx.schemaTree m s
    (∀ (i : Nat) (n : Node) (p : Place) (r : Row), lines[i]? = some (.row n p r) → ∃ rest, out[i]? = some (Text.clip s.width
        ⟨p.connectors.flatMap groupUnits ++ [Text.unit ' ', Text.unit ' '] ++
          (Text.ofString (statusGlyph n.info.status)).units ++ rest⟩)) ∧
      lines.map Line.shape = (sections env ctx.schemaTree m).flatMap (fun sec =>
        (none, []) :: (trails env s.budget [] sec.entries).map Trail.shape) ∧
      ((∀ l ∈ lines, l.text.width ≤ s.width) →
        ∀ (i j : Nat) (n : Node) (p : Place) (r : Row), lines[i]? = some (.row n p r) → j < p.connectors.length →
          out[i]?.bind (·.units[3 * j + 2]?) = some (Text.unit '|') →
          ∃ g ∈ ['|', '+', 'x', 'o'], out[i + 1]?.bind (·.units[3 * j + 2]?) = some (Text.unit g)) := by
  dsimp only
  have hsound := sound_of_mem_sections (Context.placed_of_load hload) hm (Env.ofModule ctx m s)
  have hD := Options.budget_pos_of_check hs
  refine ⟨fun i n p r hi => ?_, moduleLines_shape hsound hD, fun hfit i j n p r hi hj hbar => ?_⟩
  · obtain ⟨hc, hst⟩ := row_of_mem_moduleLines (List.mem_of_getElem? hi)
    obtain ⟨rest, hu⟩ := units_rowText r
    refine ⟨rest, ?_⟩
    rw [diagramLines, List.getElem?_map, hi, Option.map_some, ← hc, ← hst, ← hu]
    rfl
  · obtain ⟨hc, -⟩ := row_of_mem_moduleLines (List.mem_of_getElem? hi)
    have hj' : j < r.connectors.length := hc ▸ hj
    have hflag : p.connectors[j]? = some true := by
      rw [getElem?_diagramLines_row hfit hi, Option.bind_some, getElem?_rowText_of_lt r hj'] at hbar
      rw [← hc, List.getElem?_eq_getElem hj']
      split at hbar
      · rename_i h
        rw [h]
      · simp at hbar
        exact absurd hbar (by decide)
    obtain ⟨n', p', r', hnext, hgo⟩ := moduleLines_bar_next hsound hD hi hflag
    obtain ⟨hc', -⟩ := row_of_mem_moduleLines (List.mem_of_getElem? hnext)
    rw [getElem?_diagramLines_row hfit hnext, Option.bind_some]
    rcases hgo with rfl | hbar'
    · obtain ⟨g, hg, hu⟩ := getElem?_rowText_glyph r'
      exact ⟨g, List.mem_cons_of_mem _ hg, by rw [← hc', hu]⟩
    · have hj'' : j < r'.connectors.length := by
        rw [hc']
        exact (List.getElem?_eq_some_iff.mp hbar').1
      refine ⟨'|', List.mem_cons_self, ?_⟩
      rw [getElem?_rowText_of_lt r' hj'']
      simp [hc', (List.getElem?_eq_some_iff.mp hbar').2]

open ImportSample in
theorem connector_law_acModule :
    Context.load importDoc = .ok ⟨[acModule, bModule]⟩ ∧ acModule ∈ [acModule, bModule] ∧
      ({} : Options).check = .ok ⟨{}, unbounded, unbounded⟩ ∧
      let ctx : Context := ⟨[acModule, bModule]⟩
      let s : Settings := ⟨{}, unbounded, unbounded⟩
      let env := Env.ofModule ctx acModule s
      let lines := moduleLines ctx ctx.schemaTree acModule s
      let out := diagramLines ctx ctx.schemaTree acModule s
      (∀ (i : Nat) (n : Node) (p : Place) (r : Row), lines[i]? = some (.row n p r) → ∃ rest, out[i]? = some (Text.clip s.width
          ⟨p.connectors.flatMap groupUnits ++ [Text.unit ' ', Text.unit ' '] ++
            (Text.ofString (statusGlyph n.info.status)).units ++ rest⟩)) ∧
        lines.map Line.shape = (sections env ctx.schemaTree acModule).flatMap (fun sec =>
          (none, []) :: (trails env s.budget [] sec.entries).map Trail.shape) ∧
        ((∀ l ∈ lines, l.text.width ≤ s.width) →
          ∀ (i j : Nat) (n : Node) (p : Place) (r : Row), lines[i]? = some (.row n p r) → j < p.connectors.length →
            out[i]?.bind (·.units[3 * j + 2]?) = some (Text.unit '|') →
            ∃ g ∈ ['|', '+', 'x', 'o'],
              out[i + 1]?.bind (·.units[3 * j + 2]?) = some (Text.unit g)) :=
  ⟨load_importDoc, List.mem_cons_self, Options.check_default,
    connector_law load_importDoc List.mem_cons_self Options.check_default⟩

end YangDiagram.Diagram
