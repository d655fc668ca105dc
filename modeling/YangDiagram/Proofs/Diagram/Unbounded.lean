-- A bound of zero stands for 10000: each line is cut to its first 10000 units and each entry is
-- drawn 10000 levels deep, which is all of it below that height, since the budget only decides
-- where a drawing stops.
import Mathlib
import YangDiagram.Proofs.Diagram.Layout
import YangDiagram.Proofs.Diagram.Clip
import YangDiagram.Proofs.Diagram.Passes

namespace YangDiagram.Schema

/-- The levels below an entry: none for an entry without children, else one more than the most
below any child. -/
def SchemaTree.height (t : SchemaTree) : Nat :=
  (t.childTrees.attach.map fun c => c.1.height + 1).foldr max 0
termination_by sizeOf t
decreasing_by exact SchemaTree.sizeOf_lt_of_mem_childTrees c.2

theorem SchemaTree.height_lt_of_mem {t c : SchemaTree} (h : c ∈ t.childTrees) :
    c.height < t.height := by
  have hmem : c.height + 1 ∈ t.childTrees.attach.map fun c => c.1.height + 1 :=
    List.mem_map.mpr ⟨⟨c, h⟩, List.mem_attach _ _, rfl⟩
  conv_rhs => rw [SchemaTree.height]
  exact List.le_max_of_le hmem le_rfl

theorem SchemaTree.childTrees_eq_nil_of_height {t : SchemaTree} (h : t.height = 0) :
    t.childTrees = [] :=
  List.eq_nil_iff_forall_not_mem.mpr fun c hc => by
    have := SchemaTree.height_lt_of_mem hc
    omega

end YangDiagram.Schema

namespace YangDiagram.Diagram

open YangDiagram.Schema YangDiagram.Json

/-! ## The budget only decides where a drawing stops -/

/-- Places that differ in their depth budget only. -/
structure Place.Alike (p q : Place) : Prop where
  connectors : p.connectors = q.connectors
  suppressed : p.suppressed = q.suppressed
  role : p.role = q.role
  keys : p.keys = q.keys

section Alike

variable {p q : Place}

theorem rowOf_of_alike (h : p.Alike q) (env : Env) (n : Node) (w : Nat) :
    rowOf env n p w = rowOf env n q w := by
  simp only [rowOf, h.connectors, h.suppressed, h.role, h.keys]

theorem typeWidth_of_alike (h : p.Alike q) (env : Env) (items : List SchemaTree) :
    typeWidth env items p = typeWidth env items q := by
  simp only [typeWidth, h.suppressed, h.keys]

/-- The children an entry draws do not depend on the budget, and neither does their place but
for its budget. -/
theorem childPlan_of_alike (h : p.Alike q) (env : Env) (t : SchemaTree) (n : Node) :
    (childPlan env t n p).1 = (childPlan env t n q).1 ∧
      (childPlan env t n p).2.Alike (childPlan env t n q).2 := by
  refine ⟨by cases n <;> rfl, ?_⟩
  cases n <;> exact ⟨by simp [childPlan, h.connectors], by simp [childPlan, h.suppressed],
    by simp [childPlan, h.role], by simp [childPlan, h.keys]⟩

end Alike

theorem childPlan_fst_eq_nil {env : Env} {t : SchemaTree} {n : Node} {pl : Place}
    (h : t.childTrees = []) : (childPlan env t n pl).1 = [] :=
  List.eq_nil_iff_forall_not_mem.mpr fun c hc => by
    simpa [h] using mem_childTrees_of_mem_childPlan hc

/-- An entry drawn at two places that differ only in budgets above its height gives lines of the
same text. -/
theorem texts_drawTree_of_alike (env : Env) (w : Nat) (more : Bool) (t : SchemaTree)
    {p q : Place} (hpq : p.Alike q) (hp : t.height < p.budget) (hq : t.height < q.budget) :
    (drawTree env p w more t).map Line.text = (drawTree env q w more t).map Line.text := by
  cases hn : t.node with
  | none => simp [drawTree, hn]
  | some n =>
    rw [drawTree_of_node hn, drawTree_of_node hn]
    have hplace : ({ p with role := roleOf n p.role } : Place).Alike
        { q with role := roleOf n q.role } :=
      ⟨hpq.connectors, hpq.suppressed, by simp [hpq.role], hpq.keys⟩
    simp only [List.map_cons, Line.text, rowOf_of_alike hplace]
    congr 1
    by_cases hleaf : t.height = 0
    · have hnil := SchemaTree.childTrees_eq_nil_of_height hleaf
      split <;> split <;> simp [childPlan_fst_eq_nil hnil]
    · rw [if_neg (show ¬p.budget ≤ 1 by omega), if_neg (show ¬q.budget ≤ 1 by omega)]
      have hbelow : (Place.mk (p.connectors ++ [more]) (p.budget - 1)
            (if n.kind = .case then p.suppressed.acquire (t.path.length - 1) else p.suppressed)
            (roleOf n p.role) p.keys).Alike
          (Place.mk (q.connectors ++ [more]) (q.budget - 1)
            (if n.kind = .case then q.suppressed.acquire (t.path.length - 1) else q.suppressed)
            (roleOf n q.role) q.keys) :=
        ⟨by simp [hpq.connectors], by simp [hpq.suppressed], by simp [hpq.role], hpq.keys⟩
      obtain ⟨hitems, hplan⟩ := childPlan_of_alike hbelow env t n
      simp only [hitems, typeWidth_of_alike hplan, List.map_flatMap]
      apply List.flatMap_congr
      intro x hx
      obtain ⟨c, i⟩ := x
      have hc : c ∈ t.childTrees :=
        mem_childTrees_of_mem_childPlan (List.fst_mem_of_mem_zipIdx hx)
      have hlow := SchemaTree.height_lt_of_mem hc
      exact texts_drawTree_of_alike env _ _ c hplan (by simp; omega) (by simp; omega)
termination_by sizeOf t
decreasing_by exact SchemaTree.sizeOf_lt_of_mem_childTrees hc

theorem texts_drawEntries_of_height_lt (env : Env) (role : Role) {b₁ b₂ : Nat}
    (trees : List SchemaTree) (h₁ : ∀ t ∈ trees, t.height < b₁)
    (h₂ : ∀ t ∈ trees, t.height < b₂) :
    (drawEntries env role b₁ trees).map Line.text =
      (drawEntries env role b₂ trees).map Line.text := by
  have hpl : (⟨[], b₁, {}, role, none⟩ : Place).Alike ⟨[], b₂, {}, role, none⟩ :=
    ⟨rfl, rfl, rfl, rfl⟩
  simp only [drawEntries, typeWidth_of_alike hpl, List.map_flatMap]
  apply List.flatMap_congr
  intro x hx
  obtain ⟨t, i⟩ := x
  have ht : t ∈ trees := (List.mem_filter.mp (List.fst_mem_of_mem_zipIdx hx)).1
  exact texts_drawTree_of_alike env _ _ t hpl (h₁ t ht) (h₂ t ht)

/-- Settings that agree in all but the depth draw a module alike when both depths are above the
height of each of its entries. -/
theorem diagramLines_of_height_lt (ctx : Context) (tree : SchemaTree) (m : Module)
    {s₁ s₂ : Settings} (hby : s₁.byModuleName = s₂.byModuleName)
    (hown : s₁.prefixOwn = s₂.prefixOwn) (hwidth : s₁.width = s₂.width)
    (h₁ : ∀ sec ∈ sections (Env.ofModule ctx m s₁) tree m, ∀ t ∈ sec.entries,
      t.height < s₁.budget)
    (h₂ : ∀ sec ∈ sections (Env.ofModule ctx m s₁) tree m, ∀ t ∈ sec.entries,
      t.height < s₂.budget) :
    diagramLines ctx tree m s₁ = diagramLines ctx tree m s₂ := by
  have henv : Env.ofModule ctx m s₁ = Env.ofModule ctx m s₂ := by simp [Env.ofModule, hby, hown]
  have htexts :
      (moduleLines ctx tree m s₁).map Line.text =
        (moduleLines ctx tree m s₂).map Line.text := by
    rw [moduleLines_eq_sections, moduleLines_eq_sections, ← henv, List.map_flatMap,
      List.map_flatMap]
    apply List.flatMap_congr
    intro sec hsec
    simp only [Section.lines, List.map_cons]
    rw [texts_drawEntries_of_height_lt _ _ _ (h₁ sec hsec) (h₂ sec hsec)]
  have hclip : diagramLines ctx tree m s₁ =
      ((moduleLines ctx tree m s₁).map Line.text).map (Text.clip s₁.width) := by
    simp [diagramLines]
  rw [hclip, htexts, hwidth]
  simp [diagramLines]

/-! ## Checked bounds of zero -/

theorem count?_zero : count? (.num 0) = some 0 := by
  have hwhole : isWhole 0 = true := by decide +kernel
  have hnonneg : ¬ ((0 : Float) < 0) := by decide +kernel
  simp [count?, hwhole, hnonneg]

theorem countNat_effective_zero : countNat (effective 0) = 10000 := by
  have hzero : ((0 : Float) == 0) = true := by decide +kernel
  simp [effective, hzero, countNat_unbounded]

theorem Options.width_of_check {o : Options} {s : Settings} (hs : o.check = .ok s)
    (hl : o.lineLength = .num 0) : s.width = 10000 := by
  unfold Options.check at hs
  rw [hl, count?_zero] at hs
  split at hs
  · cases hs
  · cases hs
    exact countNat_effective_zero

theorem Options.budget_of_check {o : Options} {s : Settings} (hs : o.check = .ok s)
    (hd : o.depth = .num 0) : s.budget = 10000 := by
  unfold Options.check at hs
  rw [hd, count?_zero] at hs
  dsimp only at hs
  split at hs
  · cases hs
  · cases hs
    exact countNat_effective_zero

theorem check_depth {o : Options} {d : Value} {s₁ s₂ : Settings} (h₁ : o.check = .ok s₁)
    (h₂ : { o with depth := d }.check = .ok s₂) :
    s₁.byModuleName = s₂.byModuleName ∧ s₁.prefixOwn = s₂.prefixOwn ∧
      s₁.width = s₂.width := by
  unfold Options.check at h₁ h₂
  split at h₁
  · cases h₁
  · split at h₁
    · cases h₁
    · rename_i l hl
      cases h₁
      split at h₂
      · cases h₂
      · simp only [hl] at h₂
        cases h₂
        exact ⟨rfl, rfl, rfl⟩

/-- A bound of zero stands for ten thousand: line length 0 cuts each line to 10000 code units,
and depth 0 draws each entry whole when its height is below 10000. -/
theorem zero_bound_is_ten_thousand (ctx : Context) (M : Module) {o : Options} {s : Settings}
    (hs : o.check = .ok s) :
    (o.lineLength = .num 0 → diagramLines ctx ctx.schemaTree M s =
        (moduleLines ctx ctx.schemaTree M s).map fun l => Text.clip 10000 l.text) ∧
      (o.depth = .num 0 → ∀ (d : Value) (s' : Settings),
        { o with depth := d }.check = .ok s' →
        (∀ sec ∈ sections (Env.ofModule ctx M s) ctx.schemaTree M, ∀ t ∈ sec.entries,
          t.height < s'.budget ∧ t.height < 10000) →
        diagramLines ctx ctx.schemaTree M s = diagramLines ctx ctx.schemaTree M s') := by
  refine ⟨fun hl => ?_, fun hd d s' hs' hheight => ?_⟩
  · rw [diagramLines, Options.width_of_check hs hl]
  · obtain ⟨hby, hown, hwidth⟩ := check_depth hs hs'
    have hbudget := Options.budget_of_check hs hd
    exact diagramLines_of_height_lt ctx ctx.schemaTree M hby hown hwidth
      (fun sec hsec t ht => hbudget ▸ (hheight sec hsec t ht).2)
      (fun sec hsec t ht => (hheight sec hsec t ht).1)

/-! ## A header longer than the bound

A module statement named `N`, with prefix `a`, namespace `urn:a` and no nodes, loads whenever `N`
is an identifier, and its diagram is its header alone. A name of 10001 letters makes that header
longer than the bound, so with line length 0 it is cut. -/

theorem decodeUnits_replicate {u : UInt16} (hu : u.toNat < 0xD800) (n : Nat) :
    Text.decodeUnits (List.replicate n u) = List.replicate n (.char (Char.ofNat u.toNat)) := by
  have hhigh : Text.isHigh u = false := by simp [Text.isHigh]; omega
  have hlow : Text.isLow u = false := by simp [Text.isLow]; omega
  induction n with
  | zero => rfl
  | succ n ih =>
    cases n with
    | zero => simp [Text.decodeUnits, hhigh, hlow]
    | succ m =>
      have hstep : Text.decodeUnits (u :: u :: List.replicate m u) =
          .char (Char.ofNat u.toNat) :: Text.decodeUnits (u :: List.replicate m u) := by
        simp [Text.decodeUnits, hhigh, hlow]
      rw [List.replicate_succ, List.replicate_succ, hstep, ← List.replicate_succ, ih]
      rfl

theorem chars_replicate {u : UInt16} (hu : u.toNat < 0xD800) (n : Nat) :
    Text.chars ⟨List.replicate n u⟩ = List.replicate n (Char.ofNat u.toNat) := by
  simp [Text.chars, Text.pieces, decodeUnits_replicate hu]

theorem isIdentifier_replicate (n : Nat) :
    Document.Pattern.isIdentifier (Text.chars ⟨List.replicate (n + 1) (Text.unit 'a')⟩) =
      true := by
  have hchar : Char.ofNat (Text.unit 'a').toNat = 'a' := by decide
  rw [chars_replicate (by decide), hchar]
  simp [Document.Pattern.isIdentifier, List.replicate_succ, Document.Pattern.identStart,
    Document.Pattern.identChar]

theorem width_header_replicate (n : Nat) (u : UInt16) :
    ("module: " ++ (⟨List.replicate n u⟩ : Text)).width = n + 8 := by
  have hhead : (Text.ofString "module: ").units.length = 8 := by decide
  simp [Text.width, hhead, Nat.add_comm]

namespace LongName

/-- A module statement named `N`, with prefix `a`, namespace `urn:a` and no nodes. -/
def namedDoc (N : Text) : Value :=
  .obj [("modules", .arr [.obj [("name", .str N), ("prefix", .str "a"),
    ("namespace", .str "urn:a")]])]

def namedModule (N : Text) : Module :=
  { name := N, prefixName := "a", namespaceUri := "urn:a", revision := none,
    imports := [("a", N)], features := [], dataNodes := [], rpcs := [], notifications := [],
    augments := [] }

/-- A name of 10001 letters `a`. -/
def longName : Text := ⟨List.replicate 10001 (Text.unit 'a')⟩

theorem load_namedDoc {N : Text} (hN : Document.Pattern.isIdentifier N.chars = true) :
    Context.load (namedDoc N) = .ok ⟨[namedModule N]⟩ := by
  have hcheck : Document.check (namedDoc N) = none := by
    simp +decide [Document.check, Document.checkRule, Document.checkMembers, namedDoc,
      Document.Shape.rule, Document.Rule.many, Document.Rule.anyText, Members.find?,
      List.findSome?_cons, List.attach_cons, List.zipIdx_cons, Document.atLeast,
      Document.Pattern.accepts, hN]
  simp only [Context.load, hcheck]
  simp +decide [namedDoc, Value.itemsAt, namespacesOf, buildModule, namedModule,
    Scope.ofStatement, Value.get?, Value.textAt?, Value.text?, Value.textsAt, Members.find?,
    List.zipIdx_cons, List.mapM_cons, applyAugments, augmentsOf, bind, Except.bind, pure,
    Except.pure]

theorem renderModule_namedDoc (N : Text) :
    renderModule ⟨[namedModule N]⟩ (Source.ofText N none) { lineLength := .num 0 } =
      .ok [Text.clip 10000 ("module: " ++ N)] := by
  rw [renderModule_of_check Options.check_default]
  simp [Source.find, Source.lookup, Source.ofText, Context.findModule, firstLatest, namedModule,
    Except.map, diagramLines, moduleLines, Context.schemaTree, drawEntries, ownTrees, groupsOf,
    SchemaTree.childTrees, SchemaTree.children, Line.text, Settings.width, countNat_unbounded]

end LongName

open LongName in
/-- The module with the 10001-letter name, drawn with the default options, whose bounds are
0, is the input the bound stands behind. -/
theorem zero_bound_is_ten_thousand_longName :
    ({ lineLength := .num 0 } : Options).check = .ok ⟨{}, unbounded, unbounded⟩ ∧
      let ctx : Context := ⟨[namedModule longName]⟩
      let M := namedModule longName
      let s : Settings := ⟨{}, unbounded, unbounded⟩
      (({ lineLength := .num 0 } : Options).lineLength = .num 0 →
        diagramLines ctx ctx.schemaTree M s =
          (moduleLines ctx ctx.schemaTree M s).map fun l => Text.clip 10000 l.text) ∧
      (({ lineLength := .num 0 } : Options).depth = .num 0 → ∀ (d : Value) (s' : Settings),
        { ({ lineLength := .num 0 } : Options) with depth := d }.check = .ok s' →
        (∀ sec ∈ sections (Env.ofModule ctx M s) ctx.schemaTree M, ∀ t ∈ sec.entries,
          t.height < s'.budget ∧ t.height < 10000) →
        diagramLines ctx ctx.schemaTree M s = diagramLines ctx ctx.schemaTree M s') :=
  ⟨Options.check_default, zero_bound_is_ten_thousand _ _ Options.check_default⟩

open LongName in
/-- With line length 0, the header of a module named with 10001 letters is not given in full:
it loads, and its diagram is its header cut to 10000 code units, shorter than the header. -/
theorem long_module_header_cut :
    Context.load (namedDoc longName) = .ok ⟨[namedModule longName]⟩ ∧
      renderModule ⟨[namedModule longName]⟩ (Source.ofText longName none)
          { lineLength := .num 0 } = .ok [Text.clip 10000 ("module: " ++ longName)] ∧
      (Text.clip 10000 ("module: " ++ longName)).width < ("module: " ++ longName).width := by
  refine ⟨load_namedDoc (isIdentifier_replicate 10000), renderModule_namedDoc longName, ?_⟩
  have hclip := Text.width_clip_le 10000 ("module: " ++ longName)
  have hfull : ("module: " ++ longName).width = 10001 + 8 := width_header_replicate 10001 _
  omega

end YangDiagram.Diagram
