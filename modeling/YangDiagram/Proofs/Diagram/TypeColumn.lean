-- The type column: a group of siblings is drawn with the widest label among its members that
-- show a type, so each such row at level `k` starts its type at column `3 * k + 11` plus that
-- width.
import Mathlib
import YangDiagram.Proofs.Diagram.Keys

namespace YangDiagram.Diagram

open YangDiagram.Schema YangDiagram.Json

/-! ## The column a row's type starts at -/

/-- The label the row of node `n` should carry under the entries drawn above it: a leaf's is
`leafLabel`; no other label depends on where the row is drawn. -/
def shownLabel (env : Env) (above : List SchemaTree) (n : Node) : Text :=
  if n.kind = .leaf then leafLabel env above n else labelOf env n none {}

/-- The type column of a group of siblings drawn under the entries above it: the widest label
its members that show a type should carry. -/
def groupWidth (env : Env) (above : List SchemaTree) (g : List SchemaTree) : Nat :=
  (g.filterMap fun c =>
    (c.node.filter hasTypeColumn).map fun n => (shownLabel env above n).width).foldl max 0

/-- For a row whose node shows a type: the label it should carry and the column its type should
start at, `3 * k + 11` plus its group's type column. -/
def Trail.typeColumn? (env : Env) (tr : Trail) : Option (Text × Nat) :=
  match tr.getLast? with
  | some (g, i) =>
    ((g[i]?.bind (·.node)).filter hasTypeColumn).map fun n =>
      (shownLabel env tr.entries.dropLast n,
        3 * tr.connectors.length + 11 + groupWidth env tr.entries.dropLast g)
  | none => none

/-- What a line shows of a type column: with `some (label, c)` a row carrying `label` with its
type at column `c`, at least three blanks after it; with `none` no type. -/
def Line.ShowsType : Line → Option (Text × Nat) → Prop
  | .row _ _ r, some (label, c) =>
    r.label = label ∧ ∃ ty, r.type = some ty ∧
      ∃ pre gap post, r.text.units = pre ++ label.units ++ (Text.blanks gap).units ++ ty.units ++ post ∧
        pre.length + label.width + gap = c ∧ 3 ≤ gap
  | .row _ _ r, none => r.type = none
  | .heading _, v => v = none

/-! ## The layout of a row -/

theorem width_connectorText (flags : List Bool) :
    (connectorText flags).width = 3 * flags.length + 2 := by
  rw [Text.width, units_connectorText, List.length_append, length_flatMap_groupUnits]
  rfl

theorem units_blanks_gap (k : Nat) :
    (Text.blanks k).units ++ (Text.ofString "   ").units = (Text.blanks (k + 3)).units := by
  simp only [Text.blanks, List.replicate_add]
  rfl

/-- A row with two units of flags, no keys and a type whose label fits the column starts the
type `3 * k + 11` units plus the column in. -/
theorem Row.units_text_of_type {r : Row} {f ty : Text} (hf : r.flags = some f) (hfw : f.width = 2)
    (hk : r.keys = []) (hty : r.type = some ty) (hw : r.label.width ≤ r.typeColumn) :
    ∃ pre gap post, r.text.units = pre ++ r.label.units ++ (Text.blanks gap).units ++ ty.units ++ post ∧
      pre.length + r.label.width + gap = 3 * r.connectors.length + 11 + r.typeColumn ∧ 3 ≤ gap := by
  obtain ⟨g, -, hg⟩ := units_statusGlyph r.status
  obtain ⟨post, htext⟩ : ∃ post, r.text.units =
      (connectorText r.connectors ++ statusGlyph r.status ++ "--" ++ (f ++ " ")).units ++
        r.label.units ++ (Text.blanks (r.typeColumn - r.label.width + 3)).units ++ ty.units ++ post := by
    simp only [Row.text, hf, hk, hty, List.isEmpty_nil, if_true, Option.map_some, Option.getD_some,
      Text.units_append, List.append_assoc, ← units_blanks_gap]
    exact ⟨_, rfl⟩
  refine ⟨_, _, post, htext, ?_, by omega⟩
  · have hc := width_connectorText r.connectors
    simp only [Text.width] at hc hfw
    simp only [Text.units_append, List.length_append, hc, hg, hfw, Text.width]
    have h2 : (Text.ofString "--").units.length = 2 := rfl
    have h1 : (Text.ofString " ").units.length = 1 := rfl
    simp only [List.length_singleton, h2, h1, Text.width] at hw ⊢
    omega

theorem flagsFor_of_hasTypeColumn {n : Node} (hn : hasTypeColumn n = true) (role : Role) :
    ∃ f : Text, flagsFor n role = some f ∧ f.width = 2 := by
  have hk : n.kind ≠ .rpc ∧ n.kind ≠ .action ∧ n.kind ≠ .notification ∧ n.kind ≠ .case ∧
      n.kind ≠ .input ∧ n.kind ≠ .output := by
    cases n <;> simp_all [hasTypeColumn, Node.kind]
  obtain ⟨h1, h2, h3, h4, h5, h6⟩ := hk
  unfold flagsFor
  split
  · exact absurd ‹_› h1
  · exact absurd ‹_› h2
  · exact absurd ‹_› h3
  · exact absurd ‹_› h4
  · exact absurd ‹_› h5
  · exact absurd ‹_› h6
  · cases role
    · refine ⟨_, rfl, ?_⟩
      split <;> rfl
    · exact ⟨_, rfl, rfl⟩
    · exact ⟨_, rfl, rfl⟩

theorem typeOf_isSome (env : Env) (n : Node) : (typeOf env n).isSome = hasTypeColumn n := by
  cases n <;> rfl

/-- The row of a node that shows a type, in a group whose type column its label fits, carries its
label and starts its type `3 * k + 11` units plus the column in. -/
theorem showsType_row {env : Env} {n : Node} {pl : Place} {w : Nat} (hn : hasTypeColumn n = true)
    (hw : (labelOf env n pl.keys pl.suppressed).width ≤ w) :
    Line.ShowsType (.row n pl (rowOf env n pl w))
      (some (labelOf env n pl.keys pl.suppressed, 3 * pl.connectors.length + 11 + w)) := by
  obtain ⟨f, hf, hfw⟩ := flagsFor_of_hasTypeColumn hn pl.role
  obtain ⟨ty, hty⟩ := Option.isSome_iff_exists.mp ((typeOf_isSome env n).trans hn)
  have hk : (rowOf env n pl w).keys = [] := by
    cases n <;> simp_all [rowOf, hasTypeColumn, Node.kind]
  exact ⟨rfl, ty, hty, Row.units_text_of_type hf hfw hk hty hw⟩

theorem showsType_row_none {env : Env} {n : Node} {pl : Place} {w : Nat}
    (hn : hasTypeColumn n = false) : Line.ShowsType (.row n pl (rowOf env n pl w)) none := by
  simp only [Line.ShowsType, rowOf]
  cases n <;> simp_all [hasTypeColumn, typeOf, Node.kind]

/-! ## The type column of a group -/

theorem le_foldl_max {l : List Nat} {x : Nat} (h : x ∈ l) (a : Nat) : x ≤ l.foldl max a := by
  have hstart : ∀ (l : List Nat) (b : Nat), b ≤ l.foldl max b := by
    intro l
    induction l with
    | nil => exact fun b => Nat.le_refl b
    | cons y l ih => exact fun b => Nat.le_trans (Nat.le_max_left b y) (ih _)
  induction l generalizing a with
  | nil => cases h
  | cons y l ih =>
    rw [List.foldl_cons]
    rcases List.mem_cons.mp h with rfl | h
    · exact Nat.le_trans (Nat.le_max_right a x) (hstart l _)
    · exact ih h _

theorem width_le_groupWidth (env : Env) (above : List SchemaTree) {g : List SchemaTree}
    {c : SchemaTree} (hc : c ∈ g) {n : Node} (hn : c.node = some n) (ht : hasTypeColumn n = true) :
    (shownLabel env above n).width ≤ groupWidth env above g :=
  le_foldl_max (List.mem_filterMap.mpr ⟨c, hc, by simp [hn, Option.filter, ht]⟩) 0

/-- The type column drawn for a group is the one its members ask for, when each of them, drawn
at the group's place, carries the label it asks for. -/
theorem typeWidth_eq_groupWidth {env : Env} {above : List SchemaTree} {pl : Place} :
    ∀ {items : List SchemaTree}, (∀ c ∈ items, ∀ n, c.node = some n →
      labelOf env n pl.keys pl.suppressed = shownLabel env above n) →
    typeWidth env items pl = groupWidth env above items := by
  intro items h
  induction items using List.reverseRecOn with
  | nil => rfl
  | append_singleton items c ih =>
    have hc := h c (by simp)
    rw [typeWidth, List.foldl_concat, ← typeWidth, ih fun c' hc' => h c' (by simp [hc'])]
    simp only [groupWidth, List.filterMap_append, List.filterMap_cons, List.filterMap_nil,
      List.foldl_append]
    cases hn : c.node with
    | none => simp
    | some n =>
      dsimp only
      rw [hc n hn]
      by_cases ht : hasTypeColumn n = true <;> simp [Option.filter, ht]

/-- At a place that fits the entries above it, every row carries the label its trail asks for. -/
theorem labelOf_eq_shownLabel (env : Env) {above : List SchemaTree} {t : SchemaTree} {pl : Place}
    (hfits : pl.Fits above) (hchain : (above ++ [t]).IsChain SchemaTree.Extends) (ht : t.Chained)
    {n : Node} (hn : t.node = some n) :
    labelOf env n pl.keys pl.suppressed = shownLabel env above n := by
  by_cases hleaf : n.kind = .leaf
  · rw [shownLabel, if_pos hleaf, labelOf_of_fits env hfits hchain (ht.node_path hn) hleaf]
  · rw [shownLabel, if_neg hleaf]
    cases n <;> simp_all [labelOf, Node.kind]

/-! ## The rows of a drawing -/

theorem forall₂_flatMap {α β γ : Type} {R : β → γ → Prop} {f : α → List β} {g : α → List γ} :
    ∀ {xs : List α}, (∀ x ∈ xs, List.Forall₂ R (f x) (g x)) →
      List.Forall₂ R (xs.flatMap f) (xs.flatMap g)
  | [], _ => .nil
  | x :: xs, h => by
    simp only [List.flatMap_cons]
    exact List.rel_append (h x List.mem_cons_self)
      (forall₂_flatMap fun y hy => h y (List.mem_cons_of_mem _ hy))

theorem Trail.typeColumn?_concat (env : Env) (above : Trail) {g : List SchemaTree} {i : Nat}
    {t : SchemaTree} {n : Node} (hi : g[i]? = some t) (hn : t.node = some n) :
    Trail.typeColumn? env (above ++ [(g, i)]) =
      if hasTypeColumn n then
        some (shownLabel env above.entries n, 3 * above.length + 11 + groupWidth env above.entries g)
      else none := by
  simp only [Trail.typeColumn?, List.getLast?_concat, hi, Option.bind_some, hn,
    Trail.entries_concat above hi, List.dropLast_concat, Trail.connectors_snoc]
  by_cases ht : hasTypeColumn n = true <;> simp [Option.filter, ht, Trail.flags]

/-- The row an entry draws at a place that fits the entries of the trail above it shows its type
where its trail says, when the entry is drawn with its group's type column. -/
theorem showsType_row_of_fits (env : Env) {above : Trail} {g : List SchemaTree} {i : Nat}
    {t : SchemaTree} {pl : Place} (hi : g[i]? = some t) (ht : t.Chained) (hfits : pl.Fits above.entries)
    (hchain : (above.entries ++ [t]).IsChain SchemaTree.Extends) (hlen : pl.connectors.length = above.length)
    {n : Node} (hn : t.node = some n) (place : Place) (hkeys : place.keys = pl.keys)
    (hsup : place.suppressed = pl.suppressed) (hcon : place.connectors = pl.connectors) :
    Line.ShowsType (.row n place (rowOf env n place (groupWidth env above.entries g)))
      (Trail.typeColumn? env (above ++ [(g, i)])) := by
  have hlabel : labelOf env n place.keys place.suppressed = shownLabel env above.entries n := by
    rw [hkeys, hsup]
    exact labelOf_eq_shownLabel env hfits hchain ht hn
  rw [Trail.typeColumn?_concat env above hi hn]
  by_cases htc : hasTypeColumn n = true
  · rw [if_pos htc, ← hlabel, ← hlen, ← hcon]
    refine showsType_row htc ?_
    rw [hlabel]
    exact width_le_groupWidth env _ (List.mem_of_getElem? hi) hn htc
  · rw [if_neg htc]
    exact showsType_row_none (by simpa using htc)

/-- The rows an entry draws with a budget of at least one, at a place that fits the entries of the
trail above it and with the type column of its group, show their types where their trails say. -/
theorem drawTree_typeColumns (env : Env) : ∀ (b : Nat) (above : Trail) (g : List SchemaTree)
    (i : Nat) (t : SchemaTree) (pl : Place), t.Sound → t.Chained → g[i]? = some t →
    pl.budget = b + 1 → pl.connectors.length = above.length → pl.Fits above.entries →
    (above.entries ++ [t]).IsChain SchemaTree.Extends →
    List.Forall₂ Line.ShowsType
      (drawTree env pl (groupWidth env above.entries g) (decide (i + 1 < g.length)) t)
      (((above ++ [(g, i)]) :: trails env b (above ++ [(g, i)]) (shownChildren env t)).map
        (Trail.typeColumn? env)) := by
  intro b
  induction b with
  | zero =>
    intro above g i t pl hs hc hi hb hlen hfits hchain
    obtain ⟨n, hn⟩ : ∃ n, t.node = some n := by cases hs with | intro h => exact ⟨_, h⟩
    rw [drawTree_of_node hn]
    dsimp only
    rw [if_pos (show pl.budget ≤ 1 by omega), trails, List.map_singleton]
    exact .cons (showsType_row_of_fits env hi hc hfits hchain hlen hn _ rfl rfl rfl) .nil
  | succ b ih =>
    intro above g i t pl hs hc hi hb hlen hfits hchain
    obtain ⟨n, hn⟩ : ∃ n, t.node = some n := by cases hs with | intro h => exact ⟨_, h⟩
    rw [drawTree_of_node hn]
    dsimp only
    rw [if_neg (show ¬pl.budget ≤ 1 by omega), List.map_cons]
    refine .cons (showsType_row_of_fits env hi hc hfits hchain hlen hn _ rfl rfl rfl) ?_
    simp only [hb, childPlan_fst hs hn]
    set below : Place := ⟨pl.connectors ++ [decide (i + 1 < g.length)], b + 1 + 1 - 1,
      if n.kind = .case then pl.suppressed.acquire (t.path.length - 1) else pl.suppressed,
      roleOf n pl.role, pl.keys⟩
    have hfits' : ∀ c ∈ shownChildren env t,
        (childPlan env t n below).2.Fits (above.entries ++ [t]) :=
      fun c hc' => hfits.childPlan hn rfl rfl hs hc'
    have hchain' : ∀ c ∈ shownChildren env t,
        (above.entries ++ [t] ++ [c]).IsChain SchemaTree.Extends ∧ c.Chained := by
      intro c hc'
      have hct := hc.child (mem_childTrees_of_mem_shownChildren hc')
      refine ⟨hchain.append (.singleton c) fun x hx y hy => ?_, hct.2⟩
      rw [List.getLast?_concat, Option.mem_some_iff] at hx
      rw [List.head?_cons, Option.mem_some_iff] at hy
      exact hx ▸ hy ▸ hct.1
    have hwidth : typeWidth env (shownChildren env t) (childPlan env t n below).2 =
        groupWidth env (Trail.entries (above ++ [(g, i)])) (shownChildren env t) := by
      rw [Trail.entries_concat above hi]
      refine typeWidth_eq_groupWidth fun c hc' m hm => ?_
      obtain ⟨hch, hcc⟩ := hchain' c hc'
      exact labelOf_eq_shownLabel env (hfits' c hc') hch hcc hm
    rw [hwidth, trails, List.map_flatMap]
    refine forall₂_flatMap fun p hp => ?_
    obtain ⟨c, j⟩ := p
    have hj := List.mem_zipIdx_iff_getElem?.mp hp
    have hcm := List.mem_of_getElem? hj
    have hct : c ∈ t.childTrees := mem_childTrees_of_mem_shownChildren hcm
    refine ih _ _ j c _ (hs.child hct) (hchain' c hcm).2 hj (by simp [below]) ?_ ?_ ?_
    · simp [below, hlen]
    · rw [Trail.entries_concat above hi]
      exact hfits' c hcm
    · rw [Trail.entries_concat above hi]
      exact (hchain' c hcm).1

/-- The rows a list of sound, chained entries draws at the margin with a budget of at least one
show their types where their trails say. -/
theorem drawEntries_typeColumns {env : Env} {role : Role} {D : Nat} {g : List SchemaTree}
    (hg : ∀ t ∈ g, t.Sound ∧ t.Chained) (hD : 0 < D) :
    List.Forall₂ Line.ShowsType (drawEntries env role D g)
      ((trails env D [] g).map (Trail.typeColumn? env)) := by
  obtain ⟨b, rfl⟩ : ∃ b, D = b + 1 := ⟨D - 1, by omega⟩
  have hitems : g.filter (·.node.isSome) = g := List.filter_eq_self.mpr fun t ht => by
    cases (hg t ht).1 with
    | intro hn => simp [hn]
  have hwidth : typeWidth env g ⟨[], b + 1, {}, role, none⟩ = groupWidth env [] g := by
    refine typeWidth_eq_groupWidth fun c hc n hn => ?_
    exact labelOf_eq_shownLabel env (Place.fits_margin [] (b + 1) role) (by simp) (hg c hc).2 hn
  simp only [drawEntries, hitems, hwidth, trails, List.map_flatMap]
  refine forall₂_flatMap fun p hp => ?_
  obtain ⟨t, i⟩ := p
  have hi := List.mem_zipIdx_iff_getElem?.mp hp
  obtain ⟨hs, hc⟩ := hg t (List.mem_of_getElem? hi)
  exact drawTree_typeColumns env b [] g i t _ hs hc hi rfl rfl (Place.fits_margin _ _ _)
    (by simp [Trail.entries])

/-- Type-column alignment: every row of a group of siblings that shows a type carries its trail's
label and starts its type at column `3 * k + 11 + W`, `W` the group's widest such label. -/
theorem type_column_aligned {doc : Value} {ctx : Context} (hload : Context.load doc = .ok ctx)
    {m : Module} (hm : m ∈ ctx.modules) {opts : Options} {s : Settings}
    (hs : opts.check = .ok s) :
    let env := Env.ofModule ctx m s
    List.Forall₂ Line.ShowsType (moduleLines ctx ctx.schemaTree m s)
      ((sections env ctx.schemaTree m).flatMap fun sec =>
        none :: (trails env s.budget [] sec.entries).map (Trail.typeColumn? env)) := by
  intro env
  have hsec := sound_chained_of_mem_sections hload hm env
  rw [moduleLines_eq_sections]
  refine forall₂_flatMap fun sec hsec' => ?_
  exact .cons rfl (drawEntries_typeColumns (hsec sec hsec') (Options.budget_pos_of_check hs))

open ImportSample in
theorem type_column_aligned_acModule :
    Context.load importDoc = .ok ⟨[acModule, bModule]⟩ ∧ acModule ∈ [acModule, bModule] ∧
      ({} : Options).check = .ok ⟨{}, unbounded, unbounded⟩ ∧
      let ctx : Context := ⟨[acModule, bModule]⟩
      let s : Settings := ⟨{}, unbounded, unbounded⟩
      let env := Env.ofModule ctx acModule s
      List.Forall₂ Line.ShowsType (moduleLines ctx ctx.schemaTree acModule s)
        ((sections env ctx.schemaTree acModule).flatMap fun sec =>
          none :: (trails env s.budget [] sec.entries).map (Trail.typeColumn? env)) :=
  ⟨load_importDoc, List.mem_cons_self, Options.check_default,
    type_column_aligned load_importDoc List.mem_cons_self Options.check_default⟩

end YangDiagram.Diagram
