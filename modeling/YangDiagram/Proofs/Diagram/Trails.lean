-- The trails of a drawing: the group of siblings and the index taken at each level from an entry
-- down to a row. The rows of `drawTree` are, one for one, the ends of the reached trails.
import Mathlib
import YangDiagram.Diagram.Walk
import YangDiagram.Proofs.Schema.Placed

namespace YangDiagram.Diagram

open YangDiagram.Schema

/-- The children an entry shows: its own module's data children, then its own module's actions;
for an rpc or an action, the input and output that have own data children. -/
def shownChildren (env : Env) (t : SchemaTree) : List SchemaTree :=
  let own := ownTrees env.module.namespaceUri
  match t.kind? with
  | some .rpc | some .action => t.dataChildren.filter fun b => !(own b.dataChildren).isEmpty
  | _ => own t.dataChildren ++ own t.actionChildren

theorem mem_childTrees_of_mem_shownChildren {env : Env} {t c : SchemaTree}
    (h : c ∈ shownChildren env t) : c ∈ t.childTrees := by
  unfold shownChildren at h
  split at h
  · exact SchemaTree.mem_of_mem_dataChildren (List.mem_filter.mp h).1
  · exact SchemaTree.mem_of_mem_dataChildren (List.mem_filter.mp h).1
  · rcases List.mem_append.mp h with h | h
    · exact SchemaTree.mem_of_mem_dataChildren (mem_of_mem_ownTrees h)
    · exact SchemaTree.mem_of_mem_actionChildren (mem_of_mem_ownTrees h)

theorem childPlan_fst {env : Env} {t : SchemaTree} {n : Node} {pl : Place} (ht : t.Sound)
    (hn : t.node = some n) : (childPlan env t n pl).1 = shownChildren env t := by
  cases ht with
  | intro hnode under empty _ =>
    rw [hnode] at hn
    cases hn
    have hkind : t.kind? = some n.kind := by simp [SchemaTree.kind?, hnode]
    unfold childPlan shownChildren
    rw [hkind]
    have hnone : t.childTrees = [] → t.dataChildren = [] ∧ t.actionChildren = [] := fun h => by
      simp [SchemaTree.dataChildren, SchemaTree.actionChildren, h]
    cases n <;> simp only [ownTrees, List.filter_append, Node.kind]
    case choice => simp [under (Or.inl rfl)]
    case case => simp [under (Or.inr rfl)]
    all_goals simp [hnone (empty rfl)]

/-- Where a row stands: for each level from an entry down to the row, the group of siblings
drawn there and the index of the one drawn. -/
abbrev Trail := List (List SchemaTree × Nat)

namespace Trail

def tree? (tr : Trail) : Option SchemaTree := tr.getLast?.bind fun (g, i) => g[i]?

/-- For each step of a trail, whether a later sibling follows in its group. -/
def flags (tr : Trail) : List Bool := tr.map fun (g, i) => decide (i + 1 < g.length)

/-- The connector flags of the row at the end of a trail: those of the steps above it. -/
def connectors (tr : Trail) : List Bool := flags tr.dropLast

def shape (tr : Trail) : Option Node × List Bool := (tr.tree?.bind (·.node), tr.connectors)

@[simp] theorem flags_append (a b : Trail) : flags (a ++ b) = flags a ++ flags b := by
  simp [flags]

@[simp] theorem connectors_snoc (tr : Trail) (x : List SchemaTree × Nat) :
    connectors (tr ++ [x]) = flags tr := by
  simp [connectors]

@[simp] theorem tree?_snoc (tr : Trail) (g : List SchemaTree) (i : Nat) :
    tree? (tr ++ [(g, i)]) = g[i]? := by
  simp [tree?]

theorem tree?_cons_of_ne_nil (x : List SchemaTree × Nat) {rest : Trail} (h : rest ≠ []) :
    tree? (x :: rest) = tree? rest := by
  obtain ⟨y, ys, rfl⟩ := List.exists_cons_of_ne_nil h
  simp [tree?, List.getLast?_cons_cons]

end Trail

def Line.shape : Line → Option Node × List Bool
  | .heading _ => (none, [])
  | .row n place _ => (some n, place.connectors)

/-- The trails of the rows a group of siblings draws with a budget, below a trail: each
sibling's own row, then while the budget lasts the rows of the children it shows. -/
def trails (env : Env) : Nat → Trail → List SchemaTree → List Trail
  | 0, _, _ => []
  | b + 1, above, g => g.zipIdx.flatMap fun (t, i) =>
    (above ++ [(g, i)]) :: trails env b (above ++ [(g, i)]) (shownChildren env t)

theorem trails_nil (env : Env) (b : Nat) (above : Trail) : trails env b above [] = [] := by
  cases b <;> rfl

theorem trails_singleton (env : Env) (b : Nat) (above : Trail) (t : SchemaTree) :
    trails env (b + 1) above [t] =
      (above ++ [([t], 0)]) :: trails env b (above ++ [([t], 0)]) (shownChildren env t) := by
  simp [trails]

theorem flatMap_attach_zipIdx {α β : Type} (l : List α) (f : α → Nat → List β) :
    (l.attach.zipIdx.flatMap fun p => f p.1.1 p.2) = l.zipIdx.flatMap fun p => f p.1 p.2 := by
  have h : l.zipIdx = l.attach.zipIdx.map (Prod.map Subtype.val id) := by
    rw [← List.zipIdx_map, List.attach_map_subtype_val]
  rw [h, List.flatMap_map]
  rfl

/-- The rows of an entry with a node: its own row, then, while the budget allows, the rows of
the children its node draws, at the place below with the type column of their group. -/
theorem drawTree_of_node {env : Env} {pl : Place} {w : Nat} {more : Bool} {t : SchemaTree}
    {n : Node} (hn : t.node = some n) :
    drawTree env pl w more t =
      let place := { pl with role := roleOf n pl.role }
      Line.row n place (rowOf env n place w) ::
        if pl.budget ≤ 1 then []
        else
          let below : Place :=
            { place with connectors := pl.connectors ++ [more], budget := pl.budget - 1,
                         suppressed := if n.kind = .case then
                           pl.suppressed.acquire (t.path.length - 1 : Nat) else pl.suppressed }
          let plan := childPlan env t n below
          plan.1.zipIdx.flatMap fun (c, i) =>
            drawTree env plan.2 (typeWidth env plan.1 plan.2) (decide (i + 1 < plan.1.length)) c := by
  rw [drawTree]
  simp only [hn]
  split
  · rfl
  · generalize childPlan env t n _ = plan
    exact congrArg _ (flatMap_attach_zipIdx plan.1 fun c j =>
      drawTree env plan.2 (typeWidth env plan.1 plan.2) (decide (j + 1 < plan.1.length)) c)

@[simp] theorem childPlan_snd_connectors (env : Env) (t : SchemaTree) (n : Node) (pl : Place) :
    (childPlan env t n pl).2.connectors = pl.connectors := by
  unfold childPlan
  split <;> rfl

@[simp] theorem childPlan_snd_budget (env : Env) (t : SchemaTree) (n : Node) (pl : Place) :
    (childPlan env t n pl).2.budget = pl.budget := by
  unfold childPlan
  split <;> rfl

/-- The rows an entry draws with a budget of at least one, at a place under the flags of the
trail above it, are the ends of the trails it starts. -/
theorem drawTree_shape (env : Env) : ∀ (b : Nat) (above : Trail) (g : List SchemaTree) (i : Nat)
    (t : SchemaTree) (pl : Place) (w : Nat), t.Sound → g[i]? = some t → pl.budget = b + 1 →
    pl.connectors = above.flags →
    (drawTree env pl w (decide (i + 1 < g.length)) t).map Line.shape =
      ((above ++ [(g, i)]) :: trails env b (above ++ [(g, i)]) (shownChildren env t)).map
        Trail.shape := by
  intro b
  induction b with
  | zero =>
    intro above g i t pl w ht hi hb hc
    obtain ⟨n, hn⟩ : ∃ n, t.node = some n := by cases ht with | intro h => exact ⟨_, h⟩
    simp [drawTree_of_node hn, hb, hc, trails, Line.shape, Trail.shape, hi, hn]
  | succ b ih =>
    intro above g i t pl w ht hi hb hc
    obtain ⟨n, hn⟩ : ∃ n, t.node = some n := by cases ht with | intro h => exact ⟨_, h⟩
    rw [drawTree_of_node hn]
    simp only [hb, childPlan_fst ht hn]
    rw [if_neg (by omega), List.map_cons, List.map_cons]
    congr 1
    · simp [Line.shape, Trail.shape, hi, hn, hc]
    rw [trails, List.map_flatMap, List.map_flatMap]
    refine List.flatMap_congr fun ⟨c, j⟩ hcj => ?_
    have hj := List.mem_zipIdx_iff_getElem?.mp hcj
    exact ih _ _ j c _ _ (ht.child (mem_childTrees_of_mem_shownChildren (List.mem_of_getElem? hj)))
      hj (by simp) (by simp [hc, Trail.flags])

/-- The rows a list of sound entries draws at the left margin with a budget of at least one are
the ends of the trails of the group. -/
theorem drawEntries_shape {env : Env} {role : Role} {D : Nat} {g : List SchemaTree}
    (hg : ∀ t ∈ g, t.Sound) (hD : 0 < D) :
    (drawEntries env role D g).map Line.shape = (trails env D [] g).map Trail.shape := by
  obtain ⟨b, rfl⟩ : ∃ b, D = b + 1 := ⟨D - 1, by omega⟩
  have hitems : g.filter (·.node.isSome) = g := List.filter_eq_self.mpr fun t ht => by
    cases hg t ht with
    | intro hn => simp [hn]
  simp only [drawEntries, hitems, trails, List.map_flatMap]
  refine List.flatMap_congr fun ⟨t, i⟩ hti => ?_
  have hi := List.mem_zipIdx_iff_getElem?.mp hti
  exact drawTree_shape env b [] g i t _ _ (hg t (List.mem_of_getElem? hi)) hi rfl rfl

/-- A trail from a group: its first step is an entry of the group, and each later step one of
the children the entry of the step before shows. -/
def Linked (env : Env) (g : List SchemaTree) : Trail → Prop
  | [] => False
  | (g', i) :: rest =>
    g' = g ∧ ∃ t, g[i]? = some t ∧ (rest = [] ∨ Linked env (shownChildren env t) rest)

/-- The trails a group draws below a trail are those that continue it by a linked trail no
longer than the budget. -/
theorem mem_trails_iff_linked (env : Env) : ∀ (b : Nat) (above : Trail) (g : List SchemaTree)
    (tr : Trail), tr ∈ trails env b above g ↔
      ∃ rest, tr = above ++ rest ∧ rest.length ≤ b ∧ Linked env g rest := by
  intro b
  induction b with
  | zero =>
    intro above g tr
    simp only [trails, List.not_mem_nil, Nat.le_zero, List.length_eq_zero_iff, false_iff]
    rintro ⟨rest, -, rfl, hl⟩
    exact hl
  | succ b ih =>
    intro above g tr
    simp only [trails, List.mem_flatMap, List.mem_cons, Prod.exists]
    constructor
    · rintro ⟨t, i, hti, rfl | htr⟩
      · have hi := List.mem_zipIdx_iff_getElem?.mp hti
        exact ⟨[(g, i)], rfl, by simp, rfl, t, hi, Or.inl rfl⟩
      · obtain ⟨rest, rfl, hlen, hl⟩ := (ih _ _ _).mp htr
        have hi := List.mem_zipIdx_iff_getElem?.mp hti
        exact ⟨(g, i) :: rest, by simp, by simpa using hlen, rfl, t, hi, Or.inr hl⟩
    · rintro ⟨_ | ⟨⟨g', i⟩, rest⟩, rfl, hlen, hl⟩
      · exact hl.elim
      · obtain ⟨rfl, t, hi, hrest⟩ := hl
        refine ⟨t, i, List.mem_zipIdx_iff_getElem?.mpr hi, ?_⟩
        rcases hrest with rfl | hrest
        · exact Or.inl rfl
        · refine Or.inr ((ih _ _ _).mpr ⟨rest, by simp, by simpa using hlen, hrest⟩)

/-- A linked trail ends one step further exactly when it is a first step of the group, or a
linked trail followed by one of the children its end shows. -/
theorem linked_snoc_iff (env : Env) : ∀ (tr : Trail) (g g' : List SchemaTree) (i : Nat),
    Linked env g (tr ++ [(g', i)]) ↔
      (tr = [] ∧ g' = g ∧ i < g.length) ∨
      (Linked env g tr ∧ ∃ t, tr.tree? = some t ∧ g' = shownChildren env t ∧
        i < (shownChildren env t).length)
  | [], g, g', i => by
    simp only [List.nil_append, Linked, List.getElem?_eq_some_iff, and_true, true_and,
      Trail.tree?, List.getLast?_nil, Option.bind_none, reduceCtorEq, false_and, exists_false,
      and_false, or_false]
    constructor
    · rintro ⟨rfl, t, hi, -⟩
      exact ⟨rfl, hi⟩
    · rintro ⟨rfl, hi⟩
      exact ⟨rfl, _, hi, rfl⟩
  | (g₀, j) :: rest, g, g', i => by
    simp only [List.cons_append, Linked, List.append_eq_nil_iff, List.cons_ne_nil, and_false,
      false_and, false_or]
    constructor
    · rintro ⟨rfl, t, hj, hrest⟩
      rcases (linked_snoc_iff env rest _ g' i).mp hrest with ⟨rfl, rfl, hi⟩ | ⟨hl, c, hc, rfl, hi⟩
      · refine ⟨⟨rfl, t, hj, Or.inl rfl⟩, t, ?_, rfl, hi⟩
        simp [Trail.tree?, hj]
      · refine ⟨⟨rfl, t, hj, Or.inr hl⟩, c, ?_, rfl, hi⟩
        have hne : rest ≠ [] := by rintro rfl; exact hl
        rwa [Trail.tree?_cons_of_ne_nil _ hne]
    · rintro ⟨⟨rfl, t, hj, hrest⟩, c, hc, rfl, hi⟩
      refine ⟨rfl, t, hj, (linked_snoc_iff env rest _ _ i).mpr ?_⟩
      rcases hrest with rfl | hrest
      · left
        simp only [Trail.tree?, List.getLast?_singleton, Option.bind_some, hj,
          Option.some.injEq] at hc
        subst hc
        exact ⟨rfl, rfl, hi⟩
      · right
        have hne : rest ≠ [] := by rintro rfl; exact hrest
        refine ⟨hrest, c, ?_, rfl, hi⟩
        rwa [Trail.tree?_cons_of_ne_nil _ hne] at hc

/-- The trails a group reaches with a budget `D`: each entry at level 0 while `D` allows, and
each child the end of a reached trail shows, one level down, while that level stays below `D`. -/
inductive Reached (env : Env) (D : Nat) (g : List SchemaTree) : Trail → Prop
  | entry {i : Nat} : i < g.length → 0 < D → Reached env D g [(g, i)]
  | child {tr : Trail} {t : SchemaTree} {i : Nat} : Reached env D g tr → tr.tree? = some t →
      i < (shownChildren env t).length → tr.length < D →
      Reached env D g (tr ++ [(shownChildren env t, i)])

theorem reached_iff_linked {env : Env} {D : Nat} {g : List SchemaTree} (tr : Trail) :
    Reached env D g tr ↔ Linked env g tr ∧ tr.length ≤ D := by
  constructor
  · intro h
    induction h with
    | entry hi hD => exact ⟨(linked_snoc_iff env [] g g _).mpr (Or.inl ⟨rfl, rfl, hi⟩), hD⟩
    | child _ ht hi hlen ih =>
      refine ⟨(linked_snoc_iff env _ g _ _).mpr (Or.inr ⟨ih.1, _, ht, rfl, hi⟩), ?_⟩
      simp only [List.length_append, List.length_singleton]
      omega
  · induction tr using List.reverseRecOn with
    | nil => exact fun h => h.1.elim
    | append_singleton tr x ih =>
      obtain ⟨g', i⟩ := x
      rintro ⟨hl, hlen⟩
      simp only [List.length_append, List.length_singleton] at hlen
      rcases (linked_snoc_iff env tr g g' i).mp hl with ⟨rfl, rfl, hi⟩ | ⟨hl', t, ht, rfl, hi⟩
      · exact .entry hi (by omega)
      · exact .child (ih ⟨hl', by omega⟩) ht hi (by omega)

/-- The trails a group draws from the margin with a budget are exactly those it reaches. -/
theorem mem_trails_iff_reached (env : Env) (D : Nat) (g : List SchemaTree) (tr : Trail) :
    tr ∈ trails env D [] g ↔ Reached env D g tr := by
  rw [mem_trails_iff_linked, reached_iff_linked]
  simp only [List.nil_append, exists_eq_left']
  exact and_comm

/-- The number of rows an entry draws with a budget: none without budget, else its own and
those of the children it shows with one level less. -/
def reach (env : Env) : Nat → SchemaTree → Nat
  | 0, _ => 0
  | b + 1, t => 1 + ((shownChildren env t).map (reach env b)).sum

theorem length_trails (env : Env) : ∀ (b : Nat) (above : Trail) (g : List SchemaTree),
    (trails env b above g).length = (g.map (reach env b)).sum := by
  intro b
  induction b with
  | zero => simp [trails, reach]
  | succ b ih =>
    intro above g
    simp only [trails, List.length_flatMap, List.length_cons, ih]
    have h : (fun p : SchemaTree × Nat => ((shownChildren env p.1).map (reach env b)).sum + 1) =
        reach env (b + 1) ∘ Prod.fst := by
      funext p
      simp only [Function.comp_apply, reach]
      omega
    rw [h, ← List.map_map, List.zipIdx_map_fst]

/-- A bar of a row goes on in the next row: in the same column as a bar, or as the branch of
the next row's own node. -/
def BarsGoOn (f₁ f₂ : List Bool) : Prop :=
  ∀ j, f₁[j]? = some true → j = f₂.length ∨ f₂[j]? = some true

theorem barsGoOn_append (P X : List Bool) : BarsGoOn P (P ++ X) := fun j hj =>
  Or.inr (by rwa [List.getElem?_append_left (List.getElem?_eq_some_iff.mp hj).1])

theorem barsGoOn_self (P : List Bool) : BarsGoOn P P := fun _ hj => Or.inr hj

theorem barsGoOn_return (P : List Bool) (k : Nat) :
    BarsGoOn (P ++ true :: List.replicate k false) P := by
  intro j hj
  rcases Nat.lt_trichotomy j P.length with h | h | h
  · right
    rwa [List.getElem?_append_left h] at hj
  · exact Or.inl h
  · rw [List.getElem?_append_right (by omega)] at hj
    obtain ⟨m, hm⟩ : ∃ m, j - P.length = m + 1 := ⟨j - P.length - 1, by omega⟩
    rw [hm, List.getElem?_cons_succ, List.getElem?_replicate] at hj
    split at hj <;> simp at hj

/-- The connector flags of the rows a group draws below a trail: every bar goes on, the first
row has the flags of the trail, and the last has them followed by blanks only. -/
theorem trails_bars (env : Env) : ∀ (b : Nat) (above : Trail) (g : List SchemaTree),
    ((trails env b above g).map Trail.connectors).IsChain BarsGoOn ∧
      (∀ f ∈ ((trails env b above g).map Trail.connectors).head?, f = above.flags) ∧
      ∀ f ∈ ((trails env b above g).map Trail.connectors).getLast?,
        ∃ k, f = above.flags ++ List.replicate k false := by
  intro b
  induction b with
  | zero => simp [trails]
  | succ b ih =>
    intro above g
    let C : SchemaTree × Nat → List (List Bool) := fun p =>
      (trails env b (above ++ [(g, p.2)]) (shownChildren env p.1)).map Trail.connectors
    let L := g.zipIdx.map fun p => above.flags :: C p
    have hrows : (trails env (b + 1) above g).map Trail.connectors = L.flatten := by
      simp only [L, C, trails, List.map_flatMap]
      rw [List.flatMap_def]
      congr 1
      refine List.map_congr_left fun p _ => ?_
      simp
    have hC : ∀ t i, (C (t, i)).IsChain BarsGoOn ∧
        (∀ f ∈ (C (t, i)).head?, f = above.flags ++ [decide (i + 1 < g.length)]) ∧
        ∀ f ∈ (C (t, i)).getLast?,
          ∃ k, f = above.flags ++ decide (i + 1 < g.length) :: List.replicate k false := by
      intro t i
      obtain ⟨hc, hh, hl⟩ := ih (above ++ [(g, i)]) (shownChildren env t)
      refine ⟨hc, fun f hf => by simpa [Trail.flags] using hh f hf, fun f hf => ?_⟩
      obtain ⟨k, hk⟩ := hl f hf
      exact ⟨k, by simpa [Trail.flags] using hk⟩
    have hlast : ∀ t i, ∀ f ∈ (above.flags :: C (t, i)).getLast?,
        f = above.flags ∨ ∃ k, f = above.flags ++ decide (i + 1 < g.length) :: List.replicate k false := by
      intro t i f hf
      rw [List.getLast?_cons] at hf
      cases hcl : (C (t, i)).getLast? with
      | none =>
        simp only [hcl, Option.getD_none, Option.mem_def, Option.some.injEq] at hf
        exact Or.inl hf.symm
      | some f' =>
        simp only [hcl, Option.getD_some, Option.mem_def, Option.some.injEq] at hf
        subst hf
        exact Or.inr ((hC t i).2.2 _ hcl)
    have hne : [] ∉ L := by simp [L]
    rw [hrows]
    refine ⟨(List.isChain_flatten hne).mpr ⟨?_, ?_⟩, ?_, ?_⟩
    · intro l hl
      simp only [L, List.mem_map] at hl
      obtain ⟨⟨t, i⟩, -, rfl⟩ := hl
      refine List.isChain_cons.mpr ⟨fun y hy => ?_, (hC t i).1⟩
      rw [(hC t i).2.1 y hy]
      exact barsGoOn_append _ _
    · refine List.isChain_iff_getElem.mpr fun k hk => ?_
      simp only [L, List.length_map, List.length_zipIdx] at hk
      simp only [L, List.getElem_map, List.getElem_zipIdx, List.head?_cons, Option.mem_def,
        Option.some.injEq, Nat.zero_add]
      rintro x hx y rfl
      rcases hlast _ _ x hx with rfl | ⟨m, rfl⟩
      · exact barsGoOn_self _
      · rw [decide_eq_true (by omega)]
        exact barsGoOn_return _ _
    · cases g with
      | nil => simp [L]
      | cons t g => simp [L, List.zipIdx_cons]
    · rcases List.eq_nil_or_concat g with rfl | ⟨g', t, rfl⟩
      · simp [L]
      · intro f hf
        have hL : L = g'.zipIdx.map (fun p => above.flags :: C p) ++
            [above.flags :: C (t, g'.length)] := by
          simp [L, List.zipIdx_append]
        rw [hL, List.flatten_append, List.flatten_singleton,
          List.getLast?_append_of_ne_nil _ (List.cons_ne_nil _ _)] at hf
        rcases hlast _ _ f hf with rfl | ⟨m, rfl⟩
        · exact ⟨0, by simp⟩
        · exact ⟨m + 1, by simp [List.replicate_succ]⟩

end YangDiagram.Diagram
