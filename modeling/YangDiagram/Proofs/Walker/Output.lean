-- The walker gives out the lines of the diagram: pulled any number of times, its lines show,
-- one for one, what the first lines of the module's diagram show, and all of them once it
-- stops giving lines. Rows are drawn where the drawing draws them, with the same counts.
import Mathlib
import YangDiagram.Proofs.Walker.LineState

namespace YangDiagram.Diagram

open YangDiagram.Json YangDiagram.Schema

/-! ## What a line shows -/

/-- What a line shows: a heading's text, or a row's node, connector flags and pieces. -/
def Line.shown : Line → Text ⊕ (Node × List Bool × Row)
  | .heading t => .inl t
  | .row n pl r => .inr (n, pl.connectors, r)

/-- The text of a line is read off what it shows. -/
def Line.shownText : Text ⊕ (Node × List Bool × Row) → Text
  | .inl t => t
  | .inr (_, _, r) => r.text

theorem Line.shownText_shown (l : Line) : Line.shownText l.shown = l.text := by
  cases l <;> rfl

theorem isListKey_of_counts {n : Node} {scope : Option KeyScope} {s s' : Scopes Nat}
    (h : s.counts = s'.counts) : isListKey n scope s = isListKey n scope s' := by
  have hdata : ∀ path : List QName, s.dataPath id path = s'.dataPath id path := fun path => by
    simp only [Scopes.dataPath, Scopes.has, h]
  simp only [isListKey, hdata]

/-- A row's label reads the suppressed positions only through their counts. -/
theorem labelOf_of_counts {env : Env} {n : Node} {scope : Option KeyScope} {s s' : Scopes Nat}
    (h : s.counts = s'.counts) : labelOf env n scope s = labelOf env n scope s' := by
  simp only [labelOf, isListKey_of_counts h]

theorem rowOf_congr {env : Env} {n : Node} {p q : Place} {w : Nat}
    (hc : p.connectors = q.connectors) (hs : p.suppressed.counts = q.suppressed.counts)
    (hr : p.role = q.role) (hk : p.keys = q.keys) : rowOf env n p w = rowOf env n q w := by
  simp only [rowOf, hc, hr, hk, labelOf_of_counts hs]

theorem typeWidth_congr {env : Env} {items : List SchemaTree} {p q : Place}
    (hs : p.suppressed.counts = q.suppressed.counts) (hk : p.keys = q.keys) :
    typeWidth env items p = typeWidth env items q := by
  simp only [typeWidth, hk, labelOf_of_counts hs]

theorem childPlan_fst_congr (env : Env) (t : SchemaTree) (n : Node) (p q : Place) :
    (childPlan env t n p).1 = (childPlan env t n q).1 := by
  cases n <;> rfl

theorem childPlan_snd_role_keys (env : Env) (t : SchemaTree) (n : Node) {p q : Place}
    (hr : p.role = q.role) (hk : p.keys = q.keys) :
    (childPlan env t n p).2.role = (childPlan env t n q).2.role ∧
      (childPlan env t n p).2.keys = (childPlan env t n q).2.keys := by
  cases n <;> simp [childPlan, hr, hk]

/-! ## The drawing, group by group -/

/-- The lines of a group of siblings drawn at a place, with the type column of the group. -/
def drawGroup (env : Env) (pl : Place) (ts : List SchemaTree) : List Line :=
  ts.zipIdx.flatMap fun (t, i) => drawTree env pl (typeWidth env ts pl) (decide (i + 1 < ts.length)) t

/-- The place the children of a drawn entry are planned from: one more flag, one less budget, the
entry's role, and its position held when it is a case. -/
def belowPlace (pl : Place) (t : SchemaTree) (n : Node) (more : Bool) : Place :=
  { pl with role := roleOf n pl.role, connectors := pl.connectors ++ [more],
            budget := pl.budget - 1,
            suppressed := if n.kind = .case then pl.suppressed.acquire (t.path.length - 1 : Nat)
              else pl.suppressed }

/-- The lines below a drawn entry: none when the budget is spent, else the group of its children. -/
def drawBelow (env : Env) (pl : Place) (t : SchemaTree) (n : Node) (more : Bool) : List Line :=
  if pl.budget ≤ 1 then []
  else drawGroup env (childPlan env t n (belowPlace pl t n more)).2
    (childPlan env t n (belowPlace pl t n more)).1

theorem drawTree_eq_row_below {env : Env} {pl : Place} {w : Nat} {more : Bool} {t : SchemaTree}
    {n : Node} (hn : t.node = some n) :
    drawTree env pl w more t =
      Line.row n { pl with role := roleOf n pl.role } (rowOf env n { pl with role := roleOf n pl.role } w) ::
        drawBelow env pl t n more := by
  rw [drawTree_of_node hn]
  rfl

theorem drawEntries_eq_drawGroup (env : Env) (role : Role) (budget : Nat) (trees : List SchemaTree) :
    drawEntries env role budget trees =
      drawGroup env ⟨[], budget, {}, role, none⟩ (trees.filter (·.node.isSome)) := rfl

theorem filter_isSome_of_sound {ts : List SchemaTree} (h : ∀ t ∈ ts, t.Sound) :
    ts.filter (·.node.isSome) = ts :=
  List.filter_eq_self.mpr fun t ht => by
    obtain ⟨n, hn⟩ := (h t ht).exists_node
    simp [hn]

/-! ## States that draw at a place -/

/-- A walker state draws at a place: the same flags, budget and counts of suppressed positions. -/
structure WalkState.DrawsAt (st : WalkState) (pl : Place) : Prop where
  flags : st.flags = pl.connectors
  depth : st.depth = pl.budget
  counts : st.suppressed.counts = pl.suppressed.counts

/-- A planned row is drawn where the drawing draws its entry. -/
structure Plan.At (p : Plan) (pl : Place) (n : Node) : Prop where
  connectors : p.connectors = pl.connectors
  depth : p.depth = pl.budget
  role : p.role = roleOf n pl.role
  keys : p.keys = pl.keys

theorem WalkState.DrawsAt.afterHold {st : WalkState} {pl : Place} (h : st.DrawsAt pl) :
    st.afterHold.DrawsAt pl :=
  ⟨h.flags, h.depth, h.counts⟩

/-- What the instructions still to run give out from a state, as the lines show: headings, and
the lines of groups, rows and children at the places the drawing draws them. -/
def Draws (env : Env) : WalkState → List Instr → List (Text ⊕ (Node × List Bool × Row)) → Prop
  | _, [], out => out = []
  | st, .emit l :: k, out => ∃ rest, out = l.shown :: rest ∧ Draws env st k rest
  | st, .siblings ts role keys :: k, out => ∃ pl rest, st.DrawsAt pl ∧ pl.role = role ∧
      pl.keys = keys ∧ (∀ t ∈ ts, t.Sound) ∧ out = (drawGroup env pl ts).map Line.shown ++ rest ∧
      Draws env st k rest
  | st, .item t n p more w :: k, out => ∃ pl rest, t.node = some n ∧ t.Sound ∧ st.DrawsAt pl ∧
      p.At pl n ∧ out = (drawTree env pl w more t).map Line.shown ++ rest ∧ Draws env st k rest
  | st, .descend t n p more :: k, out => ∃ pl rest, t.node = some n ∧ t.Sound ∧
      st.flags = pl.connectors ∧ st.depth = pl.budget ∧
      st.suppressed.counts = (belowPlace pl t n more).suppressed.counts ∧ p.At pl n ∧
      out = (drawBelow env pl t n more).map Line.shown ++ rest ∧ Draws env st k rest
  | st, .children t n p :: k, out => ∃ b rest, t.node = some n ∧ t.Sound ∧ st.DrawsAt b ∧
      b.role = p.role ∧ b.keys = p.keys ∧
      out = (drawGroup env (childPlan env t n b).2 (childPlan env t n b).1).map Line.shown ++ rest ∧
      Draws env st k rest
  | st, .cleanup c :: k, out => ∃ st', c.run st = .ok st' ∧ Draws env st' k out

theorem Draws.afterHold {env : Env} {st : WalkState} {k : List Instr}
    {out : List (Text ⊕ (Node × List Bool × Row))} (h : Draws env st k out) :
    Draws env st.afterHold k out := by
  induction k generalizing st out with
  | nil => exact h
  | cons i k ih =>
    cases i with
    | emit l =>
      obtain ⟨rest, rfl, hk⟩ := h
      exact ⟨rest, rfl, ih hk⟩
    | siblings ts role keys =>
      obtain ⟨pl, rest, hat, hr, hk', hts, rfl, hk⟩ := h
      exact ⟨pl, rest, hat.afterHold, hr, hk', hts, rfl, ih hk⟩
    | item t n p more w =>
      obtain ⟨pl, rest, hn, ht, hat, hp, rfl, hk⟩ := h
      exact ⟨pl, rest, hn, ht, hat.afterHold, hp, rfl, ih hk⟩
    | descend t n p more =>
      obtain ⟨pl, rest, hn, ht, hf, hd, hc, hp, rfl, hk⟩ := h
      exact ⟨pl, rest, hn, ht, hf, hd, by simpa [WalkState.afterHold] using hc, hp, rfl, ih hk⟩
    | children t n p =>
      obtain ⟨b, rest, hn, ht, hat, hr, hk', rfl, hk⟩ := h
      exact ⟨b, rest, hn, ht, hat.afterHold, hr, hk', rfl, ih hk⟩
    | cleanup c =>
      obtain ⟨st', hrun, hk⟩ := h
      exact ⟨st'.afterHold, by rw [Cleanup.run_afterHold, hrun]; rfl, ih hk⟩

/-! ## One step -/

section Step

variable {env : Env} {st : WalkState} {k : List Instr} {out : List (Text ⊕ (Node × List Bool × Row))}

/-- One step of an instruction keeps drawing: it succeeds, the line it gives out is the next
line expected, and the instructions it leaves give out the others. -/
def StepDraws (env : Env) (st : WalkState) (i : Instr) (k : List Instr)
    (out : List (Text ⊕ (Node × List Bool × Row))) : Prop :=
  ∃ o st' new rest, i.step env st = .ok (o, st', new) ∧
    out = (o.map Line.shown).toList ++ rest ∧ Draws env st' (new ++ k) rest

/-- The rows planned for a group of sound siblings draw the group. -/
theorem draws_planRows {pl : Place} {rest : List (Text ⊕ (Node × List Bool × Row))}
    (role : Role) (keys : Option KeyScope) (ts : List SchemaTree) (hat : st.DrawsAt pl)
    (hr : pl.role = role) (hk : pl.keys = keys) (hts : ∀ t ∈ ts, t.Sound) (hrest : Draws env st k rest) :
    Draws env st (planRows st role keys ts (typeWidth env ts pl) ++ k)
      ((drawGroup env pl ts).map Line.shown ++ rest) := by
  rw [planRows, drawGroup]
  simp only [filter_isSome_of_sound hts]
  have hmem : ∀ x ∈ ts.zipIdx, ts[x.2]? = some x.1 := fun x hx =>
    List.mem_zipIdx_iff_getElem?.mp hx
  generalize ts.zipIdx = L at hmem ⊢
  induction L with
  | nil => simpa using hrest
  | cons x L ih =>
    obtain ⟨t, j⟩ := x
    have hj := hmem (t, j) List.mem_cons_self
    have ht := hts t (List.mem_of_getElem? hj)
    obtain ⟨n, hn⟩ := ht.exists_node
    simp only [List.filterMap_cons, hn, Option.map_some, List.flatMap_cons, List.cons_append,
      List.map_append, List.append_assoc]
    exact ⟨pl, _, hn, ht, hat, ⟨hat.flags, hat.depth, by rw [hr], hk.symm ▸ rfl⟩, rfl,
      ih fun x hx => hmem x (List.mem_cons_of_mem _ hx)⟩

theorem stepDraws_siblings {ts : List SchemaTree} {role : Role} {keys : Option KeyScope}
    (h : Draws env st (.siblings ts role keys :: k) out) :
    StepDraws env st (.siblings ts role keys) k out := by
  obtain ⟨pl, rest, hat, hr, hk, hts, rfl, hrest⟩ := h
  have hw : typeWidth env (ts.filter (·.node.isSome)) ⟨st.flags, st.depth, st.suppressed, role, keys⟩ =
      typeWidth env ts pl := by
    rw [filter_isSome_of_sound hts]
    exact typeWidth_congr hat.counts hk.symm
  refine ⟨none, st, _, (drawGroup env pl ts).map Line.shown ++ rest, rfl, by simp, ?_⟩
  rw [hw]
  exact draws_planRows role keys ts hat hr hk hts hrest

/-- A planned row is the row the drawing draws, against the counts of the moment; a case holds
its own position until what is under it is drawn. -/
theorem stepDraws_item {t : SchemaTree} {n : Node} {p : Plan} {more : Bool} {w : Nat}
    (h : Draws env st (.item t n p more w :: k) out) :
    StepDraws env st (.item t n p more w) k out := by
  obtain ⟨pl, rest, hn, ht, hat, hp, rfl, hrest⟩ := h
  have hrow : rowOf env n (p.place st.suppressed) w = rowOf env n { pl with role := roleOf n pl.role } w :=
    rowOf_congr hp.connectors hat.counts hp.role hp.keys
  have hline : (Line.row n (p.place st.suppressed) (rowOf env n (p.place st.suppressed) w)).shown =
      (Line.row n { pl with role := roleOf n pl.role }
        (rowOf env n { pl with role := roleOf n pl.role } w)).shown := by
    have hpc : (p.place st.suppressed).connectors = pl.connectors := hp.connectors
    simp only [Line.shown, hrow, hpc]
  rw [drawTree_eq_row_below hn]
  by_cases hcase : n.kind = .case
  · simp only [StepDraws, Instr.step, hcase, if_true]
    refine ⟨_, _, _, _, rfl, by simp [hline], pl, rest, hn, ht, hat.flags, hat.depth, ?_, hp, rfl,
      st.afterHold, ?_, hrest.afterHold⟩
    · simp [belowPlace, hcase, hat.counts]
    · simp only [Cleanup.run, Scopes.release_acquire]
      rfl
  · simp only [StepDraws, Instr.step, hcase, if_false]
    exact ⟨_, _, _, _, rfl, by simp [hline], pl, rest, hn, ht, hat.flags, hat.depth,
      by simp [belowPlace, hcase, hat.counts], hp, rfl, hrest⟩

/-- Going below a row draws nothing when the budget is spent; otherwise its children are drawn
from the place below it, and either way the finally blocks put the state back. -/
theorem stepDraws_descend {t : SchemaTree} {n : Node} {p : Plan} {more : Bool}
    (h : Draws env st (.descend t n p more :: k) out) :
    StepDraws env st (.descend t n p more) k out := by
  obtain ⟨pl, rest, hn, ht, hf, hd, hc, hp, rfl, hrest⟩ := h
  have hback : { ({ st with depth := p.depth - 1 } : WalkState) with depth := p.depth } = st := by
    rw [hp.depth, ← hd]
  by_cases hlow : p.depth ≤ 1
  · have hnil : drawBelow env pl t n more = [] := by
      simp [drawBelow, ← hp.depth, hlow]
    simp only [StepDraws, Instr.step, hlow, if_true, hnil]
    exact ⟨_, _, _, rest, rfl, by simp, st, by simp only [Cleanup.run, hback], hrest⟩
  · have hgroup : drawBelow env pl t n more = drawGroup env (childPlan env t n (belowPlace pl t n more)).2
        (childPlan env t n (belowPlace pl t n more)).1 := by
      simp [drawBelow, ← hp.depth, hlow]
    simp only [StepDraws, Instr.step, hlow, if_false, hgroup]
    refine ⟨_, _, _, _, rfl, rfl, belowPlace pl t n more, rest, hn, ht, ⟨?_, ?_, hc⟩,
      by simp [belowPlace, hp.role], by simp [belowPlace, hp.keys], rfl, _,
      by simp only [Cleanup.run, Connectors.pop?_push]; rfl,
      st, by simp only [Cleanup.run, hback], hrest⟩
    · simp [belowPlace, hf]
    · simp [belowPlace, hp.depth]

/-- What is under a row is the group of its children, drawn from the place below it; a choice
holds its own position while they are drawn. -/
theorem stepDraws_children {t : SchemaTree} {n : Node} {p : Plan}
    (h : Draws env st (.children t n p :: k) out) :
    StepDraws env st (.children t n p) k out := by
  obtain ⟨b, rest, hn, ht, hat, hr, hk, rfl, hrest⟩ := h
  have hfst := childPlan_fst_congr env t n (p.place st.suppressed) b
  obtain ⟨hrole, hkeys⟩ := childPlan_snd_role_keys env t n (p := p.place st.suppressed) (q := b)
    hr.symm hk.symm
  have hsound : ∀ c ∈ (childPlan env t n b).1, c.Sound :=
    fun c hc => ht.child (mem_childTrees_of_mem_childPlan hc)
  have hat' : ∀ st' : WalkState, st'.flags = st.flags → st'.depth = st.depth →
      st'.suppressed.counts = (childPlan env t n b).2.suppressed.counts →
      st'.DrawsAt (childPlan env t n b).2 := fun st' hf hd hc =>
    ⟨by simp [hf, hat.flags], by simp [hd, hat.depth], hc⟩
  by_cases hchoice : n.kind = .choice
  · simp only [StepDraws, Instr.step, hchoice, if_true]
    refine ⟨_, _, _, _, rfl, rfl, (childPlan env t n b).2, rest, hat' _ rfl rfl ?_, hrole.symm,
      hkeys.symm, by rw [hfst]; exact hsound, by rw [hfst]; rfl, st.afterHold, ?_, hrest.afterHold⟩
    · simp [childPlan_choice_suppressed env t n _ hchoice, Plan.place, hat.counts]
    · simp only [Cleanup.run, childPlan_choice_suppressed env t n _ hchoice, Plan.place,
        Scopes.release_acquire]
      rfl
  · have hsup : (childPlan env t n b).2.suppressed = b.suppressed := by
      simp [suppressed_childPlan, hchoice]
    simp only [StepDraws, Instr.step, hchoice, if_false]
    exact ⟨_, _, _, _, rfl, rfl, (childPlan env t n b).2, rest,
      hat' _ rfl rfl (by rw [hsup, hat.counts]), hrole.symm, hkeys.symm,
      by rw [hfst]; exact hsound, by rw [hfst]; rfl, hrest⟩

end Step

theorem draws_keeps (env : Env) : Keeps env (fun l _ => l.shown) (Draws env) where
  done h := h
  step {st i k out} h := by
    cases i with
    | emit l =>
      obtain ⟨rest, rfl, hk⟩ := h
      exact ⟨some l, st, [], rest, rfl, rfl, hk⟩
    | siblings => exact stepDraws_siblings h
    | item => exact stepDraws_item h
    | descend => exact stepDraws_descend h
    | children => exact stepDraws_children h
    | cleanup c =>
      obtain ⟨st', hrun, hk⟩ := h
      exact ⟨none, st', [], out, by simp [Instr.step, hrun, Except.map], by simp, hk⟩

/-! ## The whole diagram -/

/-- From the start state, sections of sound entries give out each heading and then the lines of
its entries. -/
theorem draws_sections (env : Env) (budget : Nat) :
    ∀ secs : List Section, (∀ sec ∈ secs, ∀ t ∈ sec.entries, t.Sound) →
      Draws env ⟨budget, {}, {}⟩ (secs.flatMap fun sec =>
          [.emit (.heading sec.heading), .siblings sec.entries sec.role none])
        ((secs.flatMap (Section.lines env budget)).map Line.shown)
  | [], _ => rfl
  | sec :: secs, hsound => by
    have hsec := hsound sec List.mem_cons_self
    simp only [List.flatMap_cons, List.cons_append, List.nil_append, List.map_append,
      Section.lines, List.map_cons, drawEntries_eq_drawGroup, filter_isSome_of_sound hsec]
    exact ⟨_, rfl, ⟨[], budget, {}, sec.role, none⟩, _, ⟨rfl, rfl, rfl⟩, rfl, rfl, hsec, rfl,
      draws_sections env budget secs fun sec' h => hsound sec' (List.mem_cons_of_mem _ h)⟩

/-- The walker gives out the diagram: its lines show what the diagram's first lines show, their
clipped texts are the lines rendered, and fewer lines than asked means the whole diagram. -/
theorem walker_gives_diagram {doc : Value} {ctx : Context} (hload : Context.load doc = .ok ctx)
    {m : Module} (hm : m ∈ ctx.modules) (s : Settings) (n : Nat) :
    ∃ ys w, (Walker.start ctx ctx.schemaTree m s).take n = .ok (ys, w) ∧
      ys.map (fun y => y.1.shown) <+: (moduleLines ctx ctx.schemaTree m s).map Line.shown ∧
      ys.map (fun y => Text.clip s.width y.1.text) <+: diagramLines ctx ctx.schemaTree m s ∧
      (ys.length < n → ys.map (fun y => y.1.shown) = (moduleLines ctx ctx.schemaTree m s).map Line.shown) := by
  have hsound := sound_of_mem_sections (Context.placed_of_load hload) hm (Env.ofModule ctx m s)
  have hstart : Draws (Env.ofModule ctx m s) (Walker.start ctx ctx.schemaTree m s).state
      (Walker.start ctx ctx.schemaTree m s).rest ((moduleLines ctx ctx.schemaTree m s).map Line.shown) := by
    rw [Walker.start_eq_sections, moduleLines_eq_sections]
    exact draws_sections _ _ _ hsound
  obtain ⟨ys, w, rest, htake, hout, hall⟩ :=
    (Walker.start ctx ctx.schemaTree m s).take_keeps n (draws_keeps _) hstart
  have htexts : diagramLines ctx ctx.schemaTree m s =
      ((moduleLines ctx ctx.schemaTree m s).map Line.shown).map
        fun x => Text.clip s.width (Line.shownText x) := by
    simp [diagramLines, Function.comp_def, Line.shownText_shown]
  refine ⟨ys, w, htake, ⟨rest, hout.symm⟩, ⟨rest.map fun x => Text.clip s.width (Line.shownText x), ?_⟩,
    fun hlt => by rw [hout, hall hlt, List.append_nil]⟩
  rw [htexts, hout]
  simp [Function.comp_def, Line.shownText_shown]

end YangDiagram.Diagram
