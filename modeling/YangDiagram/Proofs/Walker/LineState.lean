-- What the walker holds at each line: the connector stack, the depth budget and the held
-- positions that the row's trail fixes. One step keeps the invariant `Runs`, so every run of
-- the walker does.
import Mathlib
import YangDiagram.Proofs.Diagram.Layout
import YangDiagram.Proofs.Diagram.Keys

namespace YangDiagram.Schema

theorem SchemaTree.Sound.exists_node {t : SchemaTree} (h : t.Sound) : ∃ n, t.node = some n := by
  cases h with
  | intro hn => exact ⟨_, hn⟩

end YangDiagram.Schema

namespace YangDiagram.Diagram

open YangDiagram.Schema YangDiagram.Json

/-! ## The view of a line -/

/-- What a line shows of the walker when it is given out: the line's node and connector flags,
the connector stack, the depth budget left and the positions held. -/
structure LineView where
  shape : Option Node × List Bool
  stack : List Value
  depth : Nat
  held : List Nat

def LineView.of (l : Line) (st : WalkState) : LineView :=
  ⟨l.shape, st.connectors.flags, st.depth, st.suppressed.held⟩

/-- A heading's view: no node and no flags, in the restored state. -/
def LineView.heading (D : Nat) : LineView := ⟨(none, []), [], D, []⟩

namespace Trail

/-- The positions held below the end of a trail: those of every choice and case it goes through,
outermost first. -/
def heldBelow (tr : Trail) : List Nat :=
  (tr.entries.filter (·.isChoiceOrCase)).map (·.path.length - 1)

/-- The positions held while the row at the end of a trail is given out: those of the choices
and cases above its entry, then the entry's own when it is a case. -/
def held (tr : Trail) : List Nat :=
  (tr.entries.dropLast.filter (·.isChoiceOrCase) ++
    tr.entries.getLast?.toList.filter (·.kind? = some .case)).map (·.path.length - 1)

/-- The view of the row at the end of a trail under the full budget `D`: the trail's shape, its
flags on the stack, the budget less the row's level, and the positions `held`. -/
def view (D : Nat) (tr : Trail) : LineView :=
  ⟨tr.shape, tr.connectors.map .bool, D + 1 - tr.length, tr.held⟩

@[simp] theorem heldBelow_nil : heldBelow [] = [] := rfl

section Snoc

variable {g : List SchemaTree} {i : Nat} {t : SchemaTree}

theorem heldBelow_snoc (above : Trail) (h : g[i]? = some t) :
    heldBelow (above ++ [(g, i)]) =
      heldBelow above ++ if t.isChoiceOrCase then [t.path.length - 1] else [] := by
  simp only [heldBelow, entries_concat _ h, List.filter_append, List.map_append]
  split <;> simp_all

theorem held_snoc (above : Trail) (h : g[i]? = some t) :
    held (above ++ [(g, i)]) =
      heldBelow above ++ if t.kind? = some .case then [t.path.length - 1] else [] := by
  simp only [held, heldBelow, entries_concat _ h, List.dropLast_concat, List.getLast?_concat,
    Option.toList_some, List.map_append]
  split <;> simp_all

theorem heldBelow_snoc_eq_held (above : Trail) (h : g[i]? = some t) :
    heldBelow (above ++ [(g, i)]) =
      held (above ++ [(g, i)]) ++ if t.kind? = some .choice then [t.path.length - 1] else [] := by
  rw [heldBelow_snoc above h, held_snoc above h, List.append_assoc]
  congr 1
  simp only [SchemaTree.isChoiceOrCase, Bool.or_eq_true, decide_eq_true_eq]
  by_cases hc : t.kind? = some .choice <;> by_cases hk : t.kind? = some .case <;> simp_all

theorem view_snoc (D : Nat) (above : Trail) (h : g[i]? = some t) :
    view D (above ++ [(g, i)]) =
      ⟨(t.node, above.flags), above.flags.map .bool, D - above.length, held (above ++ [(g, i)])⟩ := by
  simp [view, shape, h]

end Snoc

end Trail

/-! ## States that agree with a trail -/

/-- A state agrees with a trail while the entries below its end are drawn: the trail's flags,
the budget less its length, and its choices' and cases' positions held. -/
structure WalkState.Below (D : Nat) (st : WalkState) (tr : Trail) : Prop where
  stack : st.connectors.flags = tr.flags.map .bool
  depth : st.depth + tr.length = D
  held : st.suppressed.held = tr.heldBelow

/-- A state agrees with a trail while the row at its end is given out: the flags above the row,
the budget less the row's level, and the positions `Trail.held` held. -/
structure WalkState.At (D : Nat) (st : WalkState) (tr : Trail) : Prop where
  stack : st.connectors.flags = tr.connectors.map .bool
  depth : st.depth + tr.length = D + 1
  held : st.suppressed.held = tr.held

@[simp] theorem WalkState.afterHold_depth (st : WalkState) : st.afterHold.depth = st.depth := rfl

@[simp] theorem WalkState.afterHold_connectors (st : WalkState) :
    st.afterHold.connectors = st.connectors := rfl

@[simp] theorem WalkState.afterHold_held (st : WalkState) :
    st.afterHold.suppressed.held = st.suppressed.held := by
  simp [WalkState.afterHold]

section Agree

variable {D : Nat} {st : WalkState} {tr : Trail}

theorem WalkState.Restored.afterHold (h : st.Restored D) : st.afterHold.Restored D := by
  obtain ⟨hd, hc, hs⟩ := h
  exact ⟨hd, hc, by simpa using hs⟩

theorem WalkState.Below.afterHold (h : st.Below D tr) : st.afterHold.Below D tr :=
  ⟨h.stack, h.depth, by simpa using h.held⟩

theorem WalkState.At.afterHold (h : st.At D tr) : st.afterHold.At D tr :=
  ⟨h.stack, h.depth, by simpa using h.held⟩

end Agree

/-! ## The invariant -/

/-- What the instructions still to run give out from a state, each line with its state:
headings in the restored state, rows as the views of the trails reached. -/
def Runs (env : Env) (D : Nat) : WalkState → List Instr → List LineView → Prop
  | st, [], out => st.Restored D ∧ out = []
  | st, .emit l :: k, out => l.shape = (none, []) ∧ st.Restored D ∧
      ∃ rest, out = LineView.heading D :: rest ∧ Runs env D st k rest
  | st, .siblings ts _ _ :: k, out => ∃ above rest, st.Below D above ∧ 0 < st.depth ∧
      (∀ t ∈ ts, t.Sound) ∧ out = (trails env st.depth above ts).map (Trail.view D) ++ rest ∧
      Runs env D st k rest
  | st, .item t n p more _ :: k, out => ∃ above g i rest, g[i]? = some t ∧ t.node = some n ∧
      t.Sound ∧ more = decide (i + 1 < g.length) ∧ st.Below D above ∧ 0 < st.depth ∧
      p.connectors = above.flags ∧ p.depth = st.depth ∧
      out = ((above ++ [(g, i)]) :: trails env (st.depth - 1) (above ++ [(g, i)])
        (shownChildren env t)).map (Trail.view D) ++ rest ∧ Runs env D st k rest
  | st, .descend t n p more :: k, out => ∃ above g i rest, g[i]? = some t ∧ t.node = some n ∧
      t.Sound ∧ more = decide (i + 1 < g.length) ∧ st.At D (above ++ [(g, i)]) ∧
      p.depth = st.depth ∧
      out = (trails env (st.depth - 1) (above ++ [(g, i)]) (shownChildren env t)).map
        (Trail.view D) ++ rest ∧ Runs env D st k rest
  | st, .children t n _ :: k, out => ∃ above g i rest, g[i]? = some t ∧ t.node = some n ∧
      t.Sound ∧ 0 < st.depth ∧ st.connectors.flags = (Trail.flags (above ++ [(g, i)])).map .bool ∧
      st.depth + (above.length + 1) = D ∧ st.suppressed.held = Trail.held (above ++ [(g, i)]) ∧
      out = (trails env st.depth (above ++ [(g, i)]) (shownChildren env t)).map (Trail.view D) ++
        rest ∧ Runs env D st k rest
  | st, .cleanup c :: k, out => ∃ st', c.run st = .ok st' ∧ Runs env D st' k out

/-- A handle given and let go again changes nothing the instructions give out. -/
theorem Runs.afterHold {env : Env} {D : Nat} {st : WalkState} {k : List Instr}
    {out : List LineView} (h : Runs env D st k out) : Runs env D st.afterHold k out := by
  induction k generalizing st out with
  | nil =>
    obtain ⟨hr, rfl⟩ := h
    exact ⟨hr.afterHold, rfl⟩
  | cons i k ih =>
    cases i with
    | emit l =>
      obtain ⟨hl, hr, rest, rfl, hk⟩ := h
      exact ⟨hl, hr.afterHold, rest, rfl, ih hk⟩
    | siblings ts role keys =>
      obtain ⟨above, rest, hb, hpos, hts, rfl, hk⟩ := h
      exact ⟨above, rest, hb.afterHold, hpos, hts, rfl, ih hk⟩
    | item t n p more w =>
      obtain ⟨above, g, j, rest, hj, hn, ht, hmore, hb, hpos, hpc, hpd, rfl, hk⟩ := h
      exact ⟨above, g, j, rest, hj, hn, ht, hmore, hb.afterHold, hpos, hpc, hpd, rfl, ih hk⟩
    | descend t n p more =>
      obtain ⟨above, g, j, rest, hj, hn, ht, hmore, ha, hpd, rfl, hk⟩ := h
      exact ⟨above, g, j, rest, hj, hn, ht, hmore, ha.afterHold, hpd, rfl, ih hk⟩
    | children t n p =>
      obtain ⟨above, g, j, rest, hj, hn, ht, hpos, hc, hd, hs, rfl, hk⟩ := h
      exact ⟨above, g, j, rest, hj, hn, ht, hpos, hc, hd, by simpa using hs, rfl, ih hk⟩
    | cleanup c =>
      obtain ⟨st', hrun, hk⟩ := h
      exact ⟨st'.afterHold, by rw [Cleanup.run_afterHold, hrun]; rfl, ih hk⟩

/-! ## One step -/

theorem WalkState.Restored.below {D : Nat} {st : WalkState} (h : st.Restored D) : st.Below D [] := by
  obtain ⟨hd, hc, hs⟩ := h
  exact ⟨by simp [hc, Trail.flags], by simp [hd], by simp [hs]⟩

/-- The rows planned for a list of sound siblings, below a trail the state agrees with, give out
the trails of the siblings in order. -/
theorem runs_planRows {env : Env} {D : Nat} {st : WalkState} {k : List Instr}
    {rest : List LineView} {above : Trail} (role : Role) (keys : Option KeyScope)
    (ts : List SchemaTree) (w : Nat) (hst : st.Below D above) (hpos : 0 < st.depth)
    (hts : ∀ t ∈ ts, t.Sound) (hk : Runs env D st k rest) :
    Runs env D st (planRows st role keys ts w ++ k)
      ((trails env st.depth above ts).map (Trail.view D) ++ rest) := by
  obtain ⟨b, hb⟩ : ∃ b, st.depth = b + 1 := ⟨st.depth - 1, by omega⟩
  have hitems : ts.filter (·.node.isSome) = ts := List.filter_eq_self.mpr fun t ht => by
    obtain ⟨n, hn⟩ := (hts t ht).exists_node
    simp [hn]
  have hflags : st.flags = above.flags := by
    simp [WalkState.flags, hst.stack, Function.comp_def, Value.truthy]
  rw [hb, trails, planRows]
  simp only [hitems]
  have hmem : ∀ x ∈ ts.zipIdx, ts[x.2]? = some x.1 := fun x hx =>
    List.mem_zipIdx_iff_getElem?.mp hx
  generalize ts.zipIdx = L at hmem ⊢
  induction L with
  | nil => simpa using hk
  | cons x L ih =>
    obtain ⟨t, j⟩ := x
    have hj := hmem (t, j) List.mem_cons_self
    obtain ⟨n, hn⟩ := (hts t (List.mem_of_getElem? hj)).exists_node
    simp only [List.filterMap_cons, hn, Option.map_some, List.flatMap_cons, List.cons_append]
    refine ⟨above, ts, j, _, hj, hn, hts t (List.mem_of_getElem? hj), rfl, hst, hpos, hflags,
      rfl, ?_, ih fun x hx => hmem x (List.mem_cons_of_mem _ hx)⟩
    simp [hb]

theorem LineView.of_row {D : Nat} {above : Trail} {g : List SchemaTree} {j : Nat} {t : SchemaTree}
    {n : Node} {pl : Place} {r : Row} {st : WalkState} (hj : g[j]? = some t)
    (hn : t.node = some n) (hpc : pl.connectors = above.flags)
    (hc : st.connectors.flags = above.flags.map .bool) (hd : st.depth + above.length = D)
    (hs : st.suppressed.held = Trail.held (above ++ [(g, j)])) :
    LineView.of (.row n pl r) st = Trail.view D (above ++ [(g, j)]) := by
  rw [Trail.view_snoc D above hj]
  simp only [LineView.of, Line.shape, hn, hpc, hc, hs, LineView.mk.injEq, and_true, true_and]
  omega

/-- One step keeps the instructions running: it succeeds, gives out the next line expected with
its state, and leaves instructions that give out the others. -/
def StepRuns (env : Env) (D : Nat) (st : WalkState) (i : Instr) (k : List Instr)
    (out : List LineView) : Prop :=
  ∃ o st' new rest, i.step env st = .ok (o, st', new) ∧
    out = (o.map (LineView.of · st')).toList ++ rest ∧ Runs env D st' (new ++ k) rest

section Step

variable {env : Env} {D : Nat} {st : WalkState} {k : List Instr} {out : List LineView}
  {t : SchemaTree} {n : Node} {p : Plan} {more : Bool}

/-- A row is given out in the state its trail fixes; a case holds its own position from its row
on, until what is under it is drawn. -/
theorem stepRuns_item {w : Nat} (h : Runs env D st (.item t n p more w :: k) out) :
    StepRuns env D st (.item t n p more w) k out := by
  obtain ⟨above, g, j, rest, hj, hn, ht, rfl, hb, hpos, hpc, hpd, rfl, hk⟩ := h
  have hrow : ∀ st' : WalkState, st'.connectors = st.connectors → st'.depth = st.depth →
      st'.suppressed.held = Trail.held (above ++ [(g, j)]) →
      LineView.of (.row n (p.place st.suppressed) (rowOf env n (p.place st.suppressed) w)) st' =
        Trail.view D (above ++ [(g, j)]) ∧ st'.At D (above ++ [(g, j)]) := by
    intro st' hc hd hs
    have hstack : st'.connectors.flags = above.flags.map .bool := by rw [hc, hb.stack]
    refine ⟨LineView.of_row hj hn hpc hstack (by rw [hd]; exact hb.depth) hs,
      by simp [hstack], ?_, hs⟩
    have := hb.depth
    simp only [List.length_append, List.length_singleton, hd]
    omega
  by_cases hcase : n.kind = .case
  · have hheld : Trail.held (above ++ [(g, j)]) = above.heldBelow ++ [t.path.length - 1] := by
      simp [Trail.held_snoc above hj, SchemaTree.kind?, hn, hcase]
    obtain ⟨hview, hat⟩ := hrow { st with suppressed := st.suppressed.acquire (t.path.length - 1) }
      rfl rfl (by simp [hb.held, hheld])
    simp only [StepRuns, Instr.step, hcase, if_true]
    refine ⟨_, _, _, _, rfl, by simp [hview], above, g, j, rest, hj, hn, ht, rfl, hat, hpd, rfl,
      st.afterHold, ?_, hk.afterHold⟩
    simp only [Cleanup.run, Scopes.release_acquire]
    rfl
  · have hheld : Trail.held (above ++ [(g, j)]) = above.heldBelow := by
      simp [Trail.held_snoc above hj, SchemaTree.kind?, hn, hcase]
    obtain ⟨hview, hat⟩ := hrow st rfl rfl (by rw [hb.held, hheld])
    simp only [StepRuns, Instr.step, hcase, if_false]
    exact ⟨_, _, _, _, rfl, by simp [hview], above, g, j, rest, hj, hn, ht, rfl, hat, hpd, rfl, hk⟩

/-- Going below a row pushes whether a later sibling follows and sets the budget one lower; with
no budget left nothing is drawn, and either way the finally blocks put the state back. -/
theorem stepRuns_descend (h : Runs env D st (.descend t n p more :: k) out) :
    StepRuns env D st (.descend t n p more) k out := by
  obtain ⟨above, g, j, rest, hj, hn, ht, rfl, ha, hpd, rfl, hk⟩ := h
  have hback : { ({ st with depth := p.depth - 1 } : WalkState) with depth := p.depth } = st := by
    rw [hpd]
  have hlen := ha.depth
  simp only [List.length_append, List.length_singleton] at hlen
  by_cases hlow : p.depth ≤ 1
  · simp only [StepRuns, Instr.step, hlow, if_true]
    have h0 : st.depth - 1 = 0 := by omega
    refine ⟨_, _, _, rest, rfl, by simp [h0, trails], st, ?_, hk⟩
    simp only [Cleanup.run, hback]
  · simp only [StepRuns, Instr.step, hlow, if_false]
    refine ⟨_, _, _, _, rfl, rfl, above, g, j, rest, hj, hn, ht, show 0 < p.depth - 1 by omega,
      ?_, ?_, ha.held, by simp [hpd], _, by simp only [Cleanup.run, Connectors.pop?_push]; rfl,
      st, by simp only [Cleanup.run, hback], hk⟩
    · simp [Connectors.push, ha.stack, Trail.flags]
    · show p.depth - 1 + (above.length + 1) = D
      omega

/-- What is under a row is its shown children, drawn below the row's trail; a choice holds its
own position while they are drawn. -/
theorem stepRuns_children (h : Runs env D st (.children t n p :: k) out) :
    StepRuns env D st (.children t n p) k out := by
  obtain ⟨above, g, j, rest, hj, hn, ht, hpos, hc, hd, hs, rfl, hk⟩ := h
  have hplan : (childPlan env t n (p.place st.suppressed)).1 = shownChildren env t :=
    childPlan_fst ht hn
  have hsound : ∀ c ∈ (childPlan env t n (p.place st.suppressed)).1, c.Sound := by
    rw [hplan]
    exact fun c hc => ht.child (mem_childTrees_of_mem_shownChildren hc)
  have hout : (trails env st.depth (above ++ [(g, j)]) (shownChildren env t)).map (Trail.view D) ++
      rest = (trails env st.depth (above ++ [(g, j)])
        (childPlan env t n (p.place st.suppressed)).1).map (Trail.view D) ++ rest := by
    rw [hplan]
  have hbelow : ∀ st' : WalkState, st'.connectors = st.connectors → st'.depth = st.depth →
      st'.suppressed.held = Trail.heldBelow (above ++ [(g, j)]) →
      st'.Below D (above ++ [(g, j)]) := by
    intro st' hc' hd' hs'
    refine ⟨by rw [hc', hc], ?_, hs'⟩
    simp only [List.length_append, List.length_singleton, hd']
    exact hd
  have hheld := Trail.heldBelow_snoc_eq_held above hj
  by_cases hchoice : n.kind = .choice
  · simp only [SchemaTree.kind?, hn, Option.map_some, hchoice, if_true] at hheld
    simp only [StepRuns, Instr.step, hchoice, if_true]
    refine ⟨_, _, _, _, rfl, rfl, above ++ [(g, j)], rest, hbelow _ rfl rfl ?_, hpos, hsound, hout,
      st.afterHold, ?_, hk.afterHold⟩
    · simp [childPlan_choice_suppressed env t n _ hchoice, Plan.place, hs, hheld]
    · simp only [Cleanup.run, childPlan_choice_suppressed env t n _ hchoice, Plan.place,
        Scopes.release_acquire]
      rfl
  · simp only [SchemaTree.kind?, hn, Option.map_some, Option.some.injEq, hchoice, if_false,
      List.append_nil] at hheld
    simp only [StepRuns, Instr.step, hchoice, if_false]
    exact ⟨_, _, _, _, rfl, rfl, above ++ [(g, j)], rest, hbelow _ rfl rfl (by rw [hs, hheld]),
      hpos, hsound, hout, hk⟩

end Step

/-- One step from instructions that run keeps them running. -/
theorem Instr.step_runs {env : Env} {D : Nat} {st : WalkState} {i : Instr} {k : List Instr}
    {out : List LineView} (h : Runs env D st (i :: k) out) : StepRuns env D st i k out := by
  cases i with
  | emit l =>
    obtain ⟨hl, ⟨hd, hc, hs⟩, rest, rfl, hk⟩ := h
    refine ⟨some l, st, [], rest, rfl, ?_, hk⟩
    simp [LineView.of, LineView.heading, hl, hd, hc, hs]
  | siblings ts role keys =>
    obtain ⟨above, rest, hb, hpos, hts, rfl, hk⟩ := h
    exact ⟨none, st, _, _, rfl, by simp, runs_planRows role keys ts _ hb hpos hts hk⟩
  | item => exact stepRuns_item h
  | descend => exact stepRuns_descend h
  | children => exact stepRuns_children h
  | cleanup c =>
    obtain ⟨st', hrun, hk⟩ := h
    exact ⟨none, st', [], out, by simp [Instr.step, hrun, Except.map], by simp, hk⟩

/-! ## A pull, a run of pulls -/

/-- An invariant of the instructions still to run that every step keeps: a step succeeds, gives
out the next line expected through `view`, and leaves instructions it holds of. -/
structure Keeps {β : Type} (env : Env) (view : Line → WalkState → β)
    (R : WalkState → List Instr → List β → Prop) : Prop where
  done : ∀ {st out}, R st [] out → out = []
  step : ∀ {st i k out}, R st (i :: k) out → ∃ o st' new rest,
    i.step env st = .ok (o, st', new) ∧ out = (o.map (view · st')).toList ++ rest ∧
      R st' (new ++ k) rest

section Pulls

variable {β : Type} {view : Line → WalkState → β} {R : WalkState → List Instr → List β → Prop}

/-- A pull from a walker whose instructions keep an invariant succeeds with the next line
expected, or with no line once everything is given out. -/
theorem Walker.pull_keeps (w : Walker) (hR : Keeps w.env view R) {out : List β}
    (h : R w.state w.rest out) :
    ∃ o w' rest, w.pull = .ok (o, w') ∧ w'.env = w.env ∧
      out = (o.map (view · w'.state)).toList ++ rest ∧ R w'.state w'.rest rest ∧
      (o = none → rest = []) := by
  fun_induction Walker.pull w generalizing out with
  | case1 env st => exact ⟨none, _, out, rfl, rfl, rfl, h, fun _ => hR.done h⟩
  | case2 env st i k e hstep =>
    obtain ⟨o, st', new, rest, hs, -, -⟩ := hR.step h
    rw [hs] at hstep
    cases hstep
  | case3 env st i k l st' new hstep =>
    obtain ⟨o, st'', new', rest, hs, hout, hk⟩ := hR.step h
    rw [hs] at hstep
    cases hstep
    exact ⟨some l, _, rest, rfl, rfl, hout, hk, by simp⟩
  | case4 env st i k st' new hstep ih =>
    obtain ⟨o, st'', new', rest, hs, hout, hk⟩ := hR.step h
    rw [hs] at hstep
    cases hstep
    simp only [Option.map_none, Option.toList_none, List.nil_append] at hout
    subst hout
    exact ih hR hk

/-- A run of pulls from a walker whose instructions keep an invariant gives out the first lines
expected; fewer lines than asked means it gave out everything. -/
theorem Walker.take_keeps (n : Nat) (w : Walker) (hR : Keeps w.env view R) {out : List β}
    (h : R w.state w.rest out) :
    ∃ ys w' rest, w.take n = .ok (ys, w') ∧
      out = ys.map (fun y => view y.1 y.2) ++ rest ∧ (ys.length < n → rest = []) := by
  induction n generalizing w out with
  | zero => exact ⟨[], w, out, rfl, rfl, by simp⟩
  | succ n ih =>
    obtain ⟨o, w', rest, hpull, henv, hout, hw', hnone⟩ := w.pull_keeps hR h
    cases o with
    | none =>
      exact ⟨[], w', rest, by simp [Walker.take, hpull], by simpa using hout, fun _ => hnone rfl⟩
    | some l =>
      obtain ⟨ys, w'', rest', htake, hout', hlen⟩ := ih w' (henv ▸ hR) hw'
      refine ⟨(l, w'.state) :: ys, w'', rest', by simp [Walker.take, hpull, htake, Except.map],
        by simp [hout, hout'], fun hlt => hlen ?_⟩
      simp only [List.length_cons] at hlt
      omega

end Pulls

theorem runs_keeps (env : Env) (D : Nat) : Keeps env LineView.of (Runs env D) :=
  ⟨fun h => h.2, Instr.step_runs⟩

/-! ## The start -/

/-- The walker of a module's diagram starts in the restored state with, for each section, its
heading and then its list of entries. -/
theorem Walker.start_eq_sections (ctx : Context) (tree : SchemaTree) (m : Module) (s : Settings) :
    Walker.start ctx tree m s = ⟨Env.ofModule ctx m s, ⟨s.budget, {}, {}⟩,
      (sections (Env.ofModule ctx m s) tree m).flatMap fun sec =>
        [.emit (.heading sec.heading), .siblings sec.entries sec.role none]⟩ := by
  unfold Walker.start sections
  simp only [List.cons_append, List.flatMap_cons, List.flatMap_append, List.flatMap_map]
  split <;> split <;> simp

/-- From a restored state, sections of sound entries give out each heading, then the trails its
entries reach. -/
theorem runs_sections (env : Env) {D : Nat} (hD : 0 < D) {st : WalkState} (hst : st.Restored D) :
    ∀ secs : List Section, (∀ sec ∈ secs, ∀ t ∈ sec.entries, t.Sound) →
      Runs env D st (secs.flatMap fun sec =>
          [.emit (.heading sec.heading), .siblings sec.entries sec.role none])
        (secs.flatMap fun sec =>
          LineView.heading D :: (trails env D [] sec.entries).map (Trail.view D))
  | [], _ => ⟨hst, rfl⟩
  | sec :: secs, hsound => by
    have hd : st.depth = D := hst.1
    simp only [List.flatMap_cons, List.cons_append, List.nil_append]
    exact ⟨rfl, hst, _, rfl, [], _, hst.below, hd ▸ hD, hsound sec List.mem_cons_self,
      by rw [hd], runs_sections env hD hst secs fun sec' h => hsound sec' (List.mem_cons_of_mem _ h)⟩

/-! ## The state at every line -/

theorem Reached.length_le {env : Env} {D : Nat} {g : List SchemaTree} {tr : Trail}
    (h : Reached env D g tr) : 0 < tr.length ∧ tr.length ≤ D := by
  induction h with
  | entry _ hD => exact ⟨by simp, hD⟩
  | child _ _ _ hlt _ =>
    simp only [List.length_append, List.length_singleton]
    omega

theorem LineView.of_eq_view {l : Line} {st : WalkState} {D : Nat} {tr : Trail}
    (h : LineView.of l st = tr.view D) (hpos : 0 < tr.length) (hle : tr.length ≤ D) :
    l.shape = tr.shape ∧ st.connectors.flags = tr.connectors.map .bool ∧
      st.depth + (tr.length - 1) = D ∧ st.suppressed.held = tr.held := by
  simp only [LineView.of, Trail.view, LineView.mk.injEq] at h
  obtain ⟨hshape, hstack, hdepth, hheld⟩ := h
  exact ⟨hshape, hstack, by omega, hheld⟩

/-- The walker's state at each line: headings in the restored state, and each row of a reached
trail with its ancestors' flags, the budget less its level, and its choices and cases held. -/
theorem walker_line_states {doc : Value} {ctx : Context} (hload : Context.load doc = .ok ctx)
    {m : Module} (hm : m ∈ ctx.modules) {opts : Options} {s : Settings}
    (hs : opts.check = .ok s) (n : Nat) :
    let env := Env.ofModule ctx m s
    let expected := (sections env ctx.schemaTree m).flatMap fun sec =>
      LineView.heading s.budget :: (trails env s.budget [] sec.entries).map (Trail.view s.budget)
    ∃ ys w, (Walker.start ctx ctx.schemaTree m s).take n = .ok (ys, w) ∧
      ys.map (fun y => LineView.of y.1 y.2) <+: expected ∧
      (ys.length < n → ys.map (fun y => LineView.of y.1 y.2) = expected) ∧
      ∀ y ∈ ys, (y.1.shape = (none, []) ∧ y.2.Restored s.budget) ∨
        ∃ sec ∈ sections env ctx.schemaTree m, ∃ tr, Reached env s.budget sec.entries tr ∧
          y.1.shape = tr.shape ∧ y.2.connectors.flags = tr.connectors.map .bool ∧
          y.2.depth + (tr.length - 1) = s.budget ∧ y.2.suppressed.held = tr.held ∧
          (∀ p, y.2.suppressed.has p = true ↔ p ∈ tr.held) ∧
          ∀ p, y.2.suppressed.count p = tr.held.count p := by
  intro env expected
  have hsound := sound_of_mem_sections (Context.placed_of_load hload) hm env
  have hD := Options.budget_pos_of_check hs
  have hstart : Runs env s.budget (Walker.start ctx ctx.schemaTree m s).state
      (Walker.start ctx ctx.schemaTree m s).rest expected := by
    rw [Walker.start_eq_sections]
    exact runs_sections env hD ⟨rfl, rfl, rfl⟩ _ hsound
  obtain ⟨ys, w, rest, htake, hout, hall⟩ :=
    (Walker.start ctx ctx.schemaTree m s).take_keeps n (runs_keeps _ _) hstart
  refine ⟨ys, w, htake, ⟨rest, hout.symm⟩, fun hlt => by rw [hout, hall hlt, List.append_nil], ?_⟩
  intro y hy
  have hmem : LineView.of y.1 y.2 ∈ expected :=
    hout ▸ List.mem_append_left _ (List.mem_map_of_mem hy)
  simp only [expected, List.mem_flatMap, List.mem_cons, List.mem_map] at hmem
  obtain ⟨sec, hsec, hv | ⟨tr, htr, hv⟩⟩ := hmem
  · simp only [LineView.of, LineView.heading, LineView.mk.injEq] at hv
    obtain ⟨hshape, hstack, hdepth, hheld⟩ := hv
    exact .inl ⟨hshape, hdepth, hstack, hheld⟩
  · have hreach := (mem_trails_iff_reached env _ _ tr).mp htr
    obtain ⟨hpos, hle⟩ := hreach.length_le
    obtain ⟨hshape, hstack, hdepth, hheld⟩ := LineView.of_eq_view hv.symm hpos hle
    refine .inr ⟨sec, hsec, tr, hreach, hshape, hstack, hdepth, hheld, fun p => ?_, fun p => ?_⟩
    · rw [Scopes.has_eq_contains, hheld, List.contains_iff_mem]
    · rw [Scopes.count_eq_count_held, hheld]

open ImportSample in
theorem walker_line_states_acModule :
    Context.load importDoc = .ok ⟨[acModule, bModule]⟩ ∧ acModule ∈ [acModule, bModule] ∧
      ({} : Options).check = .ok ⟨{}, unbounded, unbounded⟩ ∧
      let ctx : Context := ⟨[acModule, bModule]⟩
      let s : Settings := ⟨{}, unbounded, unbounded⟩
      let env := Env.ofModule ctx acModule s
      let expected := (sections env ctx.schemaTree acModule).flatMap fun sec =>
        LineView.heading s.budget :: (trails env s.budget [] sec.entries).map (Trail.view s.budget)
      ∃ ys w, (Walker.start ctx ctx.schemaTree acModule s).take 3 = .ok (ys, w) ∧
        ys.map (fun y => LineView.of y.1 y.2) <+: expected ∧
        (ys.length < 3 → ys.map (fun y => LineView.of y.1 y.2) = expected) ∧
        ∀ y ∈ ys, (y.1.shape = (none, []) ∧ y.2.Restored s.budget) ∨
          ∃ sec ∈ sections env ctx.schemaTree acModule, ∃ tr,
            Reached env s.budget sec.entries tr ∧ y.1.shape = tr.shape ∧
            y.2.connectors.flags = tr.connectors.map .bool ∧
            y.2.depth + (tr.length - 1) = s.budget ∧ y.2.suppressed.held = tr.held ∧
            (∀ p, y.2.suppressed.has p = true ↔ p ∈ tr.held) ∧
            ∀ p, y.2.suppressed.count p = tr.held.count p :=
  ⟨load_importDoc, List.mem_cons_self, Options.check_default,
    walker_line_states load_importDoc List.mem_cons_self Options.check_default 3⟩

end YangDiagram.Diagram
