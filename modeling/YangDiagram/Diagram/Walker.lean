-- The walker: a machine over the instructions still to run, innermost first, that gives a
-- diagram out one line at a time, keeping the depth budget, the connector stack and the
-- suppressed positions between lines. Finally blocks undo each change; `Walker.stop` runs them.
import YangDiagram.Diagram.Walk

namespace YangDiagram.Schema.SchemaTree

/-- A weight of an entry that pays for every step the walker takes below it. -/
def weight : SchemaTree → Nat
  | mk _ _ _ cs => 3 + weights cs
where
  /-- The weights of keyed entries, each with six more for the steps around it. -/
  weights : List (Text × SchemaTree) → Nat
    | [] => 0
    | (_, c) :: rest => c.weight + 6 + weights rest

/-- The weight of a list of entries, each with six more for the steps around it. -/
def listWeight : List SchemaTree → Nat
  | [] => 0
  | t :: ts => t.weight + 6 + listWeight ts

theorem weight_eq (t : SchemaTree) : t.weight = 3 + listWeight t.childTrees := by
  cases t with
  | mk n p a cs =>
    have h : ∀ cs : List (Text × SchemaTree), weight.weights cs = listWeight (cs.map (·.2)) := by
      intro cs
      induction cs with
      | nil => rfl
      | cons c cs ih =>
        obtain ⟨k, c⟩ := c
        simp only [weight.weights, ih, List.map_cons, listWeight]
    simp only [weight, childTrees, children, h]

theorem listWeight_le_of_sublist {a b : List SchemaTree} (h : List.Sublist a b) :
    listWeight a ≤ listWeight b := by
  induction h with
  | slnil => exact Nat.le_refl _
  | cons t _ ih => simp only [listWeight]; omega
  | cons_cons t _ ih => simp only [listWeight]; omega

theorem listWeight_perm {a b : List SchemaTree} (h : List.Perm a b) :
    listWeight a = listWeight b := by
  induction h with
  | nil => rfl
  | cons t _ ih => simp only [listWeight, ih]
  | swap s t l => simp only [listWeight]; omega
  | trans _ _ ih₁ ih₂ => exact ih₁.trans ih₂

end YangDiagram.Schema.SchemaTree

namespace YangDiagram.Diagram

open YangDiagram.Json YangDiagram.Schema

/-- What every row of a module's diagram is drawn with: the module and the prefixes shown. -/
def Env.ofModule (ctx : Context) (m : Module) (s : Settings) : Env :=
  ⟨m, prefixMap ctx m s.byModuleName s.prefixOwn⟩

/-- What a walker keeps between lines: the depth budget left, the connector flags, and the
suppressed positions. -/
structure WalkState where
  depth : Nat
  connectors : Connectors
  suppressed : Scopes Nat

def WalkState.flags (st : WalkState) : List Bool := st.connectors.flags.map Value.truthy

/-- What a row is planned with when its list of siblings is reached: the connector flags, the
depth budget, its role, and the keys in scope. -/
structure Plan where
  connectors : List Bool
  depth : Nat
  role : Role
  keys : Option KeyScope

/-- The place a planned row is drawn at, with the positions suppressed when it is drawn. -/
def Plan.place (p : Plan) (s : Scopes Nat) : Place := ⟨p.connectors, p.depth, s, p.role, p.keys⟩

/-- A finally block: let go of a handle on a position, pop a connector flag, or put the depth
budget back to a value. -/
inductive Cleanup where
  | release (h : Nat)
  | pop
  | restore (depth : Nat)

/-- Runs a finally block; popping an empty stack fails. -/
def Cleanup.run (st : WalkState) : Cleanup → Except Text WalkState
  | .release h => .ok { st with suppressed := st.suppressed.release h }
  | .pop =>
    match st.connectors.pop? with
    | some c => .ok { st with connectors := c }
    | none => .error Connectors.emptyMessage
  | .restore d => .ok { st with depth := d }

inductive Instr where
  /-- Give out a line. -/
  | emit (l : Line)
  /-- Plan a list of siblings in a role, with the keys in scope. -/
  | siblings (ts : List SchemaTree) (role : Role) (keys : Option KeyScope)
  /-- Draw a planned row, then go below it; `more` says whether a later sibling follows. -/
  | item (t : SchemaTree) (n : Node) (p : Plan) (more : Bool) (width : Nat)
  /-- Go below a drawn row. -/
  | descend (t : SchemaTree) (n : Node) (p : Plan) (more : Bool)
  /-- Draw what is under a row. -/
  | children (t : SchemaTree) (n : Node) (p : Plan)
  /-- A finally block. -/
  | cleanup (c : Cleanup)

/-- The rows of a list of siblings planned from a state: the entries that have a node, each with
the flags and budget of the state, its role, the keys, and whether a later one follows. -/
def planRows (st : WalkState) (role : Role) (keys : Option KeyScope) (ts : List SchemaTree)
    (width : Nat) : List Instr :=
  let items := ts.filter (·.node.isSome)
  items.zipIdx.filterMap fun (t, i) =>
    t.node.map fun n => .item t n ⟨st.flags, st.depth, roleOf n role, keys⟩ (i + 1 < items.length) width

/-- What one instruction does: the line it gives out, if any, the state after it, and the
instructions that take its place. -/
def Instr.step (env : Env) (st : WalkState) : Instr →
    Except Text (Option Line × WalkState × List Instr)
  | .emit l => .ok (some l, st, [])
  | .siblings ts role keys =>
    let w := typeWidth env (ts.filter (·.node.isSome)) ⟨st.flags, st.depth, st.suppressed, role, keys⟩
    .ok (none, st, planRows st role keys ts w)
  | .item t n p more w =>
    let place := p.place st.suppressed
    let line := Line.row n place (rowOf env n place w)
    if n.kind = .case then
      .ok (some line, { st with suppressed := st.suppressed.acquire (t.path.length - 1 : Nat) },
        [.descend t n p more, .cleanup (.release st.suppressed.handles.length)])
    else .ok (some line, st, [.descend t n p more])
  | .descend t n p more =>
    -- the budget is set before the test, and put back in the finally block either way
    if p.depth ≤ 1 then .ok (none, { st with depth := p.depth - 1 }, [.cleanup (.restore p.depth)])
    else
      .ok (none, { st with depth := p.depth - 1, connectors := st.connectors.push (.bool more) },
        [.children t n p, .cleanup .pop, .cleanup (.restore p.depth)])
  | .children t n p =>
    let plan := childPlan env t n (p.place st.suppressed)
    if n.kind = .choice then
      .ok (none, { st with suppressed := plan.2.suppressed },
        [.siblings plan.1 plan.2.role plan.2.keys, .cleanup (.release st.suppressed.handles.length)])
    else .ok (none, st, [.siblings plan.1 plan.2.role plan.2.keys])
  | .cleanup c => (c.run st).map fun st' => (none, st', [])

/-- The weight of an instruction: more than the weight of what it puts in its place. -/
def Instr.weight : Instr → Nat
  | .emit _ | .cleanup _ => 1
  | .siblings ts _ _ => 1 + SchemaTree.listWeight ts
  | .item t .. => t.weight + 5
  | .descend t .. => t.weight + 3
  | .children t .. => t.weight

def weightOf : List Instr → Nat
  | [] => 0
  | i :: k => i.weight + weightOf k

@[simp] theorem weightOf_nil : weightOf [] = 0 := rfl

@[simp] theorem weightOf_cons (i : Instr) (k : List Instr) :
    weightOf (i :: k) = i.weight + weightOf k := rfl

@[simp] theorem weightOf_append (a b : List Instr) : weightOf (a ++ b) = weightOf a + weightOf b := by
  induction a with
  | nil => simp
  | cons i a ih => simp only [List.cons_append, weightOf_cons, ih]; omega

theorem weightOf_planRows_le (st : WalkState) (role : Role) (keys : Option KeyScope)
    (ts : List SchemaTree) (w : Nat) :
    weightOf (planRows st role keys ts w) ≤ SchemaTree.listWeight ts := by
  have hfm : ∀ (xs : List (SchemaTree × Nat)) (f : SchemaTree × Nat → Option Instr),
      (∀ x i, f x = some i → i.weight ≤ x.1.weight + 5) →
      weightOf (xs.filterMap f) ≤ SchemaTree.listWeight (xs.map Prod.fst) := by
    intro xs f hf
    induction xs with
    | nil => simp
    | cons x xs ih =>
      rw [List.filterMap_cons]
      cases hx : f x with
      | none => simp only [List.map_cons, SchemaTree.listWeight]; omega
      | some i =>
        have := hf x i hx
        simp only [weightOf_cons, List.map_cons, SchemaTree.listWeight]
        omega
  have hitems := SchemaTree.listWeight_le_of_sublist
    (List.filter_sublist (p := fun t : SchemaTree => t.node.isSome) (l := ts))
  refine Nat.le_trans (hfm _ _ ?_) (by rw [List.zipIdx_map_fst]; exact hitems)
  rintro ⟨t, i⟩ ins h
  simp only [Option.map_eq_some_iff] at h
  obtain ⟨n, -, rfl⟩ := h
  simp [Instr.weight]

theorem childPlan_weight_le (env : Env) (t : SchemaTree) (n : Node) (pl : Place) :
    SchemaTree.listWeight (childPlan env t n pl).1 ≤ SchemaTree.listWeight t.childTrees := by
  have hperm : List.Perm (t.dataChildren ++ t.actionChildren) t.childTrees := by
    have h := List.filter_append_perm (fun c : SchemaTree => decide (c.kind? ≠ some .action))
      t.childTrees
    have ha : t.childTrees.filter (fun c => !decide (c.kind? ≠ some .action)) =
        t.actionChildren := by
      simp [SchemaTree.actionChildren]
    rw [ha] at h
    exact h
  have hboth : ∀ {l : List SchemaTree}, List.Sublist l (t.dataChildren ++ t.actionChildren) →
      SchemaTree.listWeight l ≤ SchemaTree.listWeight t.childTrees := by
    intro l h
    calc SchemaTree.listWeight l
        ≤ SchemaTree.listWeight (t.dataChildren ++ t.actionChildren) :=
          SchemaTree.listWeight_le_of_sublist h
      _ = SchemaTree.listWeight t.childTrees := SchemaTree.listWeight_perm hperm
  have hdata : ∀ {l : List SchemaTree}, List.Sublist l t.dataChildren →
      SchemaTree.listWeight l ≤ SchemaTree.listWeight t.childTrees :=
    fun h => SchemaTree.listWeight_le_of_sublist (h.trans List.filter_sublist)
  unfold childPlan ownTrees
  split
  · exact hdata List.filter_sublist
  · exact hdata List.filter_sublist
  · exact hboth List.filter_sublist
  · exact hdata List.filter_sublist
  · exact hdata List.filter_sublist
  · exact hboth List.filter_sublist
  · exact hboth List.filter_sublist
  · exact hboth List.filter_sublist
  · exact hboth List.filter_sublist
  · simp [SchemaTree.listWeight]

/-- Every step puts in its place instructions that weigh less than it did. -/
theorem Instr.weightOf_step_lt {env : Env} {st : WalkState} {i : Instr}
    {out : Option Line} {st' : WalkState} {new : List Instr}
    (h : i.step env st = .ok (out, st', new)) : weightOf new < i.weight := by
  cases i with
  | emit l =>
    simp only [Instr.step, Except.ok.injEq, Prod.mk.injEq] at h
    obtain ⟨-, -, rfl⟩ := h
    simp [Instr.weight]
  | siblings ts role keys =>
    simp only [Instr.step, Except.ok.injEq, Prod.mk.injEq] at h
    obtain ⟨-, -, rfl⟩ := h
    have h1 := weightOf_planRows_le st role keys ts
      (typeWidth env (ts.filter (·.node.isSome)) ⟨st.flags, st.depth, st.suppressed, role, keys⟩)
    simp only [Instr.weight]
    omega
  | item t n p more w =>
    simp only [Instr.step] at h
    split at h
    · simp only [Except.ok.injEq, Prod.mk.injEq] at h
      obtain ⟨-, -, rfl⟩ := h
      simp [Instr.weight]
    · simp only [Except.ok.injEq, Prod.mk.injEq] at h
      obtain ⟨-, -, rfl⟩ := h
      simp [Instr.weight]
  | descend t n p more =>
    simp only [Instr.step] at h
    split at h
    · simp only [Except.ok.injEq, Prod.mk.injEq] at h
      obtain ⟨-, -, rfl⟩ := h
      simp [Instr.weight]
    · simp only [Except.ok.injEq, Prod.mk.injEq] at h
      obtain ⟨-, -, rfl⟩ := h
      simp [Instr.weight]
  | children t n p =>
    have hw := t.weight_eq
    have hle := childPlan_weight_le env t n (p.place st.suppressed)
    simp only [Instr.step] at h
    split at h
    · simp only [Except.ok.injEq, Prod.mk.injEq] at h
      obtain ⟨-, -, rfl⟩ := h
      simp only [weightOf_cons, weightOf_nil, Instr.weight]
      omega
    · simp only [Except.ok.injEq, Prod.mk.injEq] at h
      obtain ⟨-, -, rfl⟩ := h
      simp only [weightOf_cons, weightOf_nil, Instr.weight]
      omega
  | cleanup c =>
    simp only [Instr.step] at h
    cases hc : c.run st with
    | error e => simp [hc, Except.map] at h
    | ok s =>
      simp only [hc, Except.map, Except.ok.injEq, Prod.mk.injEq] at h
      obtain ⟨-, -, rfl⟩ := h
      simp [Instr.weight]

/-- A walker between two lines: what every row is drawn with, its state, and the instructions
still to run, innermost first. -/
structure Walker where
  env : Env
  state : WalkState
  rest : List Instr

namespace Walker

/-- The walker of a module's diagram before its first line: the full budget, no flag, no
position suppressed, and the sections of the diagram still to run. -/
def start (ctx : Context) (tree : SchemaTree) (m : Module) (s : Settings) : Walker :=
  let env := Env.ofModule ctx m s
  let roots := (ownTrees m.namespaceUri tree.childTrees).filter (!·.augmenting)
  ⟨env, ⟨s.budget, {}, {}⟩,
    [.emit (.heading ("module: " ++ m.name)), .siblings roots .plain none] ++
    (groupsOf tree m).flatMap (fun g =>
      [.emit (.heading (groupHeading env.prefixes g.target)), .siblings g.members g.role none]) ++
    (if m.rpcs.isEmpty then []
     else [.emit (.heading "RPCs:"), .siblings (m.rpcs.map SchemaTree.ofNode) .plain none]) ++
    (if m.notifications.isEmpty then []
     else [.emit (.heading "notifications:"),
       .siblings (m.notifications.map SchemaTree.ofNode) .plain none])⟩

/-- Runs instructions until one gives out a line: that line and the walker paused after it, or
no line and the walker at its end. -/
def pull : Walker → Except Text (Option Line × Walker)
  | ⟨env, st, []⟩ => .ok (none, ⟨env, st, []⟩)
  | ⟨env, st, i :: k⟩ =>
    match _hstep : i.step env st with
    | .error e => .error e
    | .ok (some l, st', new) => .ok (some l, ⟨env, st', new ++ k⟩)
    | .ok (none, st', new) => pull ⟨env, st', new ++ k⟩
termination_by w => weightOf w.rest
decreasing_by
  have := Instr.weightOf_step_lt _hstep
  simp only [weightOf_append, weightOf_cons]
  omega

/-- Pulls up to `n` lines, each with the state the walker is paused in after it. -/
def take : Nat → Walker → Except Text (List (Line × WalkState) × Walker)
  | 0, w => .ok ([], w)
  | n + 1, w =>
    match w.pull with
    | .error e => .error e
    | .ok (none, w') => .ok ([], w')
    | .ok (some l, w') => (take n w').map fun (ys, w'') => ((l, w'.state) :: ys, w'')

/-- An early return: runs the finally blocks still pending, innermost first, and nothing else. -/
def stop (w : Walker) : Except Text WalkState :=
  w.rest.foldlM (fun st i =>
    match i with
    | .cleanup c => c.run st
    | _ => .ok st) w.state

end Walker

end YangDiagram.Diagram
