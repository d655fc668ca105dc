-- The diagram of a module as a function: its heading, the rows of its own top-level nodes, each
-- augment group, then its rpcs and notifications. A row's children are drawn with one level less
-- of budget, one more connector flag, and the keys and suppressed positions in scope.
import YangDiagram.Diagram.Options
import YangDiagram.Diagram.Groups

namespace YangDiagram.Diagram

open YangDiagram.Schema

/-- A line of a diagram: a heading, or the row of a node drawn at a place. -/
inductive Line where
  | heading (text : Text)
  | row (node : Node) (place : Place) (r : Row)
  deriving Inhabited

def Line.text : Line → Text
  | .heading t => t
  | .row _ _ r => r.text

/-- The entries of a list that belong to a namespace. -/
def ownTrees (uri : Text) (ts : List SchemaTree) : List SchemaTree :=
  ts.filter fun t => t.namespaceUri? = some uri

/-- The children drawn under an entry whose node is `n`, and the place they are drawn at. -/
def childPlan (env : Env) (t : SchemaTree) (n : Node) (pl : Place) : List SchemaTree × Place :=
  let own := ownTrees env.module.namespaceUri
  match n with
  | .choice .. =>
    (own t.dataChildren,
      { pl with suppressed := pl.suppressed.acquire (t.path.length - 1 : Nat) })
  | .case .. => (own t.dataChildren, pl)
  | .list _ ks _ _ =>
    (own (t.dataChildren ++ t.actionChildren), { pl with keys := some ⟨t.path, ks⟩ })
  | .rpc .. | .action .. =>
    (t.dataChildren.filter fun b => !(own b.dataChildren).isEmpty, { pl with keys := none })
  | .container .. | .input .. | .output .. | .notification .. =>
    (own (t.dataChildren ++ t.actionChildren), { pl with keys := none })
  | _ => ([], pl)

theorem mem_of_mem_ownTrees {uri : Text} {ts : List SchemaTree} {c : SchemaTree}
    (h : c ∈ ownTrees uri ts) : c ∈ ts :=
  (List.mem_filter.mp h).1

theorem mem_childTrees_of_mem_childPlan {env : Env} {t : SchemaTree} {n : Node} {pl : Place}
    {c : SchemaTree} (h : c ∈ (childPlan env t n pl).1) : c ∈ t.childTrees := by
  unfold childPlan at h
  split at h <;>
    first
      | exact SchemaTree.mem_of_mem_dataChildren (mem_of_mem_ownTrees h)
      | exact SchemaTree.mem_of_mem_dataChildren (List.mem_filter.mp h).1
      | (rcases List.mem_append.mp (mem_of_mem_ownTrees h) with h | h
         · exact SchemaTree.mem_of_mem_dataChildren h
         · exact SchemaTree.mem_of_mem_actionChildren h)
      | simp at h

/-- The type column of a list of siblings: the widest label among those that show a type. -/
def typeWidth (env : Env) (items : List SchemaTree) (pl : Place) : Nat :=
  items.foldl (fun w t =>
    match t.node with
    | some n => if hasTypeColumn n then max w (labelOf env n pl.keys pl.suppressed).width else w
    | none => w) 0

/-- The lines of an entry drawn at a place among siblings with a type column, given whether a
later sibling follows it. -/
def drawTree (env : Env) (pl : Place) (width : Nat) (more : Bool) (t : SchemaTree) : List Line :=
  match t.node with
  | none => []
  | some n =>
    let place := { pl with role := roleOf n pl.role }
    let line := Line.row n place (rowOf env n place width)
    if place.budget ≤ 1 then [line]
    else
      let inner :=
        if n.kind = .case then place.suppressed.acquire (t.path.length - 1 : Nat)
        else place.suppressed
      let below : Place :=
        { place with connectors := place.connectors ++ [more], budget := place.budget - 1,
                     suppressed := inner }
      let plan := childPlan env t n below
      let items := plan.1
      let w := typeWidth env items plan.2
      line :: (items.attach.zipIdx.flatMap fun (⟨c, _⟩, i) =>
        drawTree env plan.2 w (i + 1 < items.length) c)
termination_by sizeOf t
decreasing_by
  exact SchemaTree.sizeOf_lt_of_mem_childTrees
    (mem_childTrees_of_mem_childPlan (by assumption))

/-- The lines of a list of entries, drawn at the left margin with the full budget in a role. -/
def drawEntries (env : Env) (role : Role) (budget : Nat) (trees : List SchemaTree) : List Line :=
  let pl : Place := ⟨[], budget, {}, role, none⟩
  let items := trees.filter (·.node.isSome)
  let w := typeWidth env items pl
  items.zipIdx.flatMap fun (t, i) => drawTree env pl w (i + 1 < items.length) t

/-- The lines of a module's diagram, from the schema tree of its context. -/
def moduleLines (ctx : Context) (tree : SchemaTree) (m : Module) (s : Settings) : List Line :=
  let env : Env := ⟨m, prefixMap ctx m s.byModuleName s.prefixOwn⟩
  let roots := (ownTrees m.namespaceUri tree.childTrees).filter (!·.augmenting)
  [.heading ("module: " ++ m.name)] ++ drawEntries env .plain s.budget roots ++
    (groupsOf tree m).flatMap (fun g =>
      .heading (groupHeading env.prefixes g.target) :: drawEntries env g.role s.budget g.members) ++
    (if m.rpcs.isEmpty then []
     else .heading "RPCs:" :: drawEntries env .plain s.budget (m.rpcs.map SchemaTree.ofNode)) ++
    (if m.notifications.isEmpty then []
     else .heading "notifications:" ::
       drawEntries env .plain s.budget (m.notifications.map SchemaTree.ofNode))

end YangDiagram.Diagram
