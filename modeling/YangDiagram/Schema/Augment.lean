-- Augments: a target path is resolved step by step by namespace and local name, and nodes are
-- added at the end of the target's lists, so the `Address` of a node stays valid while later
-- augments add more.
import YangDiagram.Schema.Build

namespace YangDiagram.Schema

open YangDiagram.Json

inductive Top where
  | data (i : Nat)
  | rpc (i : Nat)
  | notification (i : Nat)
  deriving DecidableEq, Inhabited

/-- Where a node stands in a list of modules: the module, its top-level node, and the steps below. -/
structure Address where
  module : Nat
  top : Top
  steps : List Slot
  deriving DecidableEq, Inhabited

namespace Module

/-- The top-level nodes of a module with their places: data nodes, then rpcs, then notifications. -/
def tops (m : Module) : List (Top × Node) :=
  m.dataNodes.zipIdx.map (fun (n, i) => (.data i, n)) ++
    m.rpcs.zipIdx.map (fun (n, i) => (.rpc i, n)) ++
    m.notifications.zipIdx.map (fun (n, i) => (.notification i, n))

def modifyTop (f : Node → Node) (m : Module) : Top → Module
  | .data i => { m with dataNodes := m.dataNodes.modify i f }
  | .rpc i => { m with rpcs := m.rpcs.modify i f }
  | .notification i => { m with notifications := m.notifications.modify i f }

end Module

def nodeAt? (mods : List Module) (a : Address) : Option Node :=
  (mods[a.module]?).bind fun m =>
    ((m.tops.find? (·.1 = a.top)).map (·.2)).bind (Node.nodeAt? a.steps)

def modifyAt (mods : List Module) (a : Address) (f : Node → Node) : List Module :=
  mods.modify a.module fun m => m.modifyTop (Node.modifyAt f a.steps) a.top

/-- The index of the module of a name that prefixes resolve to: the first of its latest revision. -/
def latestIndex (mods : List Module) (name : Text) : Option Nat :=
  (firstLatest (·.1.revision) (mods.zipIdx.filter (·.1.name = name))).map (·.2)

/-- A resolved target: its qualified names, where it stands, the node, and the body reached. -/
structure Target where
  path : List QName
  address : Address
  node : Node
  body : Option Body

/-- One step of a target path, from the target reached so far. -/
def stepTarget (sc : Scope) (mods : List Module) (text place : Text) (sofar : Option Target)
    (segment : Text) : Except LoadError Target := do
  let (pre, localName) := match segment.splitOn (Text.unit ':') with
    | [l] => (sc.prefixName, l)
    | p :: rest => (p, Text.intercalate ":" rest)
    | [] => (sc.prefixName, segment)
  let moduleName ← sc.resolve pre place
  let notFound : LoadError := .targetNotFound text sc.name place
  let some mi := latestIndex mods moduleName | throw notFound
  let some m := mods[mi]? | throw notFound
  let q : QName := ⟨m.name, m.namespaceUri, localName⟩
  let found : Option (Address × Node) := match sofar with
    | none => (m.tops.find? (·.2.qname.same q)).map fun (t, n) => (⟨mi, t, []⟩, n)
    | some t => (t.node.slots.find? (·.2.qname.same q)).map fun (s, n) =>
        ({ t.address with steps := t.address.steps ++ [s] }, n)
  let some (a, n) := found | throw notFound
  let body := match n.kind with
    | .input => some .input
    | .output => some .output
    | _ => (sofar.bind (·.body))
  pure ⟨(sofar.map (·.path)).getD [] ++ [q], a, n, body⟩

/-- Resolves the target path of an augment statement of a module. -/
def resolveTarget (sc : Scope) (mods : List Module) (text place : Text) :
    Except LoadError Target := do
  let found ← ((text.splitOn (Text.unit '/')).drop 1).foldlM
    (fun sofar seg => some <$> stepTarget sc mods text place sofar seg) none
  match found with
  | some t => pure t
  | none => throw (.targetNotFound text sc.name place)

/-- The number of children (cases of a choice) and of actions a node has. -/
def Node.counts (n : Node) : Nat × Nat :=
  match n with
  | .container _ _ cs as | .list _ _ cs as => (cs.length, as.length)
  | .choice _ _ cs | .case _ cs | .input _ cs | .output _ cs | .notification _ cs => (cs.length, 0)
  | _ => (0, 0)

/-- Builds an augment node from its statement and adds it under the target, giving the modules
after the addition and the address of the new node. -/
def attach (sc : Scope) (mods : List Module) (target : Target) (raw : Value) (place : Text) :
    Except LoadError (List Module × Address) := do
  let t := target.node
  let kind := (raw.textAt? "kind").getD ""
  let refuse : LoadError := .refused kind t.kind sc.name place
  let parent : Parent := ⟨t.path, t.info.config, true⟩
  let (children, actions) := t.counts
  let under (s : Slot) : Address := { target.address with steps := target.address.steps ++ [s] }
  match t.kind with
  | .container | .list =>
    if kind = "case" then throw refuse
    else if kind = "action" then
      let a ← buildOperation sc raw true parent place
      pure (modifyAt mods target.address (Node.addAction a), under (.action actions))
    else
      let n ← buildDataNode sc raw parent place
      pure (modifyAt mods target.address (Node.addChild n), under (.child children))
  | .choice =>
    if kind = "action" then throw refuse
    else
      let n ← buildCase sc raw parent place
      pure (modifyAt mods target.address (Node.addChild n), under (.child children))
  | .case | .input | .output | .notification =>
    if kind = "case" ∨ kind = "action" then throw refuse
    else
      let p := if t.kind = .notification then { parent with config := some false } else parent
      let n ← buildDataNode sc raw p place
      pure (modifyAt mods target.address (Node.addChild n), under (.child children))
  | _ => throw refuse

/-- An augment statement applied: the target it resolved to and the addresses of its nodes. -/
structure Applied where
  targetText : Text
  target : Target
  added : List Address

/-- Applies one augment statement of a module: resolves its target, then adds its nodes in order,
each under the target as the earlier ones left it. -/
def applyAugment (sc : Scope) (mods : List Module) (raw : Value) (place : Text) :
    Except LoadError (List Module × Applied) := do
  let text := (raw.textAt? "target").getD ""
  let target ← resolveTarget sc mods text (place ++ "/target")
  let (mods, added) ← (raw.itemsAt "nodes").zipIdx.foldlM
    (fun (acc : List Module × List Address) (n, j) => do
      let some node := nodeAt? acc.1 target.address
        | throw (LoadError.targetNotFound text sc.name (place ++ "/target"))
      let (mods', a) ← attach sc acc.1 { target with node } n (itemPlace place "nodes" j)
      pure (mods', acc.2 ++ [a]))
    (mods, [])
  pure (mods, ⟨text, target, added⟩)

end YangDiagram.Schema
