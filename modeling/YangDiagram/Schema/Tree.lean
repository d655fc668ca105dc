-- The schema tree: entries keyed by path, each with a node, its path and whether an augment
-- added it. The root holds every module's top-level nodes, then every augment's nodes, a
-- repeated key taking the earlier entry's place.
import YangDiagram.Schema.Node

namespace YangDiagram.Schema

/-- An entry of the schema tree. -/
inductive SchemaTree where
  | mk (node : Option Node) (path : List QName) (augmenting : Bool)
      (children : List (Text × SchemaTree))
  deriving Inhabited

namespace SchemaTree

/-- The node of an entry; none at the root. -/
def node : SchemaTree → Option Node
  | mk n .. => n

def path : SchemaTree → List QName
  | mk _ p .. => p

def augmenting : SchemaTree → Bool
  | mk _ _ a _ => a

/-- The keyed entries under an entry, in order. -/
def children : SchemaTree → List (Text × SchemaTree)
  | mk _ _ _ cs => cs

/-- The namespace of an entry: that of the last step of its path. -/
def namespaceUri? (t : SchemaTree) : Option Text :=
  t.path.getLast?.map (·.namespaceUri)

def kind? (t : SchemaTree) : Option Kind := t.node.map Node.kind

/-- Adds an entry under its path key: in place of an entry with the same key, else at the end. -/
def add (t : SchemaTree) (c : SchemaTree) : SchemaTree :=
  match t with
  | mk n p a cs => mk n p a (putKey cs (pathKey c.path) c)

def childTrees (t : SchemaTree) : List SchemaTree := t.children.map (·.2)

/-- The entries under an entry whose nodes are not actions, in order. -/
def dataChildren (t : SchemaTree) : List SchemaTree :=
  t.childTrees.filter fun c => c.kind? ≠ some .action

def actionChildren (t : SchemaTree) : List SchemaTree :=
  t.childTrees.filter fun c => c.kind? = some .action

theorem mem_of_mem_dataChildren {t c : SchemaTree} (h : c ∈ t.dataChildren) :
    c ∈ t.childTrees :=
  (List.mem_filter.mp h).1

theorem mem_of_mem_actionChildren {t c : SchemaTree} (h : c ∈ t.actionChildren) :
    c ∈ t.childTrees :=
  (List.mem_filter.mp h).1

theorem sizeOf_lt_of_mem_childTrees {t c : SchemaTree} (h : c ∈ t.childTrees) :
    sizeOf c < sizeOf t := by
  cases t with
  | mk n p a cs =>
    simp only [childTrees, children, List.mem_map] at h
    obtain ⟨⟨k, c'⟩, hm, rfl⟩ := h
    have := List.sizeOf_lt_of_mem hm
    simp at this ⊢
    omega

end SchemaTree

theorem Node.sizeOf_lt_of_mem_childNodes {n c : Node} (h : c ∈ n.childNodes) :
    sizeOf c < sizeOf n := by
  cases n with
  | container i p cs as =>
    simp only [Node.childNodes, List.mem_append] at h
    rcases h with h | h
    · have := List.sizeOf_lt_of_mem h; simp; omega
    · have := List.sizeOf_lt_of_mem h; simp; omega
  | list i k cs as =>
    simp only [Node.childNodes, List.mem_append] at h
    rcases h with h | h
    · have := List.sizeOf_lt_of_mem h; simp; omega
    · have := List.sizeOf_lt_of_mem h; simp; omega
  | choice i m cs =>
    simp only [Node.childNodes] at h
    have := List.sizeOf_lt_of_mem h; simp; omega
  | case i cs =>
    simp only [Node.childNodes] at h
    have := List.sizeOf_lt_of_mem h; simp; omega
  | input i cs =>
    simp only [Node.childNodes] at h
    have := List.sizeOf_lt_of_mem h; simp; omega
  | output i cs =>
    simp only [Node.childNodes] at h
    have := List.sizeOf_lt_of_mem h; simp; omega
  | notification i cs =>
    simp only [Node.childNodes] at h
    have := List.sizeOf_lt_of_mem h; simp; omega
  | rpc i a b =>
    simp only [Node.childNodes, List.mem_cons, List.not_mem_nil, or_false] at h
    rcases h with rfl | rfl
    · simp only [Node.rpc.sizeOf_spec]; omega
    · simp only [Node.rpc.sizeOf_spec]; omega
  | action i a b =>
    simp only [Node.childNodes, List.mem_cons, List.not_mem_nil, or_false] at h
    rcases h with rfl | rfl
    · simp only [Node.action.sizeOf_spec]; omega
    · simp only [Node.action.sizeOf_spec]; omega
  | leaf => simp [Node.childNodes] at h
  | leafList => simp [Node.childNodes] at h
  | anydata => simp [Node.childNodes] at h
  | anyxml => simp [Node.childNodes] at h

/-- The entry of a node: the node, its path, and the entries of the nodes under it. -/
def SchemaTree.ofNode (n : Node) : SchemaTree :=
  n.childNodes.attach.foldl (fun t ⟨c, _⟩ => t.add (ofNode c)) (.mk (some n) n.path n.info.augmenting [])
termination_by sizeOf n
decreasing_by exact Node.sizeOf_lt_of_mem_childNodes (by assumption)

/-- The schema tree of a context: every module's top-level data nodes, then every augment
statement's nodes. -/
def Context.schemaTree (ctx : Context) : SchemaTree :=
  let root := ctx.modules.foldl (fun t m => m.dataNodes.foldl (fun t n => t.add (.ofNode n)) t)
    (.mk none [] false [])
  ctx.modules.foldl (fun t m =>
    m.augments.foldl (fun t a => a.nodes.foldl (fun t n => t.add (.ofNode n)) t) t) root

end YangDiagram.Schema
