-- Schema nodes and modules, and the keyed lists they are kept in: names qualified by their
-- module, paths of such names, and the nodes under a node in `childNodes` order, reached along
-- `Slot`s that stay valid as lists grow.
import YangDiagram.Text.Basic

namespace YangDiagram.Schema

/-- The value of the first entry with key `k` in an association list. -/
def lookupKey {κ α : Type} [DecidableEq κ] : List (κ × α) → κ → Option α
  | [], _ => none
  | (k', v) :: rest, k => if k' = k then some v else lookupKey rest k

/-- Gives key `k` the value `v` in an association list: in place when the key is there, else as a
new last entry. -/
def putKey {κ α : Type} [DecidableEq κ] : List (κ × α) → κ → α → List (κ × α)
  | [], k, v => [(k, v)]
  | (k', v') :: rest, k, v => if k' = k then (k, v) :: rest else (k', v') :: putKey rest k v

def eraseKey {κ α : Type} [DecidableEq κ] (l : List (κ × α)) (k : κ) : List (κ × α) :=
  l.filter fun e => e.1 ≠ k

section Keys

variable {κ α : Type} [DecidableEq κ]

theorem lookupKey_putKey (k k' : κ) (v : α) :
    ∀ l : List (κ × α), lookupKey (putKey l k v) k' = if k = k' then some v else lookupKey l k'
  | [] => by simp [putKey, lookupKey]
  | (k'', v'') :: rest => by
    simp only [putKey]
    split
    · rename_i hk
      subst hk
      by_cases h : k'' = k' <;> simp [lookupKey, h]
    · rename_i hk
      simp only [lookupKey, lookupKey_putKey k k' v rest]
      by_cases h : k'' = k' <;> by_cases h' : k = k' <;> simp_all

theorem lookupKey_eraseKey (k k' : κ) :
    ∀ l : List (κ × α), lookupKey (eraseKey l k) k' = if k = k' then none else lookupKey l k'
  | [] => by simp [eraseKey, lookupKey]
  | (k'', v'') :: rest => by
    have ih := lookupKey_eraseKey k k' rest
    simp only [eraseKey, ne_eq, decide_not] at ih ⊢
    by_cases h : k'' = k
    · subst h
      rw [List.filter_cons_of_neg (by simp), ih]
      by_cases h' : k'' = k' <;> simp [lookupKey, h']
    · rw [List.filter_cons_of_pos (by simpa using h)]
      by_cases h' : k'' = k'
      · subst h'
        simp [lookupKey, Ne.symm h]
      · simp [lookupKey, h', ih]

theorem mem_of_lookupKey {k : κ} {v : α} :
    ∀ {l : List (κ × α)}, lookupKey l k = some v → (k, v) ∈ l
  | [], h => by simp [lookupKey] at h
  | (k', v') :: rest, h => by
    simp only [lookupKey] at h
    split at h
    · rename_i hk
      cases h
      subst hk
      exact List.mem_cons_self
    · exact List.mem_cons_of_mem _ (mem_of_lookupKey h)

theorem isSome_lookupKey_iff {k : κ} :
    ∀ {l : List (κ × α)}, (lookupKey l k).isSome ↔ k ∈ l.map Prod.fst
  | [] => by simp [lookupKey]
  | (k', v') :: rest => by
    by_cases h : k' = k
    · simp [lookupKey, h]
    · simp [lookupKey, h, Ne.symm h, isSome_lookupKey_iff]

theorem mem_putKey {k : κ} {v : α} :
    ∀ {l : List (κ × α)} {p : κ × α}, p ∈ putKey l k v → p ∈ l ∨ p = (k, v)
  | [], p, h => by simpa [putKey] using h
  | (k', v') :: rest, p, h => by
    simp only [putKey] at h
    split at h
    · simp only [List.mem_cons] at h
      rcases h with rfl | h
      · exact Or.inr rfl
      · exact Or.inl (List.mem_cons_of_mem _ h)
    · simp only [List.mem_cons] at h
      rcases h with rfl | h
      · exact Or.inl List.mem_cons_self
      · rcases mem_putKey h with h | rfl
        · exact Or.inl (List.mem_cons_of_mem _ h)
        · exact Or.inr rfl

theorem putKey_of_forall_ne {k : κ} {v : α} :
    ∀ {cs : List (κ × α)}, (∀ q ∈ cs, q.1 ≠ k) → putKey cs k v = cs ++ [(k, v)]
  | [], _ => rfl
  | (k', v') :: rest, h => by
    rw [putKey, if_neg (h _ List.mem_cons_self),
      putKey_of_forall_ne fun q hq => h q (List.mem_cons_of_mem _ hq)]
    rfl

theorem putKey_putKey (k : κ) (v w : α) :
    ∀ l : List (κ × α), putKey (putKey l k v) k w = putKey l k w
  | [] => by simp [putKey]
  | (k', v') :: rest => by
    by_cases h : k' = k
    · simp [putKey, h]
    · simp [putKey, h, putKey_putKey k v w rest]

theorem putKey_of_lookupKey {k : κ} {v : α} :
    ∀ {l : List (κ × α)}, lookupKey l k = some v → putKey l k v = l
  | [], h => by simp [lookupKey] at h
  | (k', v') :: rest, h => by
    simp only [lookupKey] at h
    split at h
    · rename_i hk
      cases h
      simp [putKey, hk]
    · rename_i hk
      simp [putKey, hk, putKey_of_lookupKey h]

theorem eraseKey_putKey_of_lookupKey_eq_none {l : List (κ × α)} {k : κ}
    (h : lookupKey l k = none) (v : α) : eraseKey (putKey l k v) k = l := by
  have hne : ∀ q ∈ l, q.1 ≠ k := fun q hq heq => by
    have hsome := isSome_lookupKey_iff.mpr (List.mem_map.mpr ⟨q, hq, heq⟩)
    simp [h] at hsome
  rw [putKey_of_forall_ne hne, eraseKey, List.filter_append,
    List.filter_eq_self.mpr (by simpa using hne)]
  simp

theorem keys_putKey (k : κ) (v : α) :
    ∀ l : List (κ × α), (putKey l k v).map Prod.fst =
      if k ∈ l.map Prod.fst then l.map Prod.fst else l.map Prod.fst ++ [k]
  | [] => by simp [putKey]
  | (k', v') :: rest => by
    have ih := keys_putKey k v rest
    by_cases h : k' = k
    · simp [putKey, h]
    · by_cases hm : k ∈ rest.map Prod.fst <;> simp_all [putKey, Ne.symm h]

theorem nodup_keys_putKey {l : List (κ × α)} (h : (l.map Prod.fst).Nodup) (k : κ) (v : α) :
    ((putKey l k v).map Prod.fst).Nodup := by
  rw [keys_putKey]
  split
  · exact h
  · rename_i hk
    refine List.nodup_append.mpr ⟨h, by simp, fun a ha b hb => ?_⟩
    rw [List.mem_singleton] at hb
    subst hb
    exact fun heq => hk (heq ▸ ha)

theorem nodup_keys_eraseKey {l : List (κ × α)} (h : (l.map Prod.fst).Nodup) (k : κ) :
    ((eraseKey l k).map Prod.fst).Nodup :=
  h.sublist (List.filter_sublist.map Prod.fst)

end Keys

/-- A name qualified by the module that defines it. -/
structure QName where
  module : Text
  namespaceUri : Text
  localName : Text
  deriving DecidableEq, Inhabited

/-- Whether two qualified names name the same thing: same namespace and local name. -/
def QName.same (a b : QName) : Bool :=
  a.namespaceUri == b.namespaceUri && a.localName == b.localName

/-- The key of a path: `module:name` for each step, joined by `/`. -/
def pathKey (path : List QName) : Text :=
  Text.intercalate "/" (path.map fun q => q.module ++ ":" ++ q.localName)

/-- The life-cycle status of a definition. -/
inductive Status where
  | current
  | deprecated
  | obsolete
  deriving DecidableEq, Inhabited

/-- The status a word names; any other word is `current`. -/
def Status.ofWord (w : Text) : Status :=
  if w = "deprecated" then .deprecated
  else if w = "obsolete" then .obsolete
  else .current

def Status.word : Status → String
  | .current => "current"
  | .deprecated => "deprecated"
  | .obsolete => "obsolete"

/-- A reference to a type: its name, and where the defining module is known, its namespace, or
else the prefix it was written with; a leafref written without prefix keeps its path. -/
structure TypeRef where
  name : Text
  namespaceUri : Option Text := none
  prefixName : Option Text := none
  path : Option Text := none
  deriving Inhabited

/-- What every schema node has. -/
structure Info where
  qname : QName
  /-- The qualified names from the top of the module to this node. -/
  path : List QName
  status : Status
  /-- Whether the node is configuration; none where configuration does not apply. -/
  config : Option Bool
  ifFeatures : List Text
  /-- Whether an augment statement added the node to its parent. -/
  augmenting : Bool
  deriving Inhabited

/-- The kinds of schema node. -/
inductive Kind where
  | container
  | list
  | leaf
  | leafList
  | choice
  | case
  | anydata
  | anyxml
  | rpc
  | action
  | input
  | output
  | notification
  deriving DecidableEq, Inhabited

def Kind.word : Kind → String
  | .container => "container"
  | .list => "list"
  | .leaf => "leaf"
  | .leafList => "leaf-list"
  | .choice => "choice"
  | .case => "case"
  | .anydata => "anydata"
  | .anyxml => "anyxml"
  | .rpc => "rpc"
  | .action => "action"
  | .input => "input"
  | .output => "output"
  | .notification => "notification"

/-- A schema node with what lies under it. -/
inductive Node where
  | container (info : Info) (presence : Bool) (children : List Node) (actions : List Node)
  | list (info : Info) (keys : List QName) (children : List Node) (actions : List Node)
  | leaf (info : Info) (type : TypeRef) (mandatory : Bool)
  | leafList (info : Info) (type : TypeRef)
  | choice (info : Info) (mandatory : Bool) (cases : List Node)
  | case (info : Info) (children : List Node)
  | anydata (info : Info) (mandatory : Bool)
  | anyxml (info : Info) (mandatory : Bool)
  | rpc (info : Info) (input output : Node)
  | action (info : Info) (input output : Node)
  | input (info : Info) (children : List Node)
  | output (info : Info) (children : List Node)
  | notification (info : Info) (children : List Node)
  deriving Inhabited

namespace Node

def info : Node → Info
  | .container i .. | .list i .. | .leaf i .. | .leafList i .. | .choice i .. | .case i ..
  | .anydata i .. | .anyxml i .. | .rpc i .. | .action i .. | .input i .. | .output i ..
  | .notification i .. => i

def kind : Node → Kind
  | .container .. => .container
  | .list .. => .list
  | .leaf .. => .leaf
  | .leafList .. => .leafList
  | .choice .. => .choice
  | .case .. => .case
  | .anydata .. => .anydata
  | .anyxml .. => .anyxml
  | .rpc .. => .rpc
  | .action .. => .action
  | .input .. => .input
  | .output .. => .output
  | .notification .. => .notification

def qname (n : Node) : QName := n.info.qname

def path (n : Node) : List QName := n.info.path

/-- The nodes directly under a node, in order. -/
def childNodes : Node → List Node
  | .container _ _ cs as => cs ++ as
  | .list _ _ cs as => cs ++ as
  | .choice _ _ cases => cases
  | .case _ cs => cs
  | .input _ cs => cs
  | .output _ cs => cs
  | .notification _ cs => cs
  | .rpc _ i o => [i, o]
  | .action _ i o => [i, o]
  | _ => []

end Node

/-- A step from a node to one directly under it: the `i`-th of its children (the cases of a
choice), the `i`-th of its actions, or its input or output. -/
inductive Slot where
  | child (i : Nat)
  | action (i : Nat)
  | input
  | output
  deriving DecidableEq, Inhabited

namespace Node

/-- The nodes directly under a node with the steps that reach them, in `childNodes` order. -/
def slots : Node → List (Slot × Node)
  | .container _ _ cs as | .list _ _ cs as =>
    cs.zipIdx.map (fun (c, i) => (.child i, c)) ++ as.zipIdx.map (fun (a, i) => (.action i, a))
  | .choice _ _ cs | .case _ cs | .input _ cs | .output _ cs | .notification _ cs =>
    cs.zipIdx.map fun (c, i) => (.child i, c)
  | .rpc _ i o | .action _ i o => [(.input, i), (.output, o)]
  | _ => []

/-- Changes the node one step under a node. -/
def modifySlot (f : Node → Node) : Slot → Node → Node
  | .child i, .container info p cs as => .container info p (cs.modify i f) as
  | .action i, .container info p cs as => .container info p cs (as.modify i f)
  | .child i, .list info k cs as => .list info k (cs.modify i f) as
  | .action i, .list info k cs as => .list info k cs (as.modify i f)
  | .child i, .choice info m cs => .choice info m (cs.modify i f)
  | .child i, .case info cs => .case info (cs.modify i f)
  | .child i, .input info cs => .input info (cs.modify i f)
  | .child i, .output info cs => .output info (cs.modify i f)
  | .child i, .notification info cs => .notification info (cs.modify i f)
  | .input, .rpc info i o => .rpc info (f i) o
  | .output, .rpc info i o => .rpc info i (f o)
  | .input, .action info i o => .action info (f i) o
  | .output, .action info i o => .action info i (f o)
  | _, n => n

/-- Changes the node at the end of a walk of steps under a node. -/
def modifyAt (f : Node → Node) : List Slot → Node → Node
  | [] => f
  | s :: rest => modifySlot (modifyAt f rest) s

/-- The node at the end of a walk of steps under a node. -/
def nodeAt? : List Slot → Node → Option Node
  | [], n => some n
  | s :: rest, n => ((n.slots.find? (·.1 = s)).map (·.2)).bind (nodeAt? rest)

/-- Adds a node after the children of a container, list, case, input, output or notification,
or after the cases of a choice. -/
def addChild (c : Node) : Node → Node
  | .container info p cs as => .container info p (cs ++ [c]) as
  | .list info k cs as => .list info k (cs ++ [c]) as
  | .choice info m cs => .choice info m (cs ++ [c])
  | .case info cs => .case info (cs ++ [c])
  | .input info cs => .input info (cs ++ [c])
  | .output info cs => .output info (cs ++ [c])
  | .notification info cs => .notification info (cs ++ [c])
  | n => n

def addAction (a : Node) : Node → Node
  | .container info p cs as => .container info p cs (as ++ [a])
  | .list info k cs as => .list info k cs (as ++ [a])
  | n => n

end Node

/-- Which body of an operation an augment reaches into. -/
inductive Body where
  | input
  | output
  deriving DecidableEq, Inhabited

def Body.word : Body → String
  | .input => "input"
  | .output => "output"

/-- An augment statement as resolved: its target as written and as qualified names, the body of
an operation it reaches into (the last one on the way), and the nodes it added. -/
structure Augmentation where
  targetText : Text
  target : List QName
  body : Option Body
  nodes : List Node
  deriving Inhabited

/-- A module of the schema. -/
structure Module where
  name : Text
  /-- The prefix the module uses for itself. -/
  prefixName : Text
  namespaceUri : Text
  revision : Option Text
  /-- Each prefix the module can use, with the module it stands for; its own first. -/
  imports : List (Text × Text)
  features : List Text
  dataNodes : List Node
  rpcs : List Node
  notifications : List Node
  augments : List Augmentation
  deriving Inhabited

/-- The modules a document describes, in document order. -/
structure Context where
  modules : List Module
  deriving Inhabited

/-- Whether revision `a` is later than revision `b`: it comes after it as text, code unit by
code unit; no revision counts as the empty text, earlier than any. -/
def laterRevision (a b : Option Text) : Bool :=
  Text.precedes (b.getD ⟨[]⟩).units (a.getD ⟨[]⟩).units

/-- The item kept of `b` and `x`, `b` coming first: `x` only when its revision is later. -/
def keepLater {α : Type} (revision : α → Option Text) (b x : α) : α :=
  if laterRevision (revision x) (revision b) then x else b

/-- The first item of the latest revision: going through the items in order, an item replaces the
one kept only when its revision is later, so among items of one revision the first is kept. -/
def firstLatest {α : Type} (revision : α → Option Text) : List α → Option α
  | [] => none
  | x :: xs => some (xs.foldl (keepLater revision) x)

namespace Context

/-- The module of a name: with a revision, the first module of that name and revision; without,
the first of the latest revision among the modules of that name. -/
def findModule (ctx : Context) (name : Text) (revision : Option Text := none) :
    Option Module :=
  let named := ctx.modules.filter (·.name = name)
  match revision with
  | some r => named.find? (·.revision = some r)
  | none => firstLatest (·.revision) named

def findModuleByNamespace (ctx : Context) (uri : Text) : Option Module :=
  ctx.modules.find? (·.namespaceUri = uri)

end Context

end YangDiagram.Schema
