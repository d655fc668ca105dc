-- Addresses stay where they are: an augment adds a node at the end of a list of its target, so
-- every node keeps its address and its information, and the added node stands one past the last.
import Mathlib
import YangDiagram.Schema.Augment

namespace YangDiagram.Schema

namespace Node

/-- The node one step under a node. -/
def slot? (s : Slot) (n : Node) : Option Node := (n.slots.find? (·.1 = s)).map (·.2)

/-- The nodes a `child` step reaches: the children of a container, list, case, input, output or
notification, the cases of a choice. -/
def childList : Node → List Node
  | .container _ _ cs _ | .list _ _ cs _ | .choice _ _ cs | .case _ cs | .input _ cs
  | .output _ cs | .notification _ cs => cs
  | _ => []

def actionList : Node → List Node
  | .container _ _ _ as | .list _ _ _ as => as
  | _ => []

def body? : Slot → Node → Option Node
  | .input, .rpc _ i _ | .input, .action _ i _ => some i
  | .output, .rpc _ _ o | .output, .action _ _ o => some o
  | _, _ => none

theorem find?_zipIdx_snd {α : Type} (l : List α) (k i : Nat) :
    (l.zipIdx k).find? (fun x => decide (x.2 = i)) =
      if k ≤ i then l[i - k]?.map (·, i) else none := by
  induction l generalizing k with
  | nil => simp
  | cons a l ih =>
    rw [List.zipIdx_cons, List.find?_cons, ih]
    by_cases h : k = i
    · subst h
      simp
    · have hle : k + 1 ≤ i ↔ k ≤ i := by omega
      simp only [h, decide_false, hle]
      split
      · rw [show i - k = (i - (k + 1)) + 1 by omega]
        simp
      · rfl

theorem find?_false {α : Type} (l : List α) : l.find? (fun _ => false) = none :=
  List.find?_eq_none.mpr (by simp)

-- the steps of each kind are numbered from zero in their own list, so a step finds its node
-- by index
theorem slot?_child (i : Nat) (n : Node) : slot? (.child i) n = (childList n)[i]? := by
  cases n <;> simp [slot?, slots, childList, List.find?_append, Function.comp_def,
    find?_zipIdx_snd, find?_false]

theorem slot?_action (i : Nat) (n : Node) : slot? (.action i) n = (actionList n)[i]? := by
  cases n <;> simp [slot?, slots, actionList, List.find?_append, Function.comp_def,
    find?_zipIdx_snd, find?_false]

theorem slot?_body (s : Slot) (hs : s = .input ∨ s = .output) (n : Node) :
    slot? s n = body? s n := by
  rcases hs with rfl | rfl <;> cases n <;>
    simp [slot?, slots, body?, List.find?_append, find?_false]

theorem counts_eq (n : Node) : n.counts = ((childList n).length, (actionList n).length) := by
  cases n <;> rfl

theorem slot?_modifySlot (g : Node → Node) (s s' : Slot) (n : Node) :
    slot? s (modifySlot g s' n) = if s = s' then (slot? s n).map g else slot? s n := by
  cases s <;> cases s' <;> cases n <;>
    simp [slot?_child, slot?_action, slot?_body, modifySlot, childList, actionList, body?,
      List.getElem?_modify] <;> grind

theorem getElem?_append_of_eq_some {α : Type} {l : List α} {i : Nat} {x : α} (l' : List α)
    (h : l[i]? = some x) : (l ++ l')[i]? = some x := by
  rw [List.getElem?_append_left (List.getElem?_eq_some_iff.mp h).1, h]

theorem childList_addChild (c n : Node) :
    childList (addChild c n) = childList n ∨ childList (addChild c n) = childList n ++ [c] := by
  cases n <;> simp [addChild, childList]

theorem slot?_addChild {c n x : Node} {s : Slot} (h : slot? s n = some x) :
    slot? s (addChild c n) = some x := by
  cases s with
  | child i =>
    rw [slot?_child] at h ⊢
    rcases childList_addChild c n with e | e <;> rw [e]
    · exact h
    · exact getElem?_append_of_eq_some _ h
  | action i =>
    rw [slot?_action] at h ⊢
    cases n <;> exact h
  | input =>
    rw [slot?_body _ (.inl rfl)] at h ⊢
    cases n <;> exact h
  | output =>
    rw [slot?_body _ (.inr rfl)] at h ⊢
    cases n <;> exact h

theorem slot?_addAction {a n x : Node} {s : Slot} (h : slot? s n = some x) :
    slot? s (addAction a n) = some x := by
  cases s with
  | child i =>
    rw [slot?_child] at h ⊢
    cases n <;> exact h
  | action i =>
    rw [slot?_action] at h ⊢
    cases n
    case container | list => exact getElem?_append_of_eq_some _ h
    all_goals exact h
  | input =>
    rw [slot?_body _ (.inl rfl)] at h ⊢
    cases n <;> exact h
  | output =>
    rw [slot?_body _ (.inr rfl)] at h ⊢
    cases n <;> exact h

/-- The kinds of node a child can be added under. -/
def TakesChild (n : Node) : Prop :=
  n.kind = .container ∨ n.kind = .list ∨ n.kind = .choice ∨ n.kind = .case ∨ n.kind = .input ∨
    n.kind = .output ∨ n.kind = .notification

/-- A child added under a node stands at the slot one past its last child. -/
theorem slot?_addChild_length {c n : Node} (h : n.TakesChild) :
    slot? (.child n.counts.1) (addChild c n) = some c := by
  rw [slot?_child, counts_eq]
  unfold TakesChild at h
  cases n <;> simp_all [kind, addChild, childList]

theorem slot?_addAction_length {a n : Node} (h : n.kind = .container ∨ n.kind = .list) :
    slot? (.action n.counts.2) (addAction a n) = some a := by
  rw [slot?_action, counts_eq]
  cases n <;> simp_all [kind, addAction, actionList]

theorem nodeAt?_cons (s : Slot) (rest : List Slot) (n : Node) :
    nodeAt? (s :: rest) n = (slot? s n).bind (nodeAt? rest) := rfl

theorem nodeAt?_append : ∀ (steps more : List Slot) (n : Node),
    nodeAt? (steps ++ more) n = (nodeAt? steps n).bind (nodeAt? more)
  | [], _, _ => rfl
  | s :: rest, more, n => by
    rw [List.cons_append, nodeAt?_cons, nodeAt?_cons, Option.bind_assoc]
    congr 1
    funext x
    exact nodeAt?_append rest more x

@[simp] theorem info_modifySlot (g : Node → Node) (s : Slot) (n : Node) :
    (modifySlot g s n).info = n.info := by
  cases s <;> cases n <;> rfl

@[simp] theorem info_addChild (c n : Node) : (addChild c n).info = n.info := by
  cases n <;> rfl

@[simp] theorem info_addAction (a n : Node) : (addAction a n).info = n.info := by
  cases n <;> rfl

section Frame

/-- A change that keeps a node's information and every node one step under it. -/
structure Keeps (f : Node → Node) : Prop where
  info : ∀ x, (f x).info = x.info
  slot : ∀ {x c : Node} {s : Slot}, slot? s x = some c → slot? s (f x) = some c

theorem keeps_addChild (c : Node) : Keeps (addChild c) :=
  ⟨info_addChild c, slot?_addChild⟩

theorem keeps_addAction (a : Node) : Keeps (addAction a) :=
  ⟨info_addAction a, slot?_addAction⟩

variable {f : Node → Node}

theorem info_modifyAt (hf : Keeps f) : ∀ (steps : List Slot) (n : Node),
    (modifyAt f steps n).info = n.info
  | [], n => hf.info n
  | _ :: _, _ => info_modifySlot _ _ _

-- by induction on the walk to the node, the change's own walk taken apart alongside it
theorem nodeAt?_modifyAt (hf : Keeps f) : ∀ (steps target : List Slot) {n c : Node},
    nodeAt? steps n = some c → ∃ c', nodeAt? steps (modifyAt f target n) = some c' ∧ c'.info = c.info
  | [], target, n, c, h => by
    cases h
    exact ⟨_, rfl, info_modifyAt hf target n⟩
  | s :: rest, [], n, c, h => by
    rw [nodeAt?_cons, Option.bind_eq_some_iff] at h
    obtain ⟨y, hy, hc⟩ := h
    exact ⟨c, by rw [modifyAt, nodeAt?_cons, hf.slot hy, Option.bind_some, hc], rfl⟩
  | s :: rest, s' :: target, n, c, h => by
    rw [nodeAt?_cons, Option.bind_eq_some_iff] at h
    obtain ⟨y, hy, hc⟩ := h
    rw [modifyAt, nodeAt?_cons, slot?_modifySlot]
    by_cases hs : s = s'
    · rw [if_pos hs, hy, Option.map_some, Option.bind_some]
      exact nodeAt?_modifyAt hf rest target hc
    · rw [if_neg hs, hy, Option.bind_some]
      exact ⟨c, hc, rfl⟩

theorem nodeAt?_modifyAt_self : ∀ (steps : List Slot) {n t : Node},
    nodeAt? steps n = some t → nodeAt? steps (modifyAt f steps n) = some (f t)
  | [], n, t, h => by
    cases h
    rfl
  | s :: rest, n, t, h => by
    rw [nodeAt?_cons, Option.bind_eq_some_iff] at h
    obtain ⟨y, hy, ht⟩ := h
    rw [modifyAt, nodeAt?_cons, slot?_modifySlot, if_pos rfl, hy, Option.map_some,
      Option.bind_some]
    exact nodeAt?_modifyAt_self rest ht

end Frame

end Node

namespace Module

def top? (t : Top) (m : Module) : Option Node := (m.tops.find? (·.1 = t)).map (·.2)

theorem top?_eq (t : Top) (m : Module) : top? t m = match t with
    | .data i => m.dataNodes[i]?
    | .rpc i => m.rpcs[i]?
    | .notification i => m.notifications[i]? := by
  cases t <;> simp [top?, tops, List.find?_append, Function.comp_def, Node.find?_zipIdx_snd,
    Node.find?_false]

theorem top?_modifyTop (g : Node → Node) (t t' : Top) (m : Module) :
    top? t (m.modifyTop g t') = if t = t' then (top? t m).map g else top? t m := by
  cases t <;> cases t' <;> simp [top?_eq, modifyTop, List.getElem?_modify] <;> grind

@[simp] theorem name_modifyTop (g : Node → Node) (m : Module) (t : Top) :
    (m.modifyTop g t).name = m.name := by
  cases t <;> rfl

@[simp] theorem namespaceUri_modifyTop (g : Node → Node) (m : Module) (t : Top) :
    (m.modifyTop g t).namespaceUri = m.namespaceUri := by
  cases t <;> rfl

end Module

theorem nodeAt?_eq (mods : List Module) (a : Address) :
    nodeAt? mods a = mods[a.module]?.bind fun m => (m.top? a.top).bind (Node.nodeAt? a.steps) :=
  rfl

theorem nodeAt?_under {mods : List Module} {a : Address} {t : Node} (h : nodeAt? mods a = some t)
    (s : Slot) : nodeAt? mods { a with steps := a.steps ++ [s] } = Node.slot? s t := by
  rw [nodeAt?_eq] at h ⊢
  simp only [Option.bind_eq_some_iff] at h
  obtain ⟨m, hm, x, hx, ht⟩ := h
  simp [hm, hx, Node.nodeAt?_append, ht, Node.nodeAt?, Node.slot?]

section Frame

variable {f : Node → Node}

/-- Changing the node at one address keeps the node at every address, with its information. -/
theorem nodeAt?_modifyAt (hf : Node.Keeps f) {mods : List Module} {a : Address} {c : Node}
    (b : Address) (h : nodeAt? mods a = some c) :
    ∃ c', nodeAt? (modifyAt mods b f) a = some c' ∧ c'.info = c.info := by
  rw [nodeAt?_eq] at h ⊢
  simp only [Option.bind_eq_some_iff] at h
  obtain ⟨m, hm, x, hx, hc⟩ := h
  rw [modifyAt]
  by_cases hmod : b.module = a.module
  · rw [hmod, List.getElem?_modify_eq, hm, Option.map_eq_map, Option.map_some,
      Option.bind_some, Module.top?_modifyTop]
    by_cases htop : a.top = b.top
    · rw [if_pos htop, hx, Option.map_some, Option.bind_some]
      exact Node.nodeAt?_modifyAt hf a.steps b.steps hc
    · rw [if_neg htop, hx, Option.bind_some]
      exact ⟨c, hc, rfl⟩
  · rw [List.getElem?_modify_ne _ _ hmod, hm, Option.bind_some, hx, Option.bind_some]
    exact ⟨c, hc, rfl⟩

theorem nodeAt?_modifyAt_self {mods : List Module} {a : Address} {t : Node}
    (h : nodeAt? mods a = some t) : nodeAt? (modifyAt mods a f) a = some (f t) := by
  rw [nodeAt?_eq] at h ⊢
  simp only [Option.bind_eq_some_iff] at h
  obtain ⟨m, hm, x, hx, ht⟩ := h
  rw [modifyAt, List.getElem?_modify_eq, hm, Option.map_eq_map, Option.map_some,
    Option.bind_some, Module.top?_modifyTop, if_pos rfl, hx, Option.map_some, Option.bind_some]
  exact Node.nodeAt?_modifyAt_self a.steps ht

end Frame

end YangDiagram.Schema
