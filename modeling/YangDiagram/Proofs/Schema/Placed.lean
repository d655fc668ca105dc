-- Where actions can stand: never among the cases of a choice or the children of a case, in the
-- schema of a loaded document and in its schema tree.
import Mathlib.Data.List.Forall2
import YangDiagram.Schema.Load
import YangDiagram.Schema.Tree
import YangDiagram.Proofs.Schema.Built

namespace YangDiagram.Schema

open YangDiagram.Json

/-- No action stands among the cases of a choice or the children of a case, at any depth. -/
inductive Node.Placed : Node → Prop
  | intro {n : Node}
      (under : n.kind = .choice ∨ n.kind = .case → ∀ c ∈ n.childNodes, c.kind ≠ .action)
      (below : ∀ c ∈ n.childNodes, Placed c) : Placed n

namespace Node

theorem Placed.child {n c : Node} (h : n.Placed) (hc : c ∈ n.childNodes) : c.Placed := by
  cases h with
  | intro _ below => exact below c hc

theorem Placed.not_action {n c : Node} (h : n.Placed) (hk : n.kind = .choice ∨ n.kind = .case)
    (hc : c ∈ n.childNodes) : c.kind ≠ .action := by
  cases h with
  | intro under _ => exact under hk c hc

theorem placed_of_children {n : Node} (hk : ∀ c ∈ n.childNodes, c.kind ≠ .action)
    (h : ∀ c ∈ n.childNodes, c.Placed) : n.Placed :=
  .intro (fun _ => hk) h

theorem placed_of_kind {n : Node} (hk : n.kind ≠ .choice ∧ n.kind ≠ .case)
    (h : ∀ c ∈ n.childNodes, c.Placed) : n.Placed :=
  .intro (fun hc => by rcases hc with hc | hc <;> simp_all) h

end Node

theorem forall₂_of_mapM_ok {α β ε : Type} {f : α → Except ε β} :
    ∀ {xs : List α} {ys : List β}, xs.mapM f = .ok ys → List.Forall₂ (fun x y => f x = .ok y) xs ys
  | [], ys, h => by
    simp only [List.mapM_nil, pure, Except.pure, Except.ok.injEq] at h
    subst h
    exact .nil
  | x :: xs, ys, h => by
    simp only [List.mapM_cons, bind, Except.bind, pure, Except.pure] at h
    cases hfx : f x with
    | error e => simp [hfx] at h
    | ok y =>
      cases hrest : xs.mapM f with
      | error e => simp [hfx, hrest] at h
      | ok ys' =>
        simp only [hfx, hrest, Except.ok.injEq] at h
        subst h
        exact .cons hfx (forall₂_of_mapM_ok hrest)

theorem exists_mem_of_forall₂ {α β : Type} {R : α → β → Prop} {xs : List α} {ys : List β}
    (h : List.Forall₂ R xs ys) : ∀ y ∈ ys, ∃ x ∈ xs, R x y := by
  induction h with
  | nil => simp
  | cons hxy _ ih =>
    intro y hy
    rcases List.mem_cons.mp hy with rfl | hy
    · exact ⟨_, List.mem_cons_self, hxy⟩
    · obtain ⟨x, hx, hr⟩ := ih y hy
      exact ⟨x, List.mem_cons_of_mem _ hx, hr⟩

theorem exists_getElem?_of_forall₂ {α β : Type} {R : α → β → Prop} {xs : List α} {ys : List β}
    (h : List.Forall₂ R xs ys) {i : Nat} {x : α} (hx : xs[i]? = some x) :
    ∃ y, ys[i]? = some y ∧ R x y := by
  induction h generalizing i with
  | nil => simp at hx
  | cons hxy _ ih =>
    cases i with
    | zero =>
      simp only [List.getElem?_cons_zero, Option.some.injEq] at hx
      subst hx
      exact ⟨_, rfl, hxy⟩
    | succ i =>
      simp only [List.getElem?_cons_succ] at hx ⊢
      exact ih hx

theorem exists_mem_of_mapM_ok {α β ε : Type} {f : α → Except ε β} {xs : List α} {ys : List β}
    (h : xs.mapM f = .ok ys) : ∀ y ∈ ys, ∃ x ∈ xs, f x = .ok y :=
  exists_mem_of_forall₂ (forall₂_of_mapM_ok h)

theorem placed_of_mem_append {xs ys : List Node} (hx : ∀ c ∈ xs, c.Placed)
    (hy : ∀ c ∈ ys, c.Placed) : ∀ c ∈ xs ++ ys, c.Placed := by
  intro c hc
  rcases List.mem_append.mp hc with hc | hc
  · exact hx c hc
  · exact hy c hc

open Node in
mutual

/-- A data node built from a statement is placed, and is not an action. -/
theorem buildDataNode_placed {sc : Scope} {raw : Value} {parent : Parent} {place : Text}
    {n : Node} (h : buildDataNode sc raw parent place = .ok n) : n.Placed ∧ n.kind ≠ .action := by
  rcases buildDataNode_cases h with ⟨children, actions, hchildren, hactions, hn⟩ |
    ⟨type, -, hn⟩ | ⟨cases, hcases, rfl⟩ | hn
  · have hc : ∀ c ∈ children, c.Placed := fun c hc => by
      obtain ⟨⟨⟨x, hx⟩, i⟩, -, hb⟩ := exists_mem_of_mapM_ok hchildren c hc
      exact (buildDataNode_placed hb).1
    have ha : ∀ a ∈ actions, a.Placed := fun a ha => by
      obtain ⟨⟨⟨x, hx⟩, i⟩, -, hb⟩ := exists_mem_of_mapM_ok hactions a ha
      exact buildOperation_placed hb
    rcases hn with rfl | rfl <;>
      exact ⟨placed_of_kind ⟨nofun, nofun⟩ (placed_of_mem_append hc ha), nofun⟩
  · rcases hn with rfl | rfl <;>
      exact ⟨placed_of_kind ⟨nofun, nofun⟩ (by simp [childNodes]), nofun⟩
  · have hc : ∀ c ∈ cases, c.Placed ∧ c.kind = .case := fun c hc => by
      obtain ⟨⟨⟨x, hx⟩, i⟩, -, hb⟩ := exists_mem_of_mapM_ok hcases c hc
      exact buildCase_placed hb
    refine ⟨placed_of_children (fun c hm => ?_) (fun c hm => (hc c hm).1), nofun⟩
    rw [(hc c hm).2]
    exact nofun
  · rcases hn with rfl | rfl <;>
      exact ⟨placed_of_kind ⟨nofun, nofun⟩ (by simp [childNodes]), nofun⟩
termination_by (sizeOf raw, 0)
decreasing_by
  all_goals
    apply Prod.Lex.left
    exact Value.sizeOf_lt_of_mem_itemsAt hx

theorem buildCase_placed {sc : Scope} {raw : Value} {parent : Parent} {place : Text}
    {n : Node} (h : buildCase sc raw parent place = .ok n) : n.Placed ∧ n.kind = .case := by
  rcases buildCase_cases h with ⟨-, children, hchildren, rfl⟩ | ⟨-, node, hnode, rfl⟩
  · have hc : ∀ c ∈ children, c.Placed ∧ c.kind ≠ .action := fun c hc => by
      obtain ⟨⟨⟨x, hx⟩, i⟩, -, hb⟩ := exists_mem_of_mapM_ok hchildren c hc
      exact buildDataNode_placed hb
    exact ⟨placed_of_children (fun c hm => (hc c hm).2) (fun c hm => (hc c hm).1), rfl⟩
  · have hn := buildDataNode_placed hnode
    refine ⟨placed_of_children (fun c hm => ?_) (fun c hm => ?_), rfl⟩
    · simp only [childNodes, List.mem_singleton] at hm
      subst hm
      exact hn.2
    · simp only [childNodes, List.mem_singleton] at hm
      subst hm
      exact hn.1
termination_by (sizeOf raw, 1)
decreasing_by
  · apply Prod.Lex.left
    exact Value.sizeOf_lt_of_mem_itemsAt hx
  · exact Prod.Lex.right _ (by omega)

theorem buildOperation_placed {sc : Scope} {raw : Value} {isAction : Bool} {parent : Parent}
    {place : Text} {n : Node} (h : buildOperation sc raw isAction parent place = .ok n) :
    n.Placed := by
  obtain ⟨input, output, hinput, houtput, rfl⟩ := buildOperation_cases h
  have hi : ∀ c ∈ input, c.Placed := fun c hc => by
    obtain ⟨⟨⟨x, hx⟩, i⟩, -, hb⟩ := exists_mem_of_mapM_ok hinput c hc
    exact (buildDataNode_placed hb).1
  have ho : ∀ c ∈ output, c.Placed := fun c hc => by
    obtain ⟨⟨⟨x, hx⟩, i⟩, -, hb⟩ := exists_mem_of_mapM_ok houtput c hc
    exact (buildDataNode_placed hb).1
  have hbodies : ∀ (ii oi : Info), ∀ c ∈ [Node.input ii input, Node.output oi output],
      c.Placed := by
    intro ii oi c hc
    simp only [List.mem_cons, List.not_mem_nil, or_false] at hc
    rcases hc with rfl | rfl
    · exact placed_of_kind ⟨nofun, nofun⟩ hi
    · exact placed_of_kind ⟨nofun, nofun⟩ ho
  split
  · exact placed_of_kind ⟨nofun, nofun⟩ (hbodies _ _)
  · exact placed_of_kind ⟨nofun, nofun⟩ (hbodies _ _)
termination_by (sizeOf raw, 0)
decreasing_by
  all_goals
    apply Prod.Lex.left
    exact Value.sizeOf_lt_of_mem_itemsAt hx

end

theorem mem_of_mem_modify {α : Type} {f : α → α} :
    ∀ {l : List α} {i : Nat} {c : α}, c ∈ l.modify i f → c ∈ l ∨ ∃ y ∈ l, c = f y
  | [], _, _, h => by simp at h
  | a :: l, 0, c, h => by
    simp only [List.modify_zero_cons, List.mem_cons] at h
    rcases h with rfl | h
    · exact Or.inr ⟨a, List.mem_cons_self, rfl⟩
    · exact Or.inl (List.mem_cons_of_mem _ h)
  | a :: l, i + 1, c, h => by
    simp only [List.modify_succ_cons, List.mem_cons] at h
    rcases h with rfl | h
    · exact Or.inl List.mem_cons_self
    · rcases mem_of_mem_modify h with h | ⟨y, hy, rfl⟩
      · exact Or.inl (List.mem_cons_of_mem _ h)
      · exact Or.inr ⟨y, List.mem_cons_of_mem _ hy, rfl⟩

theorem forall_mem_modify {α : Type} {P : α → Prop} {f : α → α} {l : List α}
    (hl : ∀ x ∈ l, P x) (hf : ∀ x ∈ l, P (f x)) (i : Nat) : ∀ x ∈ l.modify i f, P x := by
  intro x hx
  rcases mem_of_mem_modify hx with hx | ⟨y, hy, rfl⟩
  · exact hl x hx
  · exact hf y hy

namespace Node

theorem mem_childNodes_modifySlot {f : Node → Node} {s : Slot} {n c : Node}
    (h : c ∈ (n.modifySlot f s).childNodes) : c ∈ n.childNodes ∨ ∃ y ∈ n.childNodes, c = f y := by
  cases s <;> cases n <;> simp only [modifySlot, childNodes] at h ⊢
  all_goals grind [mem_of_mem_modify]

@[simp] theorem kind_modifySlot (f : Node → Node) (s : Slot) (n : Node) :
    (n.modifySlot f s).kind = n.kind := by
  cases s <;> cases n <;> rfl

section Change

variable {f : Node → Node} (hf : ∀ x, x.Placed → (f x).Placed) (hk : ∀ x, (f x).kind = x.kind)

include hf hk in
theorem Placed.modifySlot {n : Node} (hn : n.Placed) (s : Slot) :
    (n.modifySlot f s).Placed := by
  refine .intro (fun hkind c hc => ?_) (fun c hc => ?_)
  · rw [kind_modifySlot] at hkind
    rcases mem_childNodes_modifySlot hc with hc | ⟨y, hy, rfl⟩
    · exact hn.not_action hkind hc
    · rw [hk]
      exact hn.not_action hkind hy
  · rcases mem_childNodes_modifySlot hc with hc | ⟨y, hy, rfl⟩
    · exact hn.child hc
    · exact hf y (hn.child hy)

include hk in
theorem kind_modifyAt : ∀ (steps : List Slot) (n : Node), (modifyAt f steps n).kind = n.kind
  | [], n => hk n
  | _ :: _, _ => kind_modifySlot _ _ _

include hf hk in
/-- A change that keeps nodes placed and keeps their kind keeps placed the node it is made in,
however deep. -/
theorem Placed.modifyAt : ∀ (steps : List Slot) {n : Node}, n.Placed → (modifyAt f steps n).Placed
  | [], _, hn => hf _ hn
  | s :: rest, _, hn =>
    hn.modifySlot (fun _ hx => Placed.modifyAt rest hx) (kind_modifyAt hk rest) s

end Change

theorem mem_childNodes_addChild {c n x : Node} (h : x ∈ (addChild c n).childNodes) :
    x ∈ n.childNodes ∨ x = c := by
  cases n <;> simp only [addChild, childNodes] at h ⊢
  all_goals grind

theorem mem_childNodes_addAction {a n x : Node} (h : x ∈ (addAction a n).childNodes) :
    x ∈ n.childNodes ∨ (x = a ∧ (n.kind = .container ∨ n.kind = .list)) := by
  cases n <;> simp only [addAction, childNodes, kind] at h ⊢
  all_goals grind

@[simp] theorem kind_addChild (c n : Node) : (addChild c n).kind = n.kind := by
  cases n <;> rfl

@[simp] theorem kind_addAction (a n : Node) : (addAction a n).kind = n.kind := by
  cases n <;> rfl

theorem Placed.addChild {c n : Node} (hc : c.Placed) (hk : c.kind ≠ .action) (hn : n.Placed) :
    (addChild c n).Placed := by
  refine .intro (fun hkind x hx => ?_) (fun x hx => ?_)
  · rw [kind_addChild] at hkind
    rcases mem_childNodes_addChild hx with hx | rfl
    · exact hn.not_action hkind hx
    · exact hk
  · rcases mem_childNodes_addChild hx with hx | rfl
    · exact hn.child hx
    · exact hc

/-- An action goes only under a container or a list, never under a choice or a case. -/
theorem Placed.addAction {a n : Node} (ha : a.Placed) (hn : n.Placed) : (addAction a n).Placed := by
  refine .intro (fun hkind x hx => ?_) (fun x hx => ?_)
  · rw [kind_addAction] at hkind
    rcases mem_childNodes_addAction hx with hx | ⟨-, hl⟩
    · exact hn.not_action hkind hx
    · rcases hkind with hkind | hkind <;> rcases hl with hl | hl <;> simp_all
  · rcases mem_childNodes_addAction hx with hx | ⟨rfl, -⟩
    · exact hn.child hx
    · exact ha

theorem mem_childNodes_of_mem_slots {n c : Node} {s : Slot} (h : (s, c) ∈ n.slots) :
    c ∈ n.childNodes := by
  cases n <;> simp only [slots, childNodes] at h ⊢
  all_goals grind [List.fst_mem_of_mem_zipIdx]

theorem Placed.nodeAt : ∀ {steps : List Slot} {n c : Node}, n.Placed → nodeAt? steps n = some c →
    c.Placed
  | [], _, _, hn, h => by
    simp only [nodeAt?, Option.some.injEq] at h
    exact h ▸ hn
  | s :: rest, n, c, hn, h => by
    simp only [nodeAt?, Option.bind_eq_some_iff, Option.map_eq_some_iff] at h
    obtain ⟨y, ⟨p, hp, rfl⟩, hy⟩ := h
    have hmem := List.mem_of_find?_eq_some hp
    exact Placed.nodeAt (hn.child (mem_childNodes_of_mem_slots hmem)) hy

end Node

/-- Every top-level node of a module is placed. -/
structure Module.Placed (m : Module) : Prop where
  data : ∀ n ∈ m.dataNodes, n.Placed
  rpcs : ∀ n ∈ m.rpcs, n.Placed
  notifications : ∀ n ∈ m.notifications, n.Placed

namespace Module

theorem Placed.tops {m : Module} (hm : m.Placed) : ∀ p ∈ m.tops, p.2.Placed := by
  intro p hp
  simp only [Module.tops, List.mem_append, List.mem_map] at hp
  rcases hp with (⟨⟨n, i⟩, hn, rfl⟩ | ⟨⟨n, i⟩, hn, rfl⟩) | ⟨⟨n, i⟩, hn, rfl⟩
  · exact hm.data n (List.fst_mem_of_mem_zipIdx hn)
  · exact hm.rpcs n (List.fst_mem_of_mem_zipIdx hn)
  · exact hm.notifications n (List.fst_mem_of_mem_zipIdx hn)

theorem Placed.modifyTop {f : Node → Node} (hf : ∀ x, x.Placed → (f x).Placed) {m : Module}
    (hm : m.Placed) : ∀ t, (m.modifyTop f t).Placed
  | .data i => ⟨forall_mem_modify hm.data (fun y hy => hf y (hm.data y hy)) i, hm.rpcs,
      hm.notifications⟩
  | .rpc i => ⟨hm.data, forall_mem_modify hm.rpcs (fun y hy => hf y (hm.rpcs y hy)) i,
      hm.notifications⟩
  | .notification i =>
    ⟨hm.data, hm.rpcs, forall_mem_modify hm.notifications (fun y hy => hf y (hm.notifications y hy)) i⟩

end Module

/-- A change at an address that keeps nodes placed and keeps their kind keeps every module
placed. -/
theorem placed_modifyAt {mods : List Module} (hmods : ∀ m ∈ mods, m.Placed) (a : Address)
    {f : Node → Node} (hf : ∀ x, x.Placed → (f x).Placed) (hk : ∀ x, (f x).kind = x.kind) :
    ∀ m ∈ modifyAt mods a f, m.Placed := by
  intro m hm
  rcases mem_of_mem_modify hm with hm | ⟨m', hm', rfl⟩
  · exact hmods m hm
  · exact (hmods m' hm').modifyTop (fun _ hx => Node.Placed.modifyAt hf hk a.steps hx) a.top

theorem placed_nodeAt? {mods : List Module} (hmods : ∀ m ∈ mods, m.Placed) {a : Address}
    {n : Node} (h : nodeAt? mods a = some n) : n.Placed := by
  simp only [nodeAt?, Option.bind_eq_some_iff, Option.map_eq_some_iff] at h
  obtain ⟨m, hm, top, ⟨p, hp, rfl⟩, hn⟩ := h
  have htop := (hmods m (List.mem_of_getElem? hm)).tops p (List.mem_of_find?_eq_some hp)
  exact htop.nodeAt hn

theorem buildNotification_placed {sc : Scope} {raw : Value} {place : Text} {n : Node}
    (h : buildNotification sc raw place = .ok n) : n.Placed := by
  obtain ⟨children, hchildren, rfl⟩ := buildNotification_cases h
  refine Node.placed_of_kind ⟨nofun, nofun⟩ fun c hc => ?_
  obtain ⟨⟨x, i⟩, -, hb⟩ := exists_mem_of_mapM_ok hchildren c hc
  exact (buildDataNode_placed hb).1

theorem buildModule_placed {raw : Value} {index : Nat} {namespaces : List (Text × Text)}
    {m : Module} (h : buildModule raw index namespaces = .ok m) : m.Placed := by
  obtain ⟨dataNodes, rpcs, notifications, hdata, hrpcs, hnotifications, rfl⟩ :=
    buildModule_cases h
  refine ⟨fun n hn => ?_, fun n hn => ?_, fun n hn => ?_⟩
  · obtain ⟨⟨x, i⟩, -, hb⟩ := exists_mem_of_mapM_ok hdata n hn
    exact (buildDataNode_placed hb).1
  · obtain ⟨⟨x, i⟩, -, hb⟩ := exists_mem_of_mapM_ok hrpcs n hn
    exact buildOperation_placed hb
  · obtain ⟨⟨x, i⟩, -, hb⟩ := exists_mem_of_mapM_ok hnotifications n hn
    exact buildNotification_placed hb

theorem foldlM_ok_invariant_mem {α β ε : Type} {f : β → α → Except ε β} (P : β → Prop) :
    ∀ {xs : List α}, (∀ b x b', x ∈ xs → P b → f b x = .ok b' → P b') →
      ∀ {b b' : β}, P b → xs.foldlM f b = .ok b' → P b'
  | [], _, b, b', hb, h => by
    simp only [List.foldlM_nil, pure, Except.pure, Except.ok.injEq] at h
    exact h ▸ hb
  | x :: xs, hf, b, b', hb, h => by
    simp only [List.foldlM_cons, bind, Except.bind] at h
    cases hx : f b x with
    | error e => simp [hx] at h
    | ok b₁ =>
      simp only [hx] at h
      exact foldlM_ok_invariant_mem P (fun c y c' hy => hf c y c' (List.mem_cons_of_mem _ hy))
        (hf b x b₁ List.mem_cons_self hb hx) h

/-- A fold that keeps a property at every step keeps it to the end. -/
theorem foldlM_ok_invariant {α β ε : Type} {f : β → α → Except ε β} (P : β → Prop)
    (hf : ∀ b x b', P b → f b x = .ok b' → P b') {xs : List α} {b b' : β} (hb : P b)
    (h : xs.foldlM f b = .ok b') : P b' :=
  foldlM_ok_invariant_mem P (fun b x b' _ => hf b x b') hb h

/-- Adding a node under an augment target keeps every module placed: a case goes under a
choice, an action under a container or a list, and a data node anywhere else it may go. -/
theorem attach_placed {sc : Scope} {mods : List Module} {target : Target} {raw : Value}
    {place : Text} {result : List Module × Address} (hmods : ∀ m ∈ mods, m.Placed)
    (h : attach sc mods target raw place = .ok result) : ∀ m ∈ result.1, m.Placed := by
  have hchild : ∀ {c : Node}, c.Placed → c.kind ≠ .action →
      ∀ m ∈ modifyAt mods target.address (Node.addChild c), m.Placed := fun hc hk =>
    placed_modifyAt hmods _ (fun _ hx => Node.Placed.addChild hc hk hx) (Node.kind_addChild _)
  have haction : ∀ {a : Node}, a.Placed →
      ∀ m ∈ modifyAt mods target.address (Node.addAction a), m.Placed := fun ha =>
    placed_modifyAt hmods _ (fun _ hx => Node.Placed.addAction ha hx) (Node.kind_addAction _)
  rcases attach_cases h with ⟨-, -, a, ha, rfl⟩ | ⟨-, -, n, hn, rfl⟩ | ⟨-, -, -, n, hn, rfl⟩
  · exact haction (buildOperation_placed ha)
  · have hn := buildCase_placed hn
    exact hchild hn.1 (by rw [hn.2]; exact nofun)
  · exact hchild (buildDataNode_placed hn).1 (buildDataNode_placed hn).2

/-- An augment statement keeps every module placed: its nodes are added one by one. -/
theorem applyAugment_placed {sc : Scope} {mods : List Module} {raw : Value} {place : Text}
    {result : List Module × Applied} (hmods : ∀ m ∈ mods, m.Placed)
    (h : applyAugment sc mods raw place = .ok result) : ∀ m ∈ result.1, m.Placed := by
  obtain ⟨-, -, hadded⟩ := applyAugment_cases h
  refine foldlM_ok_invariant (fun acc => ∀ m ∈ acc.1, m.Placed) ?_ hmods hadded
  intro acc item acc' hacc hstep
  obtain ⟨node, r, -, hr, rfl⟩ := attachItem_cases hstep
  exact attach_placed hacc hr

theorem applyAugments_placed {namespaces : List (Text × Text)}
    {acc result : List Module × List (Nat × Applied)} {raw : Value} {k : Nat}
    (hacc : ∀ m ∈ acc.1, m.Placed) (h : applyAugments namespaces acc raw k = .ok result) :
    ∀ m ∈ result.1, m.Placed := by
  refine foldlM_ok_invariant (fun acc => ∀ m ∈ acc.1, m.Placed) ?_ hacc h
  intro acc ⟨aug, i⟩ acc' hacc hstep
  simp only [bind, Except.bind, pure, Except.pure] at hstep
  split at hstep
  · cases hstep
  · rename_i r hr
    cases hstep
    exact applyAugment_placed hacc hr

/-- Every node of every module of a context is placed, and so is every node an augment
statement of it records. -/
structure Context.Placed (ctx : Context) : Prop where
  modules : ∀ m ∈ ctx.modules, m.Placed
  augments : ∀ m ∈ ctx.modules, ∀ a ∈ m.augments, ∀ n ∈ a.nodes, n.Placed

/-- A loaded document has only placed nodes: the builders place what they build, and augments
keep it so. -/
theorem Context.placed_of_load {doc : Value} {ctx : Context} (h : Context.load doc = .ok ctx) :
    ctx.Placed := by
  obtain ⟨-, built, r, hbuilt, hr, hctx⟩ := Context.load_cases h
  have hbuilt : ∀ m ∈ built, m.Placed := fun m hm => by
    obtain ⟨⟨raw, i⟩, -, hb⟩ := exists_mem_of_mapM_ok hbuilt m hm
    exact buildModule_placed hb
  have hmods : ∀ m ∈ r.1, m.Placed :=
    foldlM_ok_invariant (fun acc => ∀ m ∈ acc.1, m.Placed)
      (fun _ _ _ hacc hstep => applyAugments_placed hacc hstep) hbuilt hr
  refine ⟨fun m hm => ?_, fun m hm a ha n hn => ?_⟩
  · rw [hctx, List.mem_map] at hm
    obtain ⟨⟨m', k⟩, hm', rfl⟩ := hm
    have hm' := hmods m' (List.fst_mem_of_mem_zipIdx hm')
    exact ⟨hm'.data, hm'.rpcs, hm'.notifications⟩
  · rw [hctx, List.mem_map] at hm
    obtain ⟨⟨m', k⟩, -, rfl⟩ := hm
    simp only [augmentsOf, List.mem_map] at ha
    obtain ⟨⟨k', ap⟩, -, rfl⟩ := ha
    simp only [List.mem_filterMap] at hn
    obtain ⟨addr, -, hn⟩ := hn
    exact placed_nodeAt? hmods hn

/-- An entry as drawing needs it, at every depth: it has a node, no action under a choice or a
case, and nothing under a node that has no children. -/
inductive SchemaTree.Sound : SchemaTree → Prop
  | intro {t : SchemaTree} {n : Node} (node : t.node = some n)
      (under : n.kind = .choice ∨ n.kind = .case → t.actionChildren = [])
      (empty : n.childNodes = [] → t.childTrees = [])
      (below : ∀ c ∈ t.childTrees, Sound c) : Sound t

namespace SchemaTree

theorem Sound.child {t c : SchemaTree} (h : t.Sound) (hc : c ∈ t.childTrees) : c.Sound := by
  cases h with
  | intro _ _ _ below => exact below c hc

@[simp] theorem node_add (t c : SchemaTree) : (t.add c).node = t.node := by
  cases t
  rfl

theorem mem_childTrees_add {t c x : SchemaTree} (h : x ∈ (t.add c).childTrees) :
    x ∈ t.childTrees ∨ x = c := by
  cases t with
  | mk n p a cs =>
    simp only [add, childTrees, children, List.mem_map] at h ⊢
    obtain ⟨⟨k, y⟩, hy, rfl⟩ := h
    rcases mem_putKey hy with hy | hy
    · exact Or.inl ⟨_, hy, rfl⟩
    · cases hy
      exact Or.inr rfl

/-- Adding entries keeps the property every entry under a tree has, when each added entry has
it too. -/
theorem forall_childTrees_foldl_add {β : Type} (P : SchemaTree → Prop) (g : β → SchemaTree)
    (l : List β) (hl : ∀ b ∈ l, P (g b)) {t : SchemaTree} (ht : ∀ c ∈ t.childTrees, P c) :
    ∀ c ∈ (l.foldl (fun t b => t.add (g b)) t).childTrees, P c := by
  refine List.foldlRecOn (motive := fun (t : SchemaTree) => ∀ c ∈ t.childTrees, P c) l _ ht ?_
  intro t ht b hb c hc
  rcases mem_childTrees_add hc with hc | rfl
  · exact ht c hc
  · exact hl b hb

theorem node_foldl_add {β : Type} (g : β → SchemaTree) (l : List β) (t : SchemaTree) :
    (l.foldl (fun t b => t.add (g b)) t).node = t.node := by
  induction l generalizing t with
  | nil => rfl
  | cons b l ih => rw [List.foldl_cons, ih, node_add]

@[simp] theorem node_ofNode (n : Node) : (ofNode n).node = some n := by
  rw [ofNode, node_foldl_add (fun (c : {c // c ∈ n.childNodes}) => ofNode c.1)]
  rfl

@[simp] theorem kind?_ofNode (n : Node) : (ofNode n).kind? = some n.kind := by
  simp [kind?]

theorem mem_childTrees_ofNode {n : Node} {c : SchemaTree} (h : c ∈ (ofNode n).childTrees) :
    ∃ c' ∈ n.childNodes, c = ofNode c' := by
  rw [ofNode] at h
  refine forall_childTrees_foldl_add (fun c => ∃ c' ∈ n.childNodes, c = ofNode c')
    (fun (c : {c // c ∈ n.childNodes}) => ofNode c.1) _ ?_ ?_ c h
  · intro ⟨c', hc'⟩ _
    exact ⟨c', hc', rfl⟩
  · simp [childTrees, children]

theorem sound_ofNode (n : Node) (hn : n.Placed) : (ofNode n).Sound := by
  refine .intro (node_ofNode n) (fun hk => ?_) (fun he => ?_) (fun c hc => ?_)
  · refine List.filter_eq_nil_iff.mpr fun c hc => ?_
    obtain ⟨c', hc', rfl⟩ := mem_childTrees_ofNode hc
    simpa [kind?_ofNode] using hn.not_action hk hc'
  · refine List.eq_nil_iff_forall_not_mem.mpr fun c hc => ?_
    obtain ⟨c', hc', -⟩ := mem_childTrees_ofNode hc
    simp [he] at hc'
  · obtain ⟨c', hc', rfl⟩ := mem_childTrees_ofNode hc
    exact sound_ofNode c' (hn.child hc')
termination_by sizeOf n
decreasing_by exact Node.sizeOf_lt_of_mem_childNodes hc'

end SchemaTree

/-- Every entry under the root of a context's schema tree has a property when the entry of every
module's top-level data node and of every node an augment statement records has it. -/
theorem Context.forall_childTrees_schemaTree (ctx : Context) (P : SchemaTree → Prop)
    (hdata : ∀ m ∈ ctx.modules, ∀ n ∈ m.dataNodes, P (SchemaTree.ofNode n))
    (haug : ∀ m ∈ ctx.modules, ∀ a ∈ m.augments, ∀ n ∈ a.nodes, P (SchemaTree.ofNode n)) :
    ∀ c ∈ ctx.schemaTree.childTrees, P c := by
  have hroot : ∀ c ∈ (ctx.modules.foldl (fun (t : SchemaTree) (m : Module) => m.dataNodes.foldl
      (fun t n => t.add (.ofNode n)) t) (SchemaTree.mk none [] false [])).childTrees, P c := by
    refine List.foldlRecOn (motive := fun (t : SchemaTree) => ∀ c ∈ t.childTrees, P c) _ _ ?_ ?_
    · simp [SchemaTree.childTrees, SchemaTree.children]
    · intro t ht m hm
      exact SchemaTree.forall_childTrees_foldl_add _ _ _ (hdata m hm) ht
  refine List.foldlRecOn (motive := fun (t : SchemaTree) => ∀ c ∈ t.childTrees, P c) _ _ hroot ?_
  intro t ht m hm
  refine List.foldlRecOn (motive := fun (t : SchemaTree) => ∀ c ∈ t.childTrees, P c) _ _ ht ?_
  intro t ht a ha
  exact SchemaTree.forall_childTrees_foldl_add _ _ _ (haug m hm a ha) ht

/-- Every entry under the root of a loaded context's schema tree is sound. -/
theorem Context.Placed.sound_schemaTree {ctx : Context} (h : ctx.Placed) :
    ∀ c ∈ ctx.schemaTree.childTrees, c.Sound :=
  ctx.forall_childTrees_schemaTree _
    (fun m hm n hn => SchemaTree.sound_ofNode n ((h.modules m hm).data n hn))
    (fun m hm a ha n hn => SchemaTree.sound_ofNode n (h.augments m hm a ha n hn))

end YangDiagram.Schema
