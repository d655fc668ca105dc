-- The keys of a loaded schema stay apart: module and local names are identifiers, a top-level
-- path is one name long, and every node an augment records lies two names deep and is marked as
-- added.
import Mathlib
import YangDiagram.Proofs.Schema.Address
import YangDiagram.Proofs.Schema.Placed
import YangDiagram.Proofs.Document.Names
import YangDiagram.Proofs.Schema.Under

namespace YangDiagram.Schema

open YangDiagram.Json YangDiagram.Document

/-- Every node at or under a node has a property. -/
inductive Node.Every (P : Node → Prop) : Node → Prop
  | intro {n : Node} (self : P n) (below : ∀ c ∈ n.childNodes, Every P c) : Every P n

/-- A node whose path ends in its own name. -/
def Node.Pathed (n : Node) : Prop := n.path.getLast? = some n.qname

namespace Node

section Every

variable {P : Node → Prop}

theorem Every.self {n : Node} (h : n.Every P) : P n := by
  cases h with
  | intro self _ => exact self

theorem Every.child {n c : Node} (h : n.Every P) (hc : c ∈ n.childNodes) : c.Every P := by
  cases h with
  | intro _ below => exact below c hc

theorem Every.nodeAt : ∀ {steps : List Slot} {n c : Node}, n.Every P → nodeAt? steps n = some c →
    c.Every P
  | [], _, _, hn, h => by
    cases h
    exact hn
  | s :: rest, n, c, hn, h => by
    rw [nodeAt?_cons, Option.bind_eq_some_iff] at h
    obtain ⟨y, hy, hc⟩ := h
    simp only [slot?, Option.map_eq_some_iff] at hy
    obtain ⟨p, hp, rfl⟩ := hy
    exact Every.nodeAt (hn.child (mem_childNodes_of_mem_slots (List.mem_of_find?_eq_some hp))) hc

-- the changes below keep a node's information, so they keep a property that reads only that
variable (hP : ∀ {x y : Node}, x.info = y.info → P x → P y)

include hP in
theorem Every.addChild {c n : Node} (hc : c.Every P) (hn : n.Every P) : (addChild c n).Every P :=
  .intro (hP (info_addChild c n).symm hn.self) fun x hx => by
    rcases mem_childNodes_addChild hx with hx | rfl
    · exact hn.child hx
    · exact hc

include hP in
theorem Every.addAction {a n : Node} (ha : a.Every P) (hn : n.Every P) :
    (addAction a n).Every P :=
  .intro (hP (info_addAction a n).symm hn.self) fun x hx => by
    rcases mem_childNodes_addAction hx with hx | ⟨rfl, -⟩
    · exact hn.child hx
    · exact ha

include hP in
theorem Every.modifySlot {g : Node → Node} (hg : ∀ x, x.Every P → (g x).Every P) {n : Node}
    (hn : n.Every P) (s : Slot) : (n.modifySlot g s).Every P :=
  .intro (hP (info_modifySlot g s n).symm hn.self) fun c hc => by
    rcases mem_childNodes_modifySlot hc with hc | ⟨y, hy, rfl⟩
    · exact hn.child hc
    · exact hg y (hn.child hy)

include hP in
theorem Every.modifyAt {f : Node → Node} (hf : ∀ x, x.Every P → (f x).Every P) :
    ∀ (steps : List Slot) {n : Node}, n.Every P → (modifyAt f steps n).Every P
  | [], _, hn => hf _ hn
  | s :: rest, _, hn => hn.modifySlot hP (fun _ hx => Every.modifyAt hf rest hx) s

end Every

theorem Pathed.of_info_eq {x y : Node} (h : x.info = y.info) (hx : x.Pathed) : y.Pathed := by
  unfold Pathed path qname at *
  rwa [← h]

theorem Pathed.path_ne_nil {n : Node} (h : n.Pathed) : n.path ≠ [] := fun e => by
  simp [Pathed, e] at h

end Node

theorem pathed_of_baseInfo {n : Node} {sc : Scope} {name : Text} {raw : Value} {parent : Parent}
    {config : Option Bool} (h : n.info = baseInfo sc name raw parent config) : n.Pathed := by
  simp [Node.Pathed, Node.path, Node.qname, h]

open Node in
mutual

-- each builder names its node under its parent, and what it builds under the node under the node
theorem buildDataNode_pathed {sc : Scope} {raw : Value} {parent : Parent} {place : Text}
    {n : Node} (h : buildDataNode sc raw parent place = .ok n) : n.Every Pathed := by
  have hself := pathed_of_baseInfo (buildDataNode_info h)
  rcases buildDataNode_cases h with ⟨children, actions, hchildren, hactions, hn⟩ |
    ⟨type, -, hn⟩ | ⟨cases, hcases, rfl⟩ | hn
  · have hall : ∀ c ∈ children ++ actions, c.Every Pathed := fun c hmem => by
      rcases List.mem_append.mp hmem with hmem | hmem
      · obtain ⟨⟨⟨x, hx⟩, i⟩, -, hb⟩ := exists_mem_of_mapM_ok hchildren c hmem
        exact buildDataNode_pathed hb
      · obtain ⟨⟨⟨x, hx⟩, i⟩, -, hb⟩ := exists_mem_of_mapM_ok hactions c hmem
        exact buildOperation_pathed hb
    rcases hn with rfl | rfl <;> exact .intro hself hall
  · rcases hn with rfl | rfl <;> exact .intro hself (by simp [childNodes])
  · refine .intro hself fun c hc => ?_
    obtain ⟨⟨⟨x, hx⟩, i⟩, -, hb⟩ := exists_mem_of_mapM_ok hcases c hc
    exact buildCase_pathed hb
  · rcases hn with rfl | rfl <;> exact .intro hself (by simp [childNodes])
termination_by (sizeOf raw, 0)
decreasing_by
  all_goals
    apply Prod.Lex.left
    exact Value.sizeOf_lt_of_mem_itemsAt hx

theorem buildCase_pathed {sc : Scope} {raw : Value} {parent : Parent} {place : Text}
    {n : Node} (h : buildCase sc raw parent place = .ok n) : n.Every Pathed := by
  have hself : n.Pathed := by
    obtain ⟨r, hr⟩ := buildCase_info h
    exact pathed_of_baseInfo hr
  rcases buildCase_cases h with ⟨-, children, hchildren, rfl⟩ | ⟨-, node, hnode, rfl⟩
  · refine .intro hself fun c hc => ?_
    obtain ⟨⟨⟨x, hx⟩, i⟩, -, hb⟩ := exists_mem_of_mapM_ok hchildren c hc
    exact buildDataNode_pathed hb
  · refine .intro hself fun c hc => ?_
    simp only [childNodes, List.mem_singleton] at hc
    subst hc
    exact buildDataNode_pathed hnode
termination_by (sizeOf raw, 1)
decreasing_by
  · apply Prod.Lex.left
    exact Value.sizeOf_lt_of_mem_itemsAt hx
  · exact Prod.Lex.right _ (by omega)

theorem buildOperation_pathed {sc : Scope} {raw : Value} {isAction : Bool} {parent : Parent}
    {place : Text} {n : Node} (h : buildOperation sc raw isAction parent place = .ok n) :
    n.Every Pathed := by
  obtain ⟨input, output, hinput, houtput, rfl⟩ := buildOperation_cases h
  have hi : ∀ c ∈ input, c.Every Pathed := fun c hc => by
    obtain ⟨⟨⟨x, hx⟩, i⟩, -, hb⟩ := exists_mem_of_mapM_ok hinput c hc
    exact buildDataNode_pathed hb
  have ho : ∀ c ∈ output, c.Every Pathed := fun c hc => by
    obtain ⟨⟨⟨x, hx⟩, i⟩, -, hb⟩ := exists_mem_of_mapM_ok houtput c hc
    exact buildDataNode_pathed hb
  have hbodies : ∀ ii oi : Info, ii.path.getLast? = some ii.qname →
      oi.path.getLast? = some oi.qname →
      ∀ c ∈ [Node.input ii input, Node.output oi output], c.Every Pathed := by
    intro ii oi hii hoi c hc
    simp only [List.mem_cons, List.not_mem_nil, or_false] at hc
    rcases hc with rfl | rfl
    · exact .intro hii hi
    · exact .intro hoi ho
  split <;> exact .intro (pathed_of_baseInfo rfl) (hbodies _ _ (by simp) (by simp))
termination_by (sizeOf raw, 0)
decreasing_by
  all_goals
    apply Prod.Lex.left
    exact Value.sizeOf_lt_of_mem_itemsAt hx

end

theorem buildNotification_pathed {sc : Scope} {raw : Value} {place : Text} {n : Node}
    (h : buildNotification sc raw place = .ok n) : n.Every Node.Pathed := by
  obtain ⟨children, hchildren, rfl⟩ := buildNotification_cases h
  refine .intro (pathed_of_baseInfo rfl) fun c hc => ?_
  obtain ⟨⟨x, i⟩, -, hb⟩ := exists_mem_of_mapM_ok hchildren c hc
  exact buildDataNode_pathed hb

/-! ## Modules -/

/-- A top-level data node as its module has it: its path is its own name in the module, its
local name holds no separator, and no augment added it. -/
def Module.OwnRoot (m : Module) (n : Node) : Prop :=
  n.path = [⟨m.name, m.namespaceUri, n.qname.localName⟩] ∧ n.qname.localName.SeparatorFree ∧
    n.info.augmenting = false

theorem Module.OwnRoot.of_info_eq {m : Module} {x y : Node} (h : x.info = y.info)
    (hx : m.OwnRoot x) : m.OwnRoot y := by
  unfold OwnRoot Node.path Node.qname at *
  rwa [← h]

/-- A module of a loaded document: its name holds no separator, its top-level data nodes are
its own roots, and every node of it has a path that ends in its own name. -/
structure Module.Keyed (m : Module) : Prop where
  name : m.name.SeparatorFree
  roots : ∀ n ∈ m.dataNodes, m.OwnRoot n
  data : ∀ n ∈ m.dataNodes, n.Every Node.Pathed
  rpcs : ∀ n ∈ m.rpcs, n.Every Node.Pathed
  notifications : ∀ n ∈ m.notifications, n.Every Node.Pathed

namespace Module

theorem Keyed.modifyTop {g : Node → Node} (hinfo : ∀ x, (g x).info = x.info)
    (hg : ∀ x, x.Every Node.Pathed → (g x).Every Node.Pathed) {m : Module} (hm : m.Keyed) :
    ∀ t, (m.modifyTop g t).Keyed
  | .data i =>
    ⟨hm.name, forall_mem_modify hm.roots (fun y hy => (hm.roots y hy).of_info_eq (hinfo y).symm) i,
      forall_mem_modify hm.data (fun y hy => hg y (hm.data y hy)) i, hm.rpcs, hm.notifications⟩
  | .rpc i =>
    ⟨hm.name, hm.roots, hm.data, forall_mem_modify hm.rpcs (fun y hy => hg y (hm.rpcs y hy)) i,
      hm.notifications⟩
  | .notification i =>
    ⟨hm.name, hm.roots, hm.data, hm.rpcs,
      forall_mem_modify hm.notifications (fun y hy => hg y (hm.notifications y hy)) i⟩

end Module

theorem keyed_modifyAt {mods : List Module} (hmods : ∀ m ∈ mods, m.Keyed) (a : Address)
    {f : Node → Node} (hf : Node.Keeps f) (hfP : ∀ x, x.Every Node.Pathed → (f x).Every Node.Pathed) :
    ∀ m ∈ modifyAt mods a f, m.Keyed := by
  intro m hm
  rcases mem_of_mem_modify hm with hm | ⟨m', hm', rfl⟩
  · exact hmods m hm
  · exact (hmods m' hm').modifyTop (Node.info_modifyAt hf a.steps)
      (fun _ hx => Node.Every.modifyAt Node.Pathed.of_info_eq hfP a.steps hx) a.top

theorem every_pathed_nodeAt? {mods : List Module} (hmods : ∀ m ∈ mods, m.Keyed) {a : Address}
    {n : Node} (h : nodeAt? mods a = some n) : n.Every Node.Pathed := by
  rw [nodeAt?_eq] at h
  simp only [Option.bind_eq_some_iff] at h
  obtain ⟨m, hm, x, hx, hn⟩ := h
  have hk := hmods m (List.mem_of_getElem? hm)
  have htop : x.Every Node.Pathed := by
    rcases Module.mem_of_top? hx with hx | hx | hx
    · exact hk.data x hx
    · exact hk.rpcs x hx
    · exact hk.notifications x hx
  exact htop.nodeAt hn

theorem buildModule_keyed {raw : Value} {index : Nat} {namespaces : List (Text × Text)}
    {m : Module} (h : buildModule raw index namespaces = .ok m) (hname : NamedByIdentifier raw)
    (hdata : ∀ d ∈ raw.itemsAt "data", NamedByIdentifier d) : m.Keyed := by
  obtain ⟨dataNodes, rpcs, notifications, hdataNodes, hrpcs, hnotifications, rfl⟩ :=
    buildModule_cases h
  obtain ⟨s, hs, hid⟩ := hname
  refine ⟨?_, fun n hn => ?_, fun n hn => ?_, fun n hn => ?_, fun n hn => ?_⟩
  · simp only [Scope.ofStatement, hs, Option.getD_some]
    exact Text.separatorFree_of_isIdentifier hid
  · obtain ⟨⟨d, i⟩, hd, hb⟩ := exists_mem_of_mapM_ok hdataNodes n hn
    obtain ⟨s', hs', hid'⟩ := hdata d (List.fst_mem_of_mem_zipIdx hd)
    have hinfo := buildDataNode_info hb
    refine ⟨?_, ?_, ?_⟩
    · simp [Node.path, Node.qname, hinfo, Scope.qname]
    · simp only [Node.qname, hinfo, qname_baseInfo, Scope.qname, hs', Option.getD_some]
      exact Text.separatorFree_of_isIdentifier hid'
    · simp [hinfo]
  · obtain ⟨⟨d, i⟩, -, hb⟩ := exists_mem_of_mapM_ok hdataNodes n hn
    exact buildDataNode_pathed hb
  · obtain ⟨⟨d, i⟩, -, hb⟩ := exists_mem_of_mapM_ok hrpcs n hn
    exact buildOperation_pathed hb
  · obtain ⟨⟨d, i⟩, -, hb⟩ := exists_mem_of_mapM_ok hnotifications n hn
    exact buildNotification_pathed hb

/-! ## Augments -/

/-- The node at an address was added by an augment and lies at least two names deep. -/
def Augmented (mods : List Module) (a : Address) : Prop :=
  ∃ n, nodeAt? mods a = some n ∧ n.info.augmenting = true ∧ 2 ≤ n.path.length

theorem Augmented.modifyAt {mods : List Module} {a : Address} {f : Node → Node}
    (hf : Node.Keeps f) (b : Address) (h : Augmented mods a) : Augmented (modifyAt mods b f) a := by
  obtain ⟨n, hn, haug, hlen⟩ := h
  obtain ⟨n', hn', hinfo⟩ := nodeAt?_modifyAt hf b hn
  refine ⟨n', hn', hinfo ▸ haug, ?_⟩
  rw [Node.path, hinfo]
  exact hlen

/-- Attaching builds a node marked as added, pathed all the way down, standing under the target
with names of the scope's module, and adds it as the target's last child or action. -/
theorem attach_added {sc : Scope} {mods : List Module} {target : Target} {raw : Value}
    {place : Text} {r : List Module × Address} (h : attach sc mods target raw place = .ok r) :
    ∃ c, c.Every Node.Pathed ∧ c.info.augmenting = true ∧ c.Under sc.Defines target.node.path ∧
      c.qname = sc.qname ((raw.textAt? "name").getD "") ∧
      ((target.node.TakesChild ∧ r = (modifyAt mods target.address (Node.addChild c),
          { target.address with steps := target.address.steps ++ [.child target.node.counts.1] })) ∨
        ((target.node.kind = .container ∨ target.node.kind = .list) ∧
          r = (modifyAt mods target.address (Node.addAction c),
            { target.address with
              steps := target.address.steps ++ [.action target.node.counts.2] }))) := by
  rcases attach_cases h with ⟨hk, -, a, ha, rfl⟩ | ⟨hk, -, n, hn, rfl⟩ | ⟨hk, -, -, n, hn, rfl⟩
  · exact ⟨a, buildOperation_pathed ha, by simp [buildOperation_info ha],
      buildOperation_under ha, by simp [Node.qname, buildOperation_info ha], .inr ⟨hk, rfl⟩⟩
  · obtain ⟨r, hr⟩ := buildCase_info hn
    exact ⟨n, buildCase_pathed hn, by simp [hr], buildCase_under hn,
      by simp [Node.qname, hr], .inl ⟨by simp [Node.TakesChild, hk], rfl⟩⟩
  · refine ⟨n, buildDataNode_pathed hn, by simp [buildDataNode_info hn], buildDataNode_under hn,
      by simp [Node.qname, buildDataNode_info hn], .inl ⟨?_, rfl⟩⟩
    rcases hk with hk | hk | hk | hk | hk | hk <;> simp [Node.TakesChild, hk]

/-- Attaching a node under a target that stands at its address keeps every module keyed, keeps
every added node where it was, and adds one more. -/
theorem attach_step {sc : Scope} {mods mods' : List Module} {target : Target} {raw : Value}
    {place : Text} {a : Address} (hmods : ∀ m ∈ mods, m.Keyed)
    (ht : nodeAt? mods target.address = some target.node)
    (h : attach sc mods target raw place = .ok (mods', a)) :
    (∀ m ∈ mods', m.Keyed) ∧ Augmented mods' a ∧ ∀ b, Augmented mods b → Augmented mods' b := by
  obtain ⟨c, hc, haug, hunder, -, hcases⟩ := attach_added h
  have hpath := hunder.path_eq
  have htp : target.node.path ≠ [] := (every_pathed_nodeAt? hmods ht).self.path_ne_nil
  have hlen : 2 ≤ c.path.length := by
    have := List.length_pos_of_ne_nil htp
    rw [hpath, List.length_append, List.length_singleton]
    omega
  rcases hcases with ⟨htake, hr⟩ | ⟨hkind, hr⟩
  · obtain ⟨rfl, rfl⟩ := Prod.mk.inj hr
    refine ⟨keyed_modifyAt hmods _ (Node.keeps_addChild c)
        (fun _ hx => Node.Every.addChild Node.Pathed.of_info_eq hc hx), ⟨c, ?_, haug, hlen⟩,
      fun b hb => hb.modifyAt (Node.keeps_addChild c) _⟩
    rw [nodeAt?_under (nodeAt?_modifyAt_self ht), Node.slot?_addChild_length htake]
  · obtain ⟨rfl, rfl⟩ := Prod.mk.inj hr
    refine ⟨keyed_modifyAt hmods _ (Node.keeps_addAction c)
        (fun _ hx => Node.Every.addAction Node.Pathed.of_info_eq hc hx), ⟨c, ?_, haug, hlen⟩,
      fun b hb => hb.modifyAt (Node.keeps_addAction c) _⟩
    rw [nodeAt?_under (nodeAt?_modifyAt_self ht), Node.slot?_addAction_length hkind]

/-- An augment statement keeps every module keyed and every added node where it was, and every
node it adds is marked as added and lies two names deep. -/
theorem applyAugment_step {sc : Scope} {mods mods' : List Module} {raw : Value} {place : Text}
    {ap : Applied} (hmods : ∀ m ∈ mods, m.Keyed)
    (h : applyAugment sc mods raw place = .ok (mods', ap)) :
    (∀ m ∈ mods', m.Keyed) ∧ (∀ a ∈ ap.added, Augmented mods' a) ∧
      ∀ b, Augmented mods b → Augmented mods' b := by
  obtain ⟨-, -, hadded⟩ := applyAugment_cases h
  refine foldlM_ok_invariant (fun acc => (∀ m ∈ acc.1, m.Keyed) ∧
    (∀ a ∈ acc.2, Augmented acc.1 a) ∧ ∀ b, Augmented mods b → Augmented acc.1 b)
    ?_ ⟨hmods, by simp, fun b hb => hb⟩ hadded
  intro acc item acc' hinv hstep
  obtain ⟨hk, hacc, hframe⟩ := hinv
  obtain ⟨node, r, hnode, hr, rfl⟩ := attachItem_cases hstep
  obtain ⟨hk', hnew, hkeep⟩ := attach_step hk hnode hr
  refine ⟨hk', fun a ha => ?_, fun b hb => hkeep b (hframe b hb)⟩
  rcases List.mem_append.mp ha with ha | ha
  · exact hkeep a (hacc a ha)
  · rw [List.mem_singleton] at ha
    subst ha
    exact hnew

theorem applyAugments_step {namespaces : List (Text × Text)}
    {acc result : List Module × List (Nat × Applied)} {raw : Value} {k : Nat}
    (hacc : (∀ m ∈ acc.1, m.Keyed) ∧ ∀ p ∈ acc.2, ∀ a ∈ p.2.added, Augmented acc.1 a)
    (h : applyAugments namespaces acc raw k = .ok result) :
    (∀ m ∈ result.1, m.Keyed) ∧ ∀ p ∈ result.2, ∀ a ∈ p.2.added, Augmented result.1 a := by
  refine foldlM_ok_invariant (fun acc => (∀ m ∈ acc.1, m.Keyed) ∧
    ∀ p ∈ acc.2, ∀ a ∈ p.2.added, Augmented acc.1 a) ?_ hacc h
  intro acc item acc' hinv hstep
  obtain ⟨hk, hap⟩ := hinv
  obtain ⟨aug, i⟩ := item
  simp only [bind, Except.bind, pure, Except.pure] at hstep
  split at hstep
  · cases hstep
  · rename_i r hr
    cases hstep
    obtain ⟨hk', hadded, hframe⟩ := applyAugment_step hk hr
    refine ⟨hk', fun p hp a ha => ?_⟩
    rcases List.mem_append.mp hp with hp | hp
    · exact hframe a (hap p hp a ha)
    · rw [List.mem_singleton] at hp
      subst hp
      exact hadded a ha

/-- A context whose root keys stay apart: every module is keyed, and every node an augment
statement records is marked as added and lies at least two names deep. -/
structure Context.Keyed (ctx : Context) : Prop where
  modules : ∀ m ∈ ctx.modules, m.Keyed
  augments : ∀ m ∈ ctx.modules, ∀ a ∈ m.augments, ∀ n ∈ a.nodes,
    n.info.augmenting = true ∧ 2 ≤ n.path.length

/-- A loaded document is keyed: modules and top-level nodes are named by identifiers, and
augments add nodes at least two names deep without moving any other. -/
theorem Context.keyed_of_load {doc : Value} {ctx : Context} (h : Context.load doc = .ok ctx) :
    ctx.Keyed := by
  obtain ⟨hcheck, built, r, hbuilt, hr, hctx⟩ := Context.load_cases h
  have hnames := names_of_check hcheck
  have hbuilt : ∀ m ∈ built, m.Keyed := fun m hm => by
    obtain ⟨⟨raw, i⟩, hraw, hb⟩ := exists_mem_of_mapM_ok hbuilt m hm
    have hn := hnames raw (List.fst_mem_of_mem_zipIdx hraw)
    exact buildModule_keyed hb hn.1 hn.2
  have hfinal := foldlM_ok_invariant (fun acc => (∀ m ∈ acc.1, m.Keyed) ∧
      ∀ p ∈ acc.2, ∀ a ∈ p.2.added, Augmented acc.1 a)
    (fun _ _ _ hacc hstep => applyAugments_step hacc hstep) ⟨hbuilt, by simp⟩ hr
  refine ⟨fun m hm => ?_, fun m hm a ha n hn => ?_⟩
  · rw [hctx, List.mem_map] at hm
    obtain ⟨⟨m', k⟩, hm', rfl⟩ := hm
    have hm' := hfinal.1 m' (List.fst_mem_of_mem_zipIdx hm')
    exact ⟨hm'.name, hm'.roots, hm'.data, hm'.rpcs, hm'.notifications⟩
  · rw [hctx, List.mem_map] at hm
    obtain ⟨⟨m', k⟩, -, rfl⟩ := hm
    simp only [augmentsOf, List.mem_map, List.mem_filter] at ha
    obtain ⟨⟨k', ap⟩, ⟨hap, -⟩, rfl⟩ := ha
    simp only [List.mem_filterMap] at hn
    obtain ⟨addr, haddr, hn⟩ := hn
    obtain ⟨n', hn', haug, hlen⟩ := hfinal.2 _ hap addr haddr
    rw [hn, Option.some.injEq] at hn'
    subst hn'
    exact ⟨haug, hlen⟩

end YangDiagram.Schema
