-- Where a node stands: its path is its parent's with its own name added, all the way down. The
-- builders put every node so, and adding a node keeps the whole tree standing.
import Mathlib
import YangDiagram.Proofs.Schema.Address
import YangDiagram.Proofs.Schema.Placed

namespace YangDiagram.Schema

open YangDiagram.Json

/-- A node stands under a path: its name passes a test, its path is the given path with its own
name added, and every node under it stands under its path. -/
inductive Node.Under (named : QName → Prop) : List QName → Node → Prop
  | intro {p : List QName} {n : Node} (name : named n.qname) (path : n.path = p ++ [n.qname])
      (below : ∀ c ∈ n.childNodes, Under named n.path c) : Under named p n

/-- A name of the scope's module: its module name and namespace are the scope's. -/
def Scope.Defines (sc : Scope) (q : QName) : Prop :=
  q.module = sc.name ∧ q.namespaceUri = sc.namespaceUri

@[simp] theorem Scope.defines_qname (sc : Scope) (l : Text) : sc.Defines (sc.qname l) :=
  ⟨rfl, rfl⟩

namespace Node

section Under

variable {named : QName → Prop}

theorem Under.name {p : List QName} {n : Node} (h : n.Under named p) : named n.qname := by
  cases h with
  | intro name _ _ => exact name

theorem Under.path_eq {p : List QName} {n : Node} (h : n.Under named p) :
    n.path = p ++ [n.qname] := by
  cases h with
  | intro _ path _ => exact path

theorem Under.child {p : List QName} {n c : Node} (h : n.Under named p) (hc : c ∈ n.childNodes) :
    c.Under named n.path := by
  cases h with
  | intro _ _ below => exact below c hc

theorem Under.mono {named' : QName → Prop} (hm : ∀ q, named q → named' q) :
    ∀ {p : List QName} {n : Node}, n.Under named p → n.Under named' p
  | _, _, .intro name path below =>
    .intro (hm _ name) path fun c hc => Under.mono hm (below c hc)

theorem Under.nodeAt : ∀ {steps : List Slot} {p : List QName} {n c : Node}, n.Under named p →
    nodeAt? steps n = some c → ∃ p', c.Under named p'
  | [], p, _, _, hn, h => by
    cases h
    exact ⟨p, hn⟩
  | s :: rest, _, n, c, hn, h => by
    rw [nodeAt?_cons, Option.bind_eq_some_iff] at h
    obtain ⟨y, hy, hc⟩ := h
    simp only [slot?, Option.map_eq_some_iff] at hy
    obtain ⟨q, hq, rfl⟩ := hy
    exact Under.nodeAt (hn.child (mem_childNodes_of_mem_slots (List.mem_of_find?_eq_some hq))) hc

/-- An operation stands under a path when it is named and pathed there, and its input and output
are named and pathed one name below it with their children under them. -/
theorem Under.operation (isAction : Bool) {p : List QName} {info bi bo : Info}
    {ins outs : List Node} (hname : named info.qname) (hpath : info.path = p ++ [info.qname])
    (hbi : named bi.qname ∧ bi.path = info.path ++ [bi.qname])
    (hbo : named bo.qname ∧ bo.path = info.path ++ [bo.qname])
    (hins : ∀ c ∈ ins, c.Under named bi.path) (houts : ∀ c ∈ outs, c.Under named bo.path) :
    (if isAction then Node.action info (.input bi ins) (.output bo outs)
      else .rpc info (.input bi ins) (.output bo outs)).Under named p := by
  have hbodies : ∀ c ∈ [Node.input bi ins, Node.output bo outs], c.Under named info.path := by
    intro c hc
    simp only [List.mem_cons, List.not_mem_nil, or_false] at hc
    rcases hc with rfl | rfl
    · exact .intro hbi.1 hbi.2 hins
    · exact .intro hbo.1 hbo.2 houts
  cases isAction
  · exact .intro hname hpath hbodies
  · exact .intro hname hpath hbodies

end Under

end Node

@[simp] theorem qname_baseInfo (sc : Scope) (name : Text) (raw : Value) (parent : Parent)
    (config : Option Bool) : (baseInfo sc name raw parent config).qname = sc.qname name := rfl

@[simp] theorem path_baseInfo (sc : Scope) (name : Text) (raw : Value) (parent : Parent)
    (config : Option Bool) :
    (baseInfo sc name raw parent config).path = parent.path ++ [sc.qname name] := rfl

@[simp] theorem augmenting_baseInfo (sc : Scope) (name : Text) (raw : Value) (parent : Parent)
    (config : Option Bool) : (baseInfo sc name raw parent config).augmenting = parent.augmenting :=
  rfl

/-! ## What the builders give -/

section Build

variable {sc : Scope} {raw : Value} {parent : Parent} {place : Text} {n : Node}

theorem buildDataNode_info (h : buildDataNode sc raw parent place = .ok n) :
    n.info = baseInfo sc ((raw.textAt? "name").getD "") raw parent
      (inheritConfig parent (raw.flagAt? "config")) := by
  rcases buildDataNode_cases h with ⟨-, -, -, -, rfl | rfl⟩ | ⟨-, -, rfl | rfl⟩ | ⟨-, -, rfl⟩ |
    rfl | rfl <;> rfl

/-- A case has the name of its statement under its parent, with or without its statement's
other information. -/
theorem buildCase_info (h : buildCase sc raw parent place = .ok n) :
    ∃ r, n.info = baseInfo sc ((raw.textAt? "name").getD "") r parent parent.config := by
  rcases buildCase_cases h with ⟨-, -, -, rfl⟩ | ⟨-, -, -, rfl⟩ <;> exact ⟨_, rfl⟩

theorem buildOperation_info {isAction : Bool} (h : buildOperation sc raw isAction parent place = .ok n) :
    n.info = baseInfo sc ((raw.textAt? "name").getD "") raw parent none := by
  obtain ⟨-, -, -, -, rfl⟩ := buildOperation_cases h
  split <;> rfl

end Build

open Node in
mutual

-- each builder names its node in the scope under its parent's path, and passes the node's path
-- on to what it builds under it
theorem buildDataNode_under {sc : Scope} {raw : Value} {parent : Parent} {place : Text}
    {n : Node} (h : buildDataNode sc raw parent place = .ok n) : n.Under sc.Defines parent.path := by
  have hinfo := buildDataNode_info h
  have hname : sc.Defines n.qname := by simp [Node.qname, hinfo]
  have hpath : n.path = parent.path ++ [n.qname] := by simp [Node.path, Node.qname, hinfo]
  rcases buildDataNode_cases h with ⟨children, actions, hchildren, hactions, hn⟩ |
    ⟨type, -, hn⟩ | ⟨cases, hcases, rfl⟩ | hn
  · have hall : ∀ c ∈ children ++ actions, c.Under sc.Defines n.path := fun c hmem => by
      rw [Node.path, hinfo]
      rcases List.mem_append.mp hmem with hmem | hmem
      · obtain ⟨⟨⟨x, hx⟩, i⟩, -, hb⟩ := exists_mem_of_mapM_ok hchildren c hmem
        exact buildDataNode_under hb
      · obtain ⟨⟨⟨x, hx⟩, i⟩, -, hb⟩ := exists_mem_of_mapM_ok hactions c hmem
        exact buildOperation_under hb
    rcases hn with rfl | rfl <;> exact .intro hname hpath hall
  · rcases hn with rfl | rfl <;> exact .intro hname hpath (by simp [childNodes])
  · refine .intro hname hpath fun c hc => ?_
    obtain ⟨⟨⟨x, hx⟩, i⟩, -, hb⟩ := exists_mem_of_mapM_ok hcases c hc
    exact buildCase_under hb
  · rcases hn with rfl | rfl <;> exact .intro hname hpath (by simp [childNodes])
termination_by (sizeOf raw, 0)
decreasing_by
  all_goals
    apply Prod.Lex.left
    exact Value.sizeOf_lt_of_mem_itemsAt hx

theorem buildCase_under {sc : Scope} {raw : Value} {parent : Parent} {place : Text}
    {n : Node} (h : buildCase sc raw parent place = .ok n) : n.Under sc.Defines parent.path := by
  obtain ⟨r, hr⟩ := buildCase_info h
  have hname : sc.Defines n.qname := by simp [Node.qname, hr]
  have hpath : n.path = parent.path ++ [n.qname] := by simp [Node.path, Node.qname, hr]
  rcases buildCase_cases h with ⟨-, children, hchildren, rfl⟩ | ⟨-, node, hnode, rfl⟩
  · refine .intro hname hpath fun c hc => ?_
    obtain ⟨⟨⟨x, hx⟩, i⟩, -, hb⟩ := exists_mem_of_mapM_ok hchildren c hc
    exact buildDataNode_under hb
  · refine .intro hname hpath fun c hc => ?_
    simp only [childNodes, List.mem_singleton] at hc
    subst hc
    exact buildDataNode_under hnode
termination_by (sizeOf raw, 1)
decreasing_by
  · apply Prod.Lex.left
    exact Value.sizeOf_lt_of_mem_itemsAt hx
  · exact Prod.Lex.right _ (by omega)

theorem buildOperation_under {sc : Scope} {raw : Value} {isAction : Bool} {parent : Parent}
    {place : Text} {n : Node} (h : buildOperation sc raw isAction parent place = .ok n) :
    n.Under sc.Defines parent.path := by
  obtain ⟨input, output, hinput, houtput, rfl⟩ := buildOperation_cases h
  exact Under.operation isAction (by simp) (by simp) ⟨by simp, by simp⟩ ⟨by simp, by simp⟩
    (fun c hc => by
      obtain ⟨⟨⟨x, hx⟩, i⟩, -, hb⟩ := exists_mem_of_mapM_ok hinput c hc
      exact buildDataNode_under hb)
    (fun c hc => by
      obtain ⟨⟨⟨x, hx⟩, i⟩, -, hb⟩ := exists_mem_of_mapM_ok houtput c hc
      exact buildDataNode_under hb)
termination_by (sizeOf raw, 0)
decreasing_by
  all_goals
    apply Prod.Lex.left
    exact Value.sizeOf_lt_of_mem_itemsAt hx

end

theorem buildNotification_under {sc : Scope} {raw : Value} {place : Text} {n : Node}
    (h : buildNotification sc raw place = .ok n) : n.Under sc.Defines [] := by
  obtain ⟨children, hchildren, rfl⟩ := buildNotification_cases h
  refine .intro (by simp [Node.qname, Node.info]) (by simp [Node.path, Node.qname, Node.info])
    fun c hc => ?_
  obtain ⟨⟨x, i⟩, -, hb⟩ := exists_mem_of_mapM_ok hchildren c hc
  exact buildDataNode_under hb

/-! ## Changes that keep nodes standing -/

theorem mem_modify_cases {α : Type} {f : α → α} :
    ∀ {l : List α} {i : Nat} {x : α}, x ∈ l.modify i f → x ∈ l ∨ ∃ y, l[i]? = some y ∧ x = f y
  | [], _, _, h => by simp at h
  | a :: l, 0, x, h => by
    simp only [List.modify_zero_cons, List.mem_cons] at h
    rcases h with rfl | h
    · exact .inr ⟨a, rfl, rfl⟩
    · exact .inl (List.mem_cons_of_mem _ h)
  | a :: l, i + 1, x, h => by
    simp only [List.modify_succ_cons, List.mem_cons] at h
    rcases h with rfl | h
    · exact .inl List.mem_cons_self
    · rcases mem_modify_cases h with h | ⟨y, hy, rfl⟩
      · exact .inl (List.mem_cons_of_mem _ h)
      · exact .inr ⟨y, by simpa using hy, rfl⟩

namespace Node

theorem mem_childNodes_of_slot? {n c : Node} {s : Slot} (h : n.slot? s = some c) :
    c ∈ n.childNodes := by
  simp only [slot?, Option.map_eq_some_iff] at h
  obtain ⟨p, hp, rfl⟩ := h
  exact mem_childNodes_of_mem_slots (List.mem_of_find?_eq_some hp)

theorem mem_childNodes_modifySlot_cases {f : Node → Node} {s : Slot} {n c : Node}
    (h : c ∈ (n.modifySlot f s).childNodes) :
    c ∈ n.childNodes ∨ ∃ y, n.slot? s = some y ∧ c = f y := by
  cases s <;> cases n <;>
    simp only [modifySlot, childNodes, slot?_child, slot?_action, childList, actionList,
      slot?_body _ (.inl rfl), slot?_body _ (.inr rfl), body?, List.mem_append, List.mem_cons,
      List.not_mem_nil, or_false] at h ⊢
  all_goals grind [mem_modify_cases]

section Change

variable {named : QName → Prop} {f : Node → Node}

/-- A change made at the end of a walk keeps a node standing when it keeps the information of
every node and keeps the node it is made to standing where it stood. -/
theorem Under.modifyAt (hf : Keeps f) :
    ∀ (steps : List Slot) {p : List QName} {n t : Node}, n.Under named p →
      nodeAt? steps n = some t → (∀ q, t.Under named q → (f t).Under named q) →
      (modifyAt f steps n).Under named p
  | [], p, n, t, hn, ht, hft => by
    cases ht
    exact hft p hn
  | s :: rest, p, n, t, hn, ht, hft => by
    rw [nodeAt?_cons, Option.bind_eq_some_iff] at ht
    obtain ⟨y, hy, ht⟩ := ht
    have hsame : (Node.modifyAt f (s :: rest) n).info = n.info := info_modifySlot _ _ _
    refine .intro (by rw [qname, hsame]; exact hn.name) (by rw [path, qname, hsame]; exact hn.path_eq)
      fun c hc => ?_
    rw [path, hsame]
    rcases mem_childNodes_modifySlot_cases hc with hc | ⟨y', hy', rfl⟩
    · exact hn.child hc
    · rw [hy, Option.some.injEq] at hy'
      subst hy'
      exact Under.modifyAt hf rest (hn.child (mem_childNodes_of_slot? hy)) ht hft

theorem Under.addChild {p : List QName} {c n : Node} (hc : c.Under named n.path)
    (hn : n.Under named p) : (addChild c n).Under named p := by
  have hsame := info_addChild c n
  refine .intro (by rw [qname, hsame]; exact hn.name) (by rw [path, qname, hsame]; exact hn.path_eq)
    fun x hx => ?_
  rw [path, hsame]
  rcases mem_childNodes_addChild hx with hx | rfl
  · exact hn.child hx
  · exact hc

theorem Under.addAction {p : List QName} {a n : Node} (ha : a.Under named n.path)
    (hn : n.Under named p) : (addAction a n).Under named p := by
  have hsame := info_addAction a n
  refine .intro (by rw [qname, hsame]; exact hn.name) (by rw [path, qname, hsame]; exact hn.path_eq)
    fun x hx => ?_
  rw [path, hsame]
  rcases mem_childNodes_addAction hx with hx | ⟨rfl, -⟩
  · exact hn.child hx
  · exact ha

end Change

end Node

/-! ## Modules -/

/-- Every top-level node of a module stands at the top. -/
def Module.Stands (named : QName → Prop) (m : Module) : Prop :=
  ∀ x ∈ m.dataNodes ++ m.rpcs ++ m.notifications, x.Under named []

theorem Module.mem_of_top? {m : Module} {t : Top} {x : Node} (h : m.top? t = some x) :
    x ∈ m.dataNodes ∨ x ∈ m.rpcs ∨ x ∈ m.notifications := by
  rw [top?_eq] at h
  cases t with
  | data i => exact .inl (List.mem_of_getElem? h)
  | rpc i => exact .inr (.inl (List.mem_of_getElem? h))
  | notification i => exact .inr (.inr (List.mem_of_getElem? h))

section Stands

variable {named : QName → Prop}

theorem Module.Stands.mono {named' : QName → Prop} (hm : ∀ q, named q → named' q) {m : Module}
    (h : m.Stands named) : m.Stands named' :=
  fun x hx => (h x hx).mono hm

theorem Module.Stands.top? {m : Module} (hm : m.Stands named) {t : Top} {x : Node}
    (h : m.top? t = some x) : x.Under named [] := by
  apply hm x
  rcases Module.mem_of_top? h with hx | hx | hx <;> simp [hx]

theorem Module.Stands.modifyTop {m : Module} (hm : m.Stands named) {g : Node → Node} (t : Top)
    (hg : ∀ x, m.top? t = some x → (g x).Under named []) : (m.modifyTop g t).Stands named := by
  intro x hx
  cases t with
  | data i =>
    simp only [Module.modifyTop, List.mem_append] at hx
    rcases hx with (hx | hx) | hx
    · rcases mem_modify_cases hx with hx | ⟨y, hy, rfl⟩
      · exact hm x (by simp [hx])
      · exact hg y (by rw [Module.top?_eq]; exact hy)
    · exact hm x (by simp [hx])
    · exact hm x (by simp [hx])
  | rpc i =>
    simp only [Module.modifyTop, List.mem_append] at hx
    rcases hx with (hx | hx) | hx
    · exact hm x (by simp [hx])
    · rcases mem_modify_cases hx with hx | ⟨y, hy, rfl⟩
      · exact hm x (by simp [hx])
      · exact hg y (by rw [Module.top?_eq]; exact hy)
    · exact hm x (by simp [hx])
  | notification i =>
    simp only [Module.modifyTop, List.mem_append] at hx
    rcases hx with (hx | hx) | hx
    · exact hm x (by simp [hx])
    · exact hm x (by simp [hx])
    · rcases mem_modify_cases hx with hx | ⟨y, hy, rfl⟩
      · exact hm x (by simp [hx])
      · exact hg y (by rw [Module.top?_eq]; exact hy)

theorem under_nodeAt? {mods : List Module} (hmods : ∀ m ∈ mods, m.Stands named) {a : Address}
    {n : Node} (h : nodeAt? mods a = some n) : ∃ p, n.Under named p := by
  rw [nodeAt?_eq] at h
  simp only [Option.bind_eq_some_iff] at h
  obtain ⟨m, hm, x, hx, hn⟩ := h
  exact ((hmods m (List.mem_of_getElem? hm)).top? hx).nodeAt hn

/-- A change at an address keeps every module standing when it keeps every node's information
and keeps the node it is made to standing where it stood. -/
theorem stands_modifyAt {mods : List Module} (hmods : ∀ m ∈ mods, m.Stands named)
    {a : Address} {t : Node} (ht : nodeAt? mods a = some t) {f : Node → Node} (hf : Node.Keeps f)
    (hft : ∀ q, t.Under named q → (f t).Under named q) : ∀ m ∈ modifyAt mods a f, m.Stands named := by
  rw [nodeAt?_eq] at ht
  simp only [Option.bind_eq_some_iff] at ht
  obtain ⟨m₀, hm₀, x, hx, ht⟩ := ht
  intro m hm
  rcases mem_modify_cases hm with hm | ⟨y, hy, rfl⟩
  · exact hmods m hm
  · rw [hm₀, Option.some.injEq] at hy
    subst hy
    have hst := hmods m₀ (List.mem_of_getElem? hm₀)
    refine hst.modifyTop a.top fun z hz => ?_
    rw [hx, Option.some.injEq] at hz
    subst hz
    exact (hst.top? hx).modifyAt hf a.steps ht hft

end Stands

/-- A module built from its statement stands, with names of the statement's module. -/
theorem buildModule_stands {raw : Value} {index : Nat} {namespaces : List (Text × Text)}
    {m : Module} (h : buildModule raw index namespaces = .ok m) :
    m.Stands (Scope.ofStatement raw namespaces).Defines := by
  obtain ⟨dataNodes, rpcs, notifications, hdata, hrpcs, hnotifications, rfl⟩ :=
    buildModule_cases h
  intro n hn
  simp only [List.mem_append] at hn
  rcases hn with (hn | hn) | hn
  · obtain ⟨⟨x, i⟩, -, hb⟩ := exists_mem_of_mapM_ok hdata n hn
    exact buildDataNode_under hb
  · obtain ⟨⟨x, i⟩, -, hb⟩ := exists_mem_of_mapM_ok hrpcs n hn
    exact buildOperation_under hb
  · obtain ⟨⟨x, i⟩, -, hb⟩ := exists_mem_of_mapM_ok hnotifications n hn
    exact buildNotification_under hb

end YangDiagram.Schema
