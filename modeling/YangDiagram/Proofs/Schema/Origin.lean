-- Where each node comes from: every node of a loaded document stands for a statement, built
-- under its parent's path, configuration and added mark, and its later children and actions were
-- attached by augments.
import Mathlib
import YangDiagram.Proofs.Schema.Targets
import YangDiagram.Proofs.Diagram.Roots

namespace YangDiagram.Schema

open YangDiagram.Json

/-- The statements whose nodes stand first among a node's children: those written under it, the
data node an implicit case stands for, or an operation's input and output. -/
def childItems : Kind → Value → List Value
  | .container, raw | .list, raw | .choice, raw | .notification, raw => raw.itemsAt "children"
  | .case, raw =>
    if raw.textAt? "kind" = some (Text.ofString "case") then raw.itemsAt "children" else [raw]
  | .input, raw => raw.itemsAt "input"
  | .output, raw => raw.itemsAt "output"
  | _, _ => []

def actionItems : Kind → Value → List Value
  | .container, raw | .list, raw => raw.itemsAt "actions"
  | _, _ => []

/-- The local name a statement gives a node of a kind: an input or output is named by its
keyword, every other node by the statement's name. -/
def statedName : Kind → Value → Text
  | .input, _ => Text.ofString "input"
  | .output, _ => Text.ofString "output"
  | _, raw => (raw.textAt? "name").getD ""

/-- The configuration a node of a kind takes from its statement under a parent record. -/
def statedConfig : Kind → Parent → Value → Option Bool
  | .rpc, _, _ | .action, _, _ | .input, _, _ | .output, _, _ | .notification, _, _ => none
  | .case, P, _ => P.config
  | _, P, raw => inheritConfig P (raw.flagAt? "config")

/-- The parent record a node hands to the nodes under it, marked as added for a node an augment
attaches. -/
def Node.childParent (n : Node) (attached : Bool) : Parent :=
  ⟨n.path, if n.kind = .notification then some false else n.info.config,
    n.info.augmenting || attached⟩

mutual

/-- Node `n` stands for statement `raw` of the module whose scope is `sc`, built under the parent
record `P`, with what augments attached under it. -/
inductive Node.Stated (added : Scope → Value → Prop) : Scope → Parent → Value → Node → Prop
  | intro {sc : Scope} {P : Parent} {raw : Value} {n : Node}
      (name : n.qname = sc.qname (statedName n.kind raw))
      (path : n.path = P.path ++ [n.qname])
      (augmenting : n.info.augmenting = P.augmenting)
      (config : n.info.config = statedConfig n.kind P raw)
      (children : (childItems n.kind raw).length ≤ (Node.childList n).length)
      (child : ∀ i c x, Node.slot? (.child i) n = some c → (childItems n.kind raw)[i]? = some x →
        Stated added sc (n.childParent false) x c)
      (attachedChild : ∀ i c, Node.slot? (.child i) n = some c →
        (childItems n.kind raw).length ≤ i → Attached added (n.childParent true) c)
      (actions : (actionItems n.kind raw).length ≤ (Node.actionList n).length)
      (action : ∀ i c x, Node.slot? (.action i) n = some c → (actionItems n.kind raw)[i]? = some x →
        Stated added sc (n.childParent false) x c)
      (attachedAction : ∀ i c, Node.slot? (.action i) n = some c →
        (actionItems n.kind raw).length ≤ i → Attached added (n.childParent true) c)
      (body : ∀ s c, (s = .input ∨ s = .output) → Node.slot? s n = some c →
        Stated added sc (n.childParent false) raw c) :
      Stated added sc P raw n

/-- Node `n` was attached under the parent record `P` by an augment: it stands for a statement
that `added` lists for some module. -/
inductive Node.Attached (added : Scope → Value → Prop) : Parent → Node → Prop
  | intro {sc : Scope} {P : Parent} {raw : Value} {n : Node} (listed : added sc raw)
      (stated : Stated added sc P raw n) : Attached added P n

end

namespace Node

@[simp] theorem childParent_path (n : Node) (attached : Bool) :
    (n.childParent attached).path = n.path := rfl

@[simp] theorem childParent_augmenting (n : Node) (attached : Bool) :
    (n.childParent attached).augmenting = (n.info.augmenting || attached) := rfl

end Node

/-! ## Lists of statements and their nodes -/

theorem forall₂_of_mapM_zipIdx_attach {α β ε : Type} {xs : List α}
    {g : {x // x ∈ xs} × Nat → Except ε β} {ys : List β} (h : xs.attach.zipIdx.mapM g = .ok ys)
    {R : α → β → Prop} (hR : ∀ x (hx : x ∈ xs) i y, g (⟨x, hx⟩, i) = .ok y → R x y) :
    List.Forall₂ R xs ys := by
  have hys : List.Forall₂ (fun p y => R p.1.1 y) xs.attach.zipIdx ys :=
    (forall₂_of_mapM_ok h).imp fun p y hp => hR p.1.1 p.1.2 p.2 y hp
  have hmap : xs.attach.zipIdx.map (fun p => p.1.1) = xs := by
    rw [show (fun p : {x // x ∈ xs} × Nat => p.1.1) = Subtype.val ∘ Prod.fst from rfl,
      ← List.map_map, List.zipIdx_map_fst, List.attach_map_subtype_val]
  rw [← hmap]
  exact List.forall₂_map_left_iff.mpr hys

theorem forall₂_of_mapM_zipIdx {α β ε : Type} {xs : List α} {g : α × Nat → Except ε β}
    {ys : List β} (h : xs.zipIdx.mapM g = .ok ys) {R : α → β → Prop}
    (hR : ∀ x i y, g (x, i) = .ok y → R x y) : List.Forall₂ R xs ys := by
  have hys : List.Forall₂ (fun p y => R p.1 y) xs.zipIdx ys :=
    (forall₂_of_mapM_ok h).imp fun p y hp => hR p.1 p.2 y hp
  rw [← List.zipIdx_map_fst 0 xs]
  exact List.forall₂_map_left_iff.mpr hys

theorem forall₂_getElem? {α β : Type} {R : α → β → Prop} {xs : List α} {ys : List β}
    (h : List.Forall₂ R xs ys) {i : Nat} {x : α} {y : β} (hx : xs[i]? = some x)
    (hy : ys[i]? = some y) : R x y := by
  obtain ⟨y', hy', hr⟩ := exists_getElem?_of_forall₂ h hx
  rw [hy, Option.some.injEq] at hy'
  exact hy' ▸ hr

section Stated

variable {added : Scope → Value → Prop}

/-- A node with no attached nodes: its children and actions stand for its statements, one
each. -/
theorem Node.Stated.ofLists {sc : Scope} {P : Parent} {raw : Value} {n : Node}
    (name : n.qname = sc.qname (statedName n.kind raw))
    (path : n.path = P.path ++ [n.qname])
    (augmenting : n.info.augmenting = P.augmenting)
    (config : n.info.config = statedConfig n.kind P raw)
    (children : List.Forall₂ (Node.Stated added sc (n.childParent false)) (childItems n.kind raw)
      (Node.childList n))
    (actions : List.Forall₂ (Node.Stated added sc (n.childParent false)) (actionItems n.kind raw)
      (Node.actionList n))
    (body : ∀ s c, (s = .input ∨ s = .output) → Node.slot? s n = some c →
      Node.Stated added sc (n.childParent false) raw c) :
    n.Stated added sc P raw := by
  refine .intro name path augmenting config children.length_eq.le (fun i c x hc hx => ?_)
    (fun i c hc hi => ?_) actions.length_eq.le (fun i c x hc hx => ?_) (fun i c hc hi => ?_) body
  · rw [Node.slot?_child] at hc
    exact forall₂_getElem? children hx hc
  · rw [Node.slot?_child] at hc
    have hlt := (List.getElem?_eq_some_iff.mp hc).1
    rw [← children.length_eq] at hlt
    omega
  · rw [Node.slot?_action] at hc
    exact forall₂_getElem? actions hx hc
  · rw [Node.slot?_action] at hc
    have hlt := (List.getElem?_eq_some_iff.mp hc).1
    rw [← actions.length_eq] at hlt
    omega

end Stated

/-! ## What the builders build -/

theorem Node.forall_body_of_kind {n : Node} (hk : n.kind ≠ .rpc ∧ n.kind ≠ .action)
    (R : Slot → Node → Prop) : ∀ s c, (s = .input ∨ s = .output) → n.slot? s = some c → R s c := by
  intro s c hs hc
  rw [Node.slot?_body _ hs] at hc
  rcases hs with rfl | rfl <;> cases n <;> simp_all [Node.body?, Node.kind]

theorem Node.childParent_false {n : Node} (h : n.kind ≠ .notification) :
    n.childParent false = ⟨n.path, n.info.config, n.info.augmenting⟩ := by
  simp [Node.childParent, h]

/-- A choice, case, input or output with no attached nodes: its children stand for its
statements, under its own record. -/
theorem Node.Stated.ofChildren {added : Scope → Value → Prop} {sc : Scope} {P : Parent}
    {raw : Value} {n : Node}
    (hk : n.kind = .choice ∨ n.kind = .case ∨ n.kind = .input ∨ n.kind = .output)
    (name : n.qname = sc.qname (statedName n.kind raw))
    (path : n.path = P.path ++ [n.qname])
    (augmenting : n.info.augmenting = P.augmenting)
    (config : n.info.config = statedConfig n.kind P raw)
    (children : List.Forall₂ (Node.Stated added sc ⟨n.path, n.info.config, n.info.augmenting⟩)
      (childItems n.kind raw) (Node.childList n)) :
    n.Stated added sc P raw := by
  have hactions : actionItems n.kind raw = [] ∧ Node.actionList n = [] := by
    rcases hk with h | h | h | h <;> cases n <;> simp_all [Node.kind, actionItems, Node.actionList]
  refine .ofLists name path augmenting config ?_ ?_
    (Node.forall_body_of_kind (by rcases hk with h | h | h | h <;> simp [h]) _)
  · rw [Node.childParent_false (by rcases hk with h | h | h | h <;> simp [h])]
    exact children
  · rw [hactions.1, hactions.2]
    exact .nil

section Build

variable {added : Scope → Value → Prop}

mutual

-- each builder states its node under its parent record and hands the node's own record to what
-- it builds under it
theorem buildDataNode_stated {sc : Scope} {raw : Value} {P : Parent} {place : Text} {n : Node}
    (h : buildDataNode sc raw P place = .ok n) : n.Stated added sc P raw := by
  rcases buildDataNode_cases h with ⟨children, actions, hchildren, hactions, hn⟩ |
    ⟨type, -, hn⟩ | ⟨cases, hcases, rfl⟩ | hn
  · have hc := forall₂_of_mapM_zipIdx_attach hchildren fun x hx i y hy => buildDataNode_stated hy
    have ha := forall₂_of_mapM_zipIdx_attach hactions fun x hx i y hy => buildOperation_stated hy
    rcases hn with rfl | rfl
    all_goals
      refine .ofLists rfl rfl rfl rfl ?_ ?_ (Node.forall_body_of_kind (by simp [Node.kind]) _)
      · rw [Node.childParent_false (by simp [Node.kind])]
        exact hc
      · rw [Node.childParent_false (by simp [Node.kind])]
        exact ha
  · rcases hn with rfl | rfl <;>
      exact .ofLists rfl rfl rfl rfl .nil .nil (Node.forall_body_of_kind (by simp [Node.kind]) _)
  · exact .ofChildren (by simp [Node.kind]) rfl rfl rfl rfl
      (forall₂_of_mapM_zipIdx_attach hcases fun x hx i y hy => buildCase_stated hy)
  · rcases hn with rfl | rfl <;>
      exact .ofLists rfl rfl rfl rfl .nil .nil (Node.forall_body_of_kind (by simp [Node.kind]) _)
termination_by (sizeOf raw, 0)
decreasing_by
  all_goals
    apply Prod.Lex.left
    exact Value.sizeOf_lt_of_mem_itemsAt hx

theorem buildCase_stated {sc : Scope} {raw : Value} {P : Parent} {place : Text} {n : Node}
    (h : buildCase sc raw P place = .ok n) : n.Stated added sc P raw := by
  rcases buildCase_cases h with ⟨hkind, children, hchildren, rfl⟩ | ⟨hkind, node, hnode, rfl⟩
  · refine .ofChildren (by simp [Node.kind]) rfl rfl rfl rfl ?_
    show List.Forall₂ _ (childItems .case raw) children
    rw [childItems, if_pos hkind]
    exact forall₂_of_mapM_zipIdx_attach hchildren fun x hx i y hy => buildDataNode_stated hy
  · refine .ofChildren (by simp [Node.kind]) rfl rfl rfl rfl ?_
    show List.Forall₂ _ (childItems .case raw) [node]
    rw [childItems, if_neg hkind]
    exact .cons (buildDataNode_stated hnode) .nil
termination_by (sizeOf raw, 1)
decreasing_by
  · apply Prod.Lex.left
    exact Value.sizeOf_lt_of_mem_itemsAt hx
  · exact Prod.Lex.right _ (by omega)

theorem buildOperation_stated {sc : Scope} {raw : Value} {isAction : Bool} {P : Parent}
    {place : Text} {n : Node} (h : buildOperation sc raw isAction P place = .ok n) :
    n.Stated added sc P raw := by
  obtain ⟨input, output, hinput, houtput, rfl⟩ := buildOperation_cases h
  have hi := forall₂_of_mapM_zipIdx_attach hinput fun x hx i y hy => buildDataNode_stated hy
  have ho := forall₂_of_mapM_zipIdx_attach houtput fun x hx i y hy => buildDataNode_stated hy
  split
  all_goals
    refine .ofLists rfl rfl rfl rfl .nil .nil fun s c hs hc => ?_
    rcases hs with rfl | rfl
    all_goals
      simp only [Node.slot?_body _ (.inl rfl), Node.slot?_body _ (.inr rfl), Node.body?,
        Option.some.injEq] at hc
      subst hc
      refine .ofChildren (by simp [Node.kind]) rfl rfl (by simp [Node.info, baseInfo]) rfl ?_
      first
      | exact hi
      | exact ho
termination_by (sizeOf raw, 0)
decreasing_by
  all_goals
    apply Prod.Lex.left
    exact Value.sizeOf_lt_of_mem_itemsAt hx

end

theorem buildNotification_stated {sc : Scope} {raw : Value} {place : Text} {n : Node}
    (h : buildNotification sc raw place = .ok n) : n.Stated added sc ⟨[], none, false⟩ raw := by
  obtain ⟨children, hchildren, rfl⟩ := buildNotification_cases h
  have hc := forall₂_of_mapM_zipIdx hchildren fun x i y hy =>
    @buildDataNode_stated added _ _ _ _ _ hy
  refine .ofLists rfl rfl rfl rfl ?_ .nil (Node.forall_body_of_kind (by simp [Node.kind]) _)
  have hparent : (Node.notification (baseInfo sc ((raw.textAt? "name").getD "") raw
      ⟨[], none, false⟩ none) children).childParent false =
      ⟨[sc.qname ((raw.textAt? "name").getD "")], some false, false⟩ := by
    simp [Node.childParent, Node.kind, Node.path, Node.info]
  rw [hparent]
  exact hc

end Build

/-- A module stands for its statement: its name and namespace, and its top-level data nodes,
rpcs and notifications stand for those written in it, one each and in order. -/
structure Module.Stated (added : Scope → Value → Prop) (sc : Scope) (raw : Value) (m : Module) :
    Prop where
  name : m.name = sc.name
  namespaceUri : m.namespaceUri = sc.namespaceUri
  data : List.Forall₂ (Node.Stated added sc ⟨[], some true, false⟩) (raw.itemsAt "data") m.dataNodes
  rpcs : List.Forall₂ (Node.Stated added sc ⟨[], none, false⟩) (raw.itemsAt "rpcs") m.rpcs
  notifications : List.Forall₂ (Node.Stated added sc ⟨[], none, false⟩)
    (raw.itemsAt "notifications") m.notifications

theorem buildModule_stated {added : Scope → Value → Prop} {raw : Value} {index : Nat}
    {namespaces : List (Text × Text)} {m : Module} (h : buildModule raw index namespaces = .ok m) :
    m.Stated added (Scope.ofStatement raw namespaces) raw := by
  obtain ⟨dataNodes, rpcs, notifications, hdata, hrpcs, hnotifications, rfl⟩ :=
    buildModule_cases h
  exact ⟨rfl, rfl, forall₂_of_mapM_zipIdx hdata fun x i y hy => buildDataNode_stated hy,
    forall₂_of_mapM_zipIdx hrpcs fun x i y hy => buildOperation_stated hy,
    forall₂_of_mapM_zipIdx hnotifications fun x i y hy => buildNotification_stated hy⟩

/-! ## Changes that keep nodes stated -/

namespace Node

theorem childParent_congr {m n : Node} (hi : m.info = n.info) (hk : m.kind = n.kind) (b : Bool) :
    m.childParent b = n.childParent b := by
  simp [childParent, path, hi, hk]

theorem length_childList_modifySlot (g : Node → Node) (s : Slot) (n : Node) :
    (childList (n.modifySlot g s)).length = (childList n).length := by
  cases s <;> cases n <;> simp [modifySlot, childList]

theorem length_actionList_modifySlot (g : Node → Node) (s : Slot) (n : Node) :
    (actionList (n.modifySlot g s)).length = (actionList n).length := by
  cases s <;> cases n <;> simp [modifySlot, actionList]

theorem slot?_modifySlot_cases {g : Node → Node} {s s' : Slot} {n c : Node}
    (h : slot? s' (n.modifySlot g s) = some c) :
    ∃ c₀, slot? s' n = some c₀ ∧ (s' = s ∧ c = g c₀ ∨ c = c₀) := by
  rw [slot?_modifySlot] at h
  split at h
  · rename_i hs
    obtain ⟨c₀, hc₀, rfl⟩ := Option.map_eq_some_iff.mp h
    exact ⟨c₀, hc₀, .inl ⟨hs, rfl⟩⟩
  · exact ⟨c, h, .inr rfl⟩

theorem slot?_addChild_cases {c n x : Node} {s : Slot} (h : slot? s (addChild c n) = some x) :
    slot? s n = some x ∨ (s = .child (childList n).length ∧ x = c) := by
  cases s with
  | child i =>
    rw [slot?_child] at h ⊢
    rcases childList_addChild c n with e | e <;> rw [e] at h
    · exact .inl h
    · rcases lt_or_ge i (childList n).length with hi | hi
      · rw [List.getElem?_append_left hi] at h
        exact .inl h
      · rw [List.getElem?_append_right hi, List.getElem?_singleton] at h
        split at h
        · cases h
          exact .inr ⟨by congr 1; omega, rfl⟩
        · cases h
  | action i =>
    rw [slot?_action] at h ⊢
    cases n <;> exact .inl h
  | input =>
    rw [slot?_body _ (.inl rfl)] at h ⊢
    cases n <;> exact .inl h
  | output =>
    rw [slot?_body _ (.inr rfl)] at h ⊢
    cases n <;> exact .inl h

theorem slot?_addAction_cases {a n x : Node} {s : Slot} (h : slot? s (addAction a n) = some x) :
    slot? s n = some x ∨ (s = .action (actionList n).length ∧ x = a) := by
  cases s with
  | child i =>
    rw [slot?_child] at h ⊢
    cases n <;> exact .inl h
  | action i =>
    rw [slot?_action] at h ⊢
    have e : actionList (addAction a n) = actionList n ∨
        actionList (addAction a n) = actionList n ++ [a] := by
      cases n <;> simp [addAction, actionList]
    rcases e with e | e <;> rw [e] at h
    · exact .inl h
    · rcases lt_or_ge i (actionList n).length with hi | hi
      · rw [List.getElem?_append_left hi] at h
        exact .inl h
      · rw [List.getElem?_append_right hi, List.getElem?_singleton] at h
        split at h
        · cases h
          exact .inr ⟨by congr 1; omega, rfl⟩
        · cases h
  | input =>
    rw [slot?_body _ (.inl rfl)] at h ⊢
    cases n <;> exact .inl h
  | output =>
    rw [slot?_body _ (.inr rfl)] at h ⊢
    cases n <;> exact .inl h

theorem length_childList_addChild_le (c n : Node) :
    (childList n).length ≤ (childList (addChild c n)).length := by
  rcases childList_addChild c n with e | e <;> simp [e]

theorem length_actionList_addAction_le (a n : Node) :
    (actionList n).length ≤ (actionList (addAction a n)).length := by
  cases n <;> simp [addAction, actionList]

theorem actionList_addChild (c n : Node) : actionList (addChild c n) = actionList n := by
  cases n <;> rfl

theorem childList_addAction (a n : Node) : childList (addAction a n) = childList n := by
  cases n <;> rfl

end Node

section Change

variable {added : Scope → Value → Prop}

theorem Node.Attached.of_stated {P : Parent} {c c' : Node}
    (h : ∀ sc P raw, c.Stated added sc P raw → c'.Stated added sc P raw)
    (hc : c.Attached added P) : c'.Attached added P := by
  obtain ⟨listed, stated⟩ := hc
  exact .intro listed (h _ _ _ stated)

/-- A node with a stated node's information and kind is stated when each node under it stands
for what stood in its place, or was attached one past the last. -/
theorem Node.Stated.of_slots {sc : Scope} {P : Parent} {raw : Value} {n n' : Node}
    (hn : n.Stated added sc P raw) (hinfo : n'.info = n.info) (hkind : n'.kind = n.kind)
    (hchildren : (Node.childList n).length ≤ (Node.childList n').length)
    (hactions : (Node.actionList n).length ≤ (Node.actionList n').length)
    (hslot : ∀ s x, n'.slot? s = some x →
      (∃ x₀, n.slot? s = some x₀ ∧
        ∀ sc' P' raw', x₀.Stated added sc' P' raw' → x.Stated added sc' P' raw') ∨
      ((s = .child (Node.childList n).length ∨ s = .action (Node.actionList n).length) ∧
        x.Attached added (n.childParent true))) :
    n'.Stated added sc P raw := by
  obtain ⟨name, path, augmenting, config, children, child, attachedChild, actions, action,
    attachedAction, body⟩ := hn
  have hparent := Node.childParent_congr hinfo hkind
  refine .intro ?_ ?_ ?_ ?_ ?_ (fun i c x hc hx => ?_) (fun i c hc hi => ?_) ?_
    (fun i c x hc hx => ?_) (fun i c hc hi => ?_) (fun s c hs hc => ?_)
  · simpa [Node.qname, hinfo, hkind] using name
  · simpa [Node.qname, Node.path, hinfo] using path
  · simpa [hinfo] using augmenting
  · simpa [hinfo, hkind] using config
  · rw [hkind]
    exact children.trans hchildren
  · rw [hkind] at hx
    rw [hparent]
    rcases hslot _ c hc with ⟨c₀, hc₀, hl⟩ | ⟨hs | hs, -⟩
    · exact hl _ _ _ (child i c₀ x hc₀ hx)
    · cases hs
      have := (List.getElem?_eq_some_iff.mp hx).1
      omega
    · cases hs
  · rw [hkind] at hi
    rw [hparent]
    rcases hslot _ c hc with ⟨c₀, hc₀, hl⟩ | ⟨-, hatt⟩
    · exact (attachedChild i c₀ hc₀ hi).of_stated hl
    · exact hatt
  · rw [hkind]
    exact actions.trans hactions
  · rw [hkind] at hx
    rw [hparent]
    rcases hslot _ c hc with ⟨c₀, hc₀, hl⟩ | ⟨hs | hs, -⟩
    · exact hl _ _ _ (action i c₀ x hc₀ hx)
    · cases hs
    · cases hs
      have := (List.getElem?_eq_some_iff.mp hx).1
      omega
  · rw [hkind] at hi
    rw [hparent]
    rcases hslot _ c hc with ⟨c₀, hc₀, hl⟩ | ⟨-, hatt⟩
    · exact (attachedAction i c₀ hc₀ hi).of_stated hl
    · exact hatt
  · rw [hparent]
    rcases hslot _ c hc with ⟨c₀, hc₀, hl⟩ | ⟨hs', -⟩
    · exact hl _ _ _ (body s c₀ hs hc₀)
    · rcases hs with rfl | rfl <;> rcases hs' with hs' | hs' <;> cases hs'

/-- A change to one node under a stated node keeps it stated, when the change keeps that node
stated. -/
theorem Node.Stated.modifySlot {g : Node → Node} {s : Slot} {sc : Scope} {P : Parent}
    {raw : Value} {n : Node} (hn : n.Stated added sc P raw)
    (hg : ∀ c, n.slot? s = some c →
      ∀ sc' P' raw', c.Stated added sc' P' raw' → (g c).Stated added sc' P' raw') :
    (n.modifySlot g s).Stated added sc P raw := by
  refine hn.of_slots (Node.info_modifySlot g s n) (Node.kind_modifySlot g s n)
    (Node.length_childList_modifySlot g s n).ge (Node.length_actionList_modifySlot g s n).ge
    fun s' c hc => .inl ?_
  obtain ⟨c₀, hc₀, hcases⟩ := Node.slot?_modifySlot_cases hc
  rcases hcases with ⟨rfl, rfl⟩ | rfl
  · exact ⟨c₀, hc₀, hg c₀ hc₀⟩
  · exact ⟨c, hc₀, fun _ _ _ h => h⟩

/-- A change at the end of a walk keeps a stated node stated, when it keeps the node it is made
to stated. -/
theorem Node.Stated.modifyAt {f : Node → Node} (steps : List Slot) :
    ∀ {sc : Scope} {P : Parent} {raw : Value} {n t : Node}, n.Stated added sc P raw →
      Node.nodeAt? steps n = some t →
      (∀ sc' P' raw', t.Stated added sc' P' raw' → (f t).Stated added sc' P' raw') →
      (Node.modifyAt f steps n).Stated added sc P raw := by
  induction steps with
  | nil =>
    intro sc P raw n t hn ht hf
    simp only [Node.nodeAt?, Option.some.injEq] at ht
    subst ht
    exact hf _ _ _ hn
  | cons s rest ih =>
    intro sc P raw n t hn ht hf
    rw [Node.nodeAt?_cons, Option.bind_eq_some_iff] at ht
    obtain ⟨c, hc, hrest⟩ := ht
    refine hn.modifySlot fun c' hc' _ _ _ hs => ?_
    rw [hc, Option.some.injEq] at hc'
    subst hc'
    exact ih hs hrest hf

/-- Attaching a node after the children of a stated node keeps it stated. -/
theorem Node.Stated.addChild {sc : Scope} {P : Parent} {raw : Value} {c n : Node}
    (hn : n.Stated added sc P raw) (hc : c.Attached added (n.childParent true)) :
    (Node.addChild c n).Stated added sc P raw :=
  hn.of_slots (Node.info_addChild c n) (Node.kind_addChild c n)
    (Node.length_childList_addChild_le c n) (by rw [Node.actionList_addChild]) fun _ x hx => by
      rcases Node.slot?_addChild_cases hx with hx | ⟨hs, rfl⟩
      · exact .inl ⟨x, hx, fun _ _ _ h => h⟩
      · exact .inr ⟨.inl hs, hc⟩

theorem Node.Stated.addAction {sc : Scope} {P : Parent} {raw : Value} {a n : Node}
    (hn : n.Stated added sc P raw) (ha : a.Attached added (n.childParent true)) :
    (Node.addAction a n).Stated added sc P raw :=
  hn.of_slots (Node.info_addAction a n) (Node.kind_addAction a n)
    (by rw [Node.childList_addAction]) (Node.length_actionList_addAction_le a n) fun _ x hx => by
      rcases Node.slot?_addAction_cases hx with hx | ⟨hs, rfl⟩
      · exact .inl ⟨x, hx, fun _ _ _ h => h⟩
      · exact .inr ⟨.inr hs, ha⟩

end Change

/-! ## Augments keep every module stated -/

theorem forall₂_modify {α β : Type} {R : α → β → Prop} {g : β → β} :
    ∀ {xs : List α} {ys : List β}, List.Forall₂ R xs ys → ∀ i : Nat,
      (∀ x y, xs[i]? = some x → ys[i]? = some y → R x y → R x (g y)) →
      List.Forall₂ R xs (ys.modify i g)
  | _, _, .nil, _, _ => by simp
  | _, _, .cons hxy hrest, 0, hg => by
    rw [List.modify_zero_cons]
    exact .cons (hg _ _ rfl rfl hxy) hrest
  | _, _, .cons hxy hrest, i + 1, hg => by
    rw [List.modify_succ_cons]
    exact .cons hxy (forall₂_modify hrest i fun x y hx hy => hg x y hx hy)

section Modules

variable {added : Scope → Value → Prop} {scopeOf : Value → Scope}

theorem Module.Stated.modifyTop {sc : Scope} {raw : Value} {m : Module}
    (hm : m.Stated added sc raw) {g : Node → Node} (t : Top)
    (hg : ∀ x, m.top? t = some x →
      ∀ sc' P' raw', x.Stated added sc' P' raw' → (g x).Stated added sc' P' raw') :
    (m.modifyTop g t).Stated added sc raw := by
  obtain ⟨name, namespaceUri, data, rpcs, notifications⟩ := hm
  cases t with
  | data i =>
    exact ⟨name, namespaceUri, forall₂_modify data i fun x y _ hy hxy =>
      hg y (by rw [Module.top?_eq]; exact hy) _ _ _ hxy, rpcs, notifications⟩
  | rpc i =>
    exact ⟨name, namespaceUri, data, forall₂_modify rpcs i fun x y _ hy hxy =>
      hg y (by rw [Module.top?_eq]; exact hy) _ _ _ hxy, notifications⟩
  | notification i =>
    exact ⟨name, namespaceUri, data, rpcs, forall₂_modify notifications i fun x y _ hy hxy =>
      hg y (by rw [Module.top?_eq]; exact hy) _ _ _ hxy⟩

theorem stated_modifyAt {raws : List Value} {mods : List Module}
    (hmods : List.Forall₂ (fun raw m => m.Stated added (scopeOf raw) raw) raws mods)
    {a : Address} {t : Node} (ht : nodeAt? mods a = some t) {f : Node → Node}
    (hf : ∀ sc P raw, t.Stated added sc P raw → (f t).Stated added sc P raw) :
    List.Forall₂ (fun raw m => m.Stated added (scopeOf raw) raw) raws (modifyAt mods a f) := by
  rw [nodeAt?_eq] at ht
  simp only [Option.bind_eq_some_iff] at ht
  obtain ⟨m, hm, y, hy, hyt⟩ := ht
  refine forall₂_modify hmods a.module fun raw m' _ hm' hstated => ?_
  rw [hm, Option.some.injEq] at hm'
  subst hm'
  refine hstated.modifyTop a.top fun y' hy' _ _ _ hs => ?_
  rw [hy, Option.some.injEq] at hy'
  subst hy'
  exact Node.Stated.modifyAt a.steps hs hyt hf

theorem Node.childParent_true {n : Node} :
    n.childParent true =
      ⟨n.path, if n.kind = .notification then some false else n.info.config, true⟩ := by
  simp [Node.childParent]

/-- Attaching a node of a listed statement keeps every module stated: it is built under the
target's record marked as added, after the target's children or actions. -/
theorem attach_stated {raws : List Value} {mods : List Module} {sc : Scope} {target : Target}
    {raw : Value} {place : Text} {r : List Module × Address} (hraw : added sc raw)
    (hmods : List.Forall₂ (fun raw m => m.Stated added (scopeOf raw) raw) raws mods)
    (ht : nodeAt? mods target.address = some target.node)
    (h : attach sc mods target raw place = .ok r) :
    List.Forall₂ (fun raw m => m.Stated added (scopeOf raw) raw) raws r.1 := by
  have hchild : ∀ {c : Node}, c.Stated added sc (target.node.childParent true) raw →
      List.Forall₂ (fun raw m => m.Stated added (scopeOf raw) raw) raws
        (modifyAt mods target.address (Node.addChild c)) := fun hc =>
    stated_modifyAt hmods ht fun _ _ _ hs => hs.addChild (.intro hraw hc)
  have haction : ∀ {c : Node}, c.Stated added sc (target.node.childParent true) raw →
      List.Forall₂ (fun raw m => m.Stated added (scopeOf raw) raw) raws
        (modifyAt mods target.address (Node.addAction c)) := fun hc =>
    stated_modifyAt hmods ht fun _ _ _ hs => hs.addAction (.intro hraw hc)
  rcases attach_cases h with ⟨-, -, a, ha, rfl⟩ | ⟨-, -, n, hn, rfl⟩ | ⟨-, -, -, n, hn, rfl⟩
  · refine haction ?_
    rw [Node.childParent_true]
    exact buildOperation_stated ha
  · refine hchild ?_
    rw [Node.childParent_true]
    exact buildCase_stated hn
  · refine hchild ?_
    rw [Node.childParent_true]
    exact buildDataNode_stated hn

theorem applyAugment_stated {raws : List Value} {mods : List Module} {sc : Scope} {raw : Value}
    {place : Text} {r : List Module × Applied} (hnodes : ∀ x ∈ raw.itemsAt "nodes", added sc x)
    (hmods : List.Forall₂ (fun raw m => m.Stated added (scopeOf raw) raw) raws mods)
    (h : applyAugment sc mods raw place = .ok r) :
    List.Forall₂ (fun raw m => m.Stated added (scopeOf raw) raw) raws r.1 := by
  obtain ⟨-, -, hattached⟩ := applyAugment_cases h
  refine foldlM_ok_invariant_mem
    (fun acc => List.Forall₂ (fun raw m => m.Stated added (scopeOf raw) raw) raws acc.1)
    ?_ hmods hattached
  intro acc item acc' hitem hacc hstep
  obtain ⟨node, r', hnode, hr, rfl⟩ := attachItem_cases hstep
  exact attach_stated (hnodes item.1 (List.fst_mem_of_mem_zipIdx hitem)) hacc hnode hr

theorem applyAugments_stated {namespaces : List (Text × Text)} {raws : List Value}
    {acc result : List Module × List (Nat × Applied)} {raw : Value} {k : Nat}
    (haug : ∀ aug ∈ raw.itemsAt "augments", ∀ x ∈ aug.itemsAt "nodes",
      added (Scope.ofStatement raw namespaces) x)
    (hacc : List.Forall₂ (fun raw m => m.Stated added (scopeOf raw) raw) raws acc.1)
    (h : applyAugments namespaces acc raw k = .ok result) :
    List.Forall₂ (fun raw m => m.Stated added (scopeOf raw) raw) raws result.1 := by
  refine foldlM_ok_invariant_mem
    (fun acc => List.Forall₂ (fun raw m => m.Stated added (scopeOf raw) raw) raws acc.1)
    ?_ hacc h
  intro acc item acc' hitem hinv hstep
  obtain ⟨aug, i⟩ := item
  simp only [bind, Except.bind, pure, Except.pure] at hstep
  split at hstep
  · cases hstep
  · rename_i r hr
    cases hstep
    exact applyAugment_stated (haug aug (List.fst_mem_of_mem_zipIdx hitem)) hinv hr

end Modules

/-! ## A loaded document -/

/-- The node statements of the augment statements of a document's module statements, each with
the scope of its module statement. -/
def augmentStatements (raws : List Value) (sc : Scope) (x : Value) : Prop :=
  ∃ raw ∈ raws, sc = Scope.ofStatement raw (namespacesOf raws) ∧
    ∃ aug ∈ raw.itemsAt "augments", x ∈ aug.itemsAt "nodes"

/-- Each module stands for the module statement in its place, and every node attached under its
nodes for a node statement of an augment statement of the document. -/
def ModulesStated (raws : List Value) (mods : List Module) : Prop :=
  List.Forall₂ (fun raw m => m.Stated (augmentStatements raws)
    (Scope.ofStatement raw (namespacesOf raws)) raw) raws mods

/-- Every module of a loaded document stands for its module statement, and every node under it,
attached ones included, for its own statement, as `Node.Stated` says. -/
theorem Context.stated_of_load {doc : Value} {ctx : Context} (h : Context.load doc = .ok ctx) :
    ModulesStated (doc.itemsAt "modules") ctx.modules := by
  obtain ⟨-, built, r, hbuilt, hr, hctx⟩ := Context.load_cases h
  unfold ModulesStated
  have hbuilt' := forall₂_of_mapM_zipIdx hbuilt fun _ _ _ hm =>
    @buildModule_stated (augmentStatements (doc.itemsAt "modules")) _ _ _ _ hm
  have hfinal := foldlM_ok_invariant_mem
    (fun acc => List.Forall₂ (fun raw m => m.Stated (augmentStatements (doc.itemsAt "modules"))
      (Scope.ofStatement raw (namespacesOf (doc.itemsAt "modules"))) raw)
      (doc.itemsAt "modules") acc.1)
    (fun acc item acc' hitem hinv hstep => applyAugments_stated
      (fun aug haug x hx => ⟨item.1, List.fst_mem_of_mem_zipIdx hitem, rfl, aug, haug, hx⟩)
      hinv hstep) hbuilt' hr
  rw [hctx, List.forall₂_map_right_iff]
  rw [← List.zipIdx_map_fst 0 r.1, List.forall₂_map_right_iff] at hfinal
  exact hfinal.imp fun _ _ hm => ⟨hm.name, hm.namespaceUri, hm.data, hm.rpcs, hm.notifications⟩

section

open YangDiagram.Diagram

/-! ## An augment through an added node

Module `a` has a container `x`. Module `b` adds a container `c` under `/a:x`, and module `c` adds
a leaf `l` under `/a:x/b:c`, the container that `b` adds. -/

namespace AugmentChain

def rawA : Value := .obj [("name", .str "a"), ("prefix", .str "a"), ("namespace", .str "urn:a"),
  ("data", .arr [.obj [("kind", .str "container"), ("name", .str "x")]])]
def rawAugB : Value := .obj [("target", .str "/a:x"),
  ("nodes", .arr [.obj [("kind", .str "container"), ("name", .str "c")]])]
def rawB : Value := .obj [("name", .str "b"), ("prefix", .str "b"), ("namespace", .str "urn:b"),
  ("imports", .arr [.obj [("module", .str "a"), ("prefix", .str "a")]]),
  ("augments", .arr [rawAugB])]
def rawAugC : Value := .obj [("target", .str "/a:x/b:c"),
  ("nodes", .arr [.obj [("kind", .str "leaf"), ("name", .str "l"), ("type", .str "string")]])]
def rawC : Value := .obj [("name", .str "c"), ("prefix", .str "c"), ("namespace", .str "urn:c"),
  ("imports", .arr [.obj [("module", .str "a"), ("prefix", .str "a")],
    .obj [("module", .str "b"), ("prefix", .str "b")]]),
  ("augments", .arr [rawAugC])]

def docBC : Value := .obj [("modules", .arr [rawA, rawB, rawC])]
def docCB : Value := .obj [("modules", .arr [rawA, rawC, rawB])]

theorem check_docBC : Document.check docBC = none :=
  Document.check_eq_none_of_conforms (n := 64) (by decide)

theorem check_docCB : Document.check docCB = none :=
  Document.check_eq_none_of_conforms (n := 64) (by decide)

def qx : QName := ⟨"a", "urn:a", "x"⟩
def qc : QName := ⟨"b", "urn:b", "c"⟩
def ql : QName := ⟨"c", "urn:c", "l"⟩

def leafL : Node :=
  .leaf { qname := ql, path := [qx, qc, ql], status := .current, config := some true,
          ifFeatures := [], augmenting := true } { name := "string" } false

def containerC (children : List Node) : Node :=
  .container { qname := qc, path := [qx, qc], status := .current, config := some true,
               ifFeatures := [], augmenting := true } false children []

def containerX (children : List Node) : Node :=
  .container { qname := qx, path := [qx], status := .current, config := some true,
               ifFeatures := [], augmenting := false } false children []

def moduleA (children : List Node) : Module :=
  { name := "a", prefixName := "a", namespaceUri := "urn:a", revision := none,
    imports := [("a", "a")], features := [], dataNodes := [containerX children], rpcs := [],
    notifications := [], augments := [] }

def moduleB : Module :=
  { name := "b", prefixName := "b", namespaceUri := "urn:b", revision := none,
    imports := [("b", "b"), ("a", "a")], features := [], dataNodes := [], rpcs := [],
    notifications := [], augments := [] }

def moduleC : Module :=
  { name := "c", prefixName := "c", namespaceUri := "urn:c", revision := none,
    imports := [("c", "c"), ("a", "a"), ("b", "b")], features := [], dataNodes := [], rpcs := [],
    notifications := [], augments := [] }

def scopeB (ns : List (Text × Text)) : Scope := ⟨"b", "b", "urn:b", moduleB.imports, ns⟩
def scopeC (ns : List (Text × Text)) : Scope := ⟨"c", "c", "urn:c", moduleC.imports, ns⟩

theorem scope_rawB (ns : List (Text × Text)) : Scope.ofStatement rawB ns = scopeB ns := by
  simp +decide [Scope.ofStatement, rawB, scopeB, moduleB, Value.itemsAt, Value.get?,
    Value.textAt?, Value.text?, Members.find?, putKey]

theorem scope_rawC (ns : List (Text × Text)) : Scope.ofStatement rawC ns = scopeC ns := by
  simp +decide [Scope.ofStatement, rawC, scopeC, moduleC, Value.itemsAt, Value.get?,
    Value.textAt?, Value.text?, Members.find?, putKey]

theorem build_rawA (i : Nat) (ns : List (Text × Text)) : buildModule rawA i ns = .ok (moduleA []) := by
  have hd : rawA.itemsAt "data" = [.obj [("kind", .str "container"), ("name", .str "x")]] := rfl
  have hr : rawA.itemsAt "rpcs" = [] := rfl
  have hn : rawA.itemsAt "notifications" = [] := rfl
  simp only [buildModule, hd, hr, hn, List.zipIdx_cons, List.zipIdx_nil, List.mapM_cons,
    List.mapM_nil]
  rw [buildDataNode_container_nil _ _ _ _ (by decide) rfl rfl]
  simp +decide [bind, Except.bind, pure, Except.pure, moduleA, containerX, baseInfo,
    inheritConfig, Scope.ofStatement, Scope.qname, Value.textAt?, Value.text?, Value.get?,
    Value.flagAt?, Members.find?, Value.textsAt, Value.itemsAt, qx, rawA]

theorem build_rawB (i : Nat) (ns : List (Text × Text)) : buildModule rawB i ns = .ok moduleB := by
  simp only [buildModule, scope_rawB]
  simp +decide [bind, Except.bind, pure, Except.pure, moduleB, scopeB, Value.textAt?,
    Value.text?, Value.get?, Members.find?, Value.textsAt, Value.itemsAt, rawB]

theorem build_rawC (i : Nat) (ns : List (Text × Text)) : buildModule rawC i ns = .ok moduleC := by
  simp only [buildModule, scope_rawC]
  simp +decide [bind, Except.bind, pure, Except.pure, moduleC, scopeC, Value.textAt?,
    Value.text?, Value.get?, Members.find?, Value.textsAt, Value.itemsAt, rawC]

theorem resolve_x (ns : List (Text × Text)) (place : Text) :
    resolveTarget (scopeB ns) [moduleA [], moduleB, moduleC] "/a:x" place =
      .ok ⟨[qx], ⟨0, .data 0, []⟩, containerX [], none⟩ := by
  have hsplit : (Text.ofString "/a:x").splitOn (Text.unit '/') =
      [Text.ofString "", Text.ofString "a:x"] := by decide
  have hx : (Text.ofString "a:x").splitOn (Text.unit ':') =
      [Text.ofString "a", Text.ofString "x"] := by decide
  simp only [resolveTarget, hsplit, List.drop, List.foldlM_cons, List.foldlM_nil]
  simp +decide [stepTarget, hx, Scope.resolve, scopeB, latestIndex, firstLatest, Module.tops,
    moduleA, moduleB, moduleC, containerX, qx, QName.same, bind, Except.bind, pure, Except.pure,
    Text.intercalate, Node.kind, lookupKey, Node.qname, Node.info]

def modsAddedC : List Module := [moduleA [containerC []], moduleB, moduleC]

theorem applyAugment_b (ns : List (Text × Text)) (place : Text) :
    applyAugment (scopeB ns) [moduleA [], moduleB, moduleC] rawAugB place =
      .ok (modsAddedC, ⟨"/a:x", ⟨[qx], ⟨0, .data 0, []⟩, containerX [], none⟩,
        [⟨0, .data 0, [.child 0]⟩]⟩) := by
  have htarget : (rawAugB.textAt? "target").getD "" = "/a:x" := by decide
  simp only [applyAugment, htarget, resolve_x, bind, Except.bind]
  have hnodes : rawAugB.itemsAt "nodes" =
      [.obj [("kind", .str "container"), ("name", .str "c")]] := rfl
  simp only [hnodes, List.zipIdx_cons, List.zipIdx_nil, List.foldlM_cons, List.foldlM_nil]
  have hat : nodeAt? [moduleA [], moduleB, moduleC] ⟨0, .data 0, []⟩ = some (containerX []) := by
    simp [nodeAt?, moduleA, Module.tops, Node.nodeAt?]
  simp +decide only [hat, attach, containerX, Node.kind, Node.counts, Node.path, Node.info]
  rw [buildDataNode_container_nil _ _ _ _ (by decide) rfl rfl]
  simp +decide [baseInfo, inheritConfig, Value.textAt?, Value.text?, Value.get?,
    Members.find?, Value.flagAt?, Value.textsAt, Scope.qname, scopeB, modifyAt, Module.modifyTop,
    Node.modifyAt, Node.addChild, modsAddedC, moduleA, containerX, containerC, qx, qc, pure,
    Except.pure, bind, Except.bind]

theorem splitOn_xc : (Text.ofString "/a:x/b:c").splitOn (Text.unit '/') =
    [Text.ofString "", Text.ofString "a:x", Text.ofString "b:c"] := by
  decide

theorem resolve_xc (ns : List (Text × Text)) (place : Text) :
    resolveTarget (scopeC ns) modsAddedC "/a:x/b:c" place =
      .ok ⟨[qx, qc], ⟨0, .data 0, [.child 0]⟩, containerC [], none⟩ := by
  have hx : (Text.ofString "a:x").splitOn (Text.unit ':') =
      [Text.ofString "a", Text.ofString "x"] := by decide
  have hc : (Text.ofString "b:c").splitOn (Text.unit ':') =
      [Text.ofString "b", Text.ofString "c"] := by decide
  simp only [resolveTarget, splitOn_xc, List.drop, List.foldlM_cons, List.foldlM_nil]
  simp +decide [stepTarget, hx, hc, Scope.resolve, scopeC, latestIndex, firstLatest, Module.tops,
    modsAddedC, moduleA, moduleB, moduleC, containerX, containerC, qx, qc, QName.same, bind,
    Except.bind, pure, Except.pure, Text.intercalate, Node.kind, lookupKey, Node.qname, Node.info,
    Node.slots]

def modsAddedL : List Module := [moduleA [containerC [leafL]], moduleB, moduleC]

theorem applyAugment_c (ns : List (Text × Text)) (place : Text) :
    applyAugment (scopeC ns) modsAddedC rawAugC place =
      .ok (modsAddedL, ⟨"/a:x/b:c", ⟨[qx, qc], ⟨0, .data 0, [.child 0]⟩, containerC [], none⟩,
        [⟨0, .data 0, [.child 0, .child 0]⟩]⟩) := by
  have htarget : (rawAugC.textAt? "target").getD "" = "/a:x/b:c" := by decide
  simp only [applyAugment, htarget, resolve_xc, bind, Except.bind]
  have hnodes : rawAugC.itemsAt "nodes" =
      [.obj [("kind", .str "leaf"), ("name", .str "l"), ("type", .str "string")]] := rfl
  simp only [hnodes, List.zipIdx_cons, List.zipIdx_nil, List.foldlM_cons, List.foldlM_nil]
  have hat : nodeAt? modsAddedC ⟨0, .data 0, [.child 0]⟩ = some (containerC []) := by
    simp [nodeAt?, modsAddedC, moduleA, Module.tops, Node.nodeAt?, containerX, Node.slots]
  have hstring : (Text.ofString "string").splitOn (Text.unit ':') = [Text.ofString "string"] := by
    decide
  simp +decide only [hat, attach, containerC, Node.kind, Node.counts, Node.path, Node.info]
  rw [buildDataNode_leaf _ _ _ _ (by decide)]
  simp +decide [baseInfo, inheritConfig, Scope.typeRef, hstring, Value.textAt?, Value.text?,
    Value.get?, Members.find?, Value.flagAt?, Value.textsAt, Scope.qname, scopeC, modifyAt,
    Module.modifyTop, Node.modifyAt, Node.modifySlot, Node.addChild, modsAddedC, modsAddedL,
    moduleA, containerX, containerC, leafL, ql, Except.map, pure, Except.pure, bind, Except.bind]

theorem resolve_xc_early (ns : List (Text × Text)) (place : Text) :
    resolveTarget (scopeC ns) [moduleA [], moduleC, moduleB] "/a:x/b:c" place =
      .error (.targetNotFound "/a:x/b:c" "c" place) := by
  have hx : (Text.ofString "a:x").splitOn (Text.unit ':') =
      [Text.ofString "a", Text.ofString "x"] := by decide
  have hc : (Text.ofString "b:c").splitOn (Text.unit ':') =
      [Text.ofString "b", Text.ofString "c"] := by decide
  simp only [resolveTarget, splitOn_xc, List.drop, List.foldlM_cons, List.foldlM_nil]
  simp +decide [stepTarget, hx, hc, Scope.resolve, scopeC, latestIndex, firstLatest, Module.tops,
    moduleA, moduleB, moduleC, containerX, qx, QName.same, bind, Except.bind, pure, Except.pure,
    Text.intercalate, Node.kind, lookupKey, Node.qname, Node.info, Node.slots, throw, throwThe,
    MonadExceptOf.throw]

def augmentingB : Module :=
  { moduleB with augments := [⟨"/a:x", [qx], none, [containerC [leafL]]⟩] }

def augmentingC : Module :=
  { moduleC with augments := [⟨"/a:x/b:c", [qx, qc], none, [leafL]⟩] }

def contextBC : Context := ⟨[moduleA [containerC [leafL]], augmentingB, augmentingC]⟩

theorem load_docBC : Context.load docBC = .ok contextBC := by
  have hitems : docBC.itemsAt "modules" = [rawA, rawB, rawC] := rfl
  simp only [Context.load, check_docBC, hitems]
  simp only [List.zipIdx_cons, List.zipIdx_nil, Nat.zero_add, Nat.reduceAdd, List.mapM_cons,
    List.mapM_nil, build_rawA, build_rawB, build_rawC, bind, Except.bind, pure, Except.pure,
    List.foldlM_cons, List.foldlM_nil]
  have ha : rawA.itemsAt "augments" = [] := rfl
  have hb : rawB.itemsAt "augments" = [rawAugB] := rfl
  have hc : rawC.itemsAt "augments" = [rawAugC] := rfl
  simp only [applyAugments, scope_rawB, scope_rawC, ha, hb, hc, List.zipIdx_cons,
    List.zipIdx_nil, Nat.zero_add, List.foldlM_cons, List.foldlM_nil, applyAugment_b,
    applyAugment_c, bind, Except.bind, pure, Except.pure]
  simp +decide [augmentsOf, nodeAt?, modsAddedL, moduleA, Module.tops, Node.nodeAt?, containerX,
    containerC, Node.slots, contextBC, augmentingB, augmentingC]

theorem load_docCB : Context.load docCB =
    .error (.targetNotFound "/a:x/b:c" "c" "/modules/1/augments/0/target") := by
  have hitems : docCB.itemsAt "modules" = [rawA, rawC, rawB] := rfl
  simp only [Context.load, check_docCB, hitems]
  simp only [List.zipIdx_cons, List.zipIdx_nil, Nat.zero_add, Nat.reduceAdd, List.mapM_cons,
    List.mapM_nil, build_rawA, build_rawB, build_rawC, bind, Except.bind, pure, Except.pure,
    List.foldlM_cons, List.foldlM_nil]
  have ha : rawA.itemsAt "augments" = [] := rfl
  have hc : rawC.itemsAt "augments" = [rawAugC] := rfl
  have htarget : (rawAugC.textAt? "target").getD "" = "/a:x/b:c" := by decide
  simp only [applyAugments, scope_rawC, ha, hc, List.zipIdx_cons, List.zipIdx_nil, Nat.zero_add,
    List.foldlM_cons, List.foldlM_nil, applyAugment, htarget, resolve_xc_early, bind, Except.bind,
    pure, Except.pure]
  have hplace : itemPlace ("/modules/" ++ Text.ofNat 1) "augments" 0 ++ "/target" =
      Text.ofString "/modules/1/augments/0/target" := by
    decide
  rw [hplace]

end AugmentChain

end

open AugmentChain in
/-- The modules of a chain of augments stand for their statements: `b` attaches a container under
`a`'s `x`, and `c` a leaf under that container. -/
theorem stated_of_load_augmentChain :
    Context.load docBC = .ok contextBC ∧
      ModulesStated (docBC.itemsAt "modules") contextBC.modules :=
  ⟨load_docBC, Context.stated_of_load load_docBC⟩

end YangDiagram.Schema
