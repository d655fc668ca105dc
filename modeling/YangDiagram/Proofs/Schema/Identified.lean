-- Identifier names along every path: every statement of a checked document is well named, and
-- loading builds each node from such a statement, so every name on every path of a loaded
-- document is an identifier.
import Mathlib
import YangDiagram.Proofs.Schema.Reorder

namespace YangDiagram

open YangDiagram.Json

namespace Document

/-! ## Statements named by identifiers -/

/-- The members under which a statement lists the statements below it. -/
def nestedKeys : List Text := ["children", "actions", "input", "output"]

/-- A statement named by an identifier, as is every statement it lists under it, at any depth. -/
inductive WellNamed : Value → Prop
  | intro {v : Value} (self : NamedByIdentifier v)
      (below : ∀ k ∈ nestedKeys, ∀ x ∈ v.itemsAt k, WellNamed x) : WellNamed v

theorem WellNamed.named {v : Value} (h : WellNamed v) : NamedByIdentifier v := by
  cases h with
  | intro self _ => exact self

theorem WellNamed.item {v x : Value} (h : WellNamed v) {k : Text} (hk : k ∈ nestedKeys)
    (hx : x ∈ v.itemsAt k) : WellNamed x := by
  cases h with
  | intro _ below => exact below k hk x hx

theorem NamedByIdentifier.accepts_name {v : Value} (h : NamedByIdentifier v) :
    Pattern.accepts .identifier ((v.textAt? "name").getD "") = true := by
  obtain ⟨s, hs, hid⟩ := h
  rw [hs, Option.getD_some]
  exact hid

/-- The shapes of the statements a document lists: data nodes, alone or among cases or actions,
operations and notifications. -/
def statementShapes : List Shape :=
  [.dataNode, .caseOrDataNode, .augmentNode, .operation, .notification]

def Rule.listsStatements : Rule → Bool
  | .array (.shape s) => decide (s ∈ statementShapes)
  | _ => false

theorem Rule.eq_many_of_listsStatements {r : Rule} (h : r.listsStatements = true) :
    ∃ s ∈ statementShapes, r = .many s := by
  unfold listsStatements at h
  split at h
  · exact ⟨_, of_decide_eq_true h, rfl⟩
  · cases h

/-- The members of a statement's rule: a required name that is an identifier, and a list of
statements under each member that lists statements below it. -/
structure StatementMembers (required : List String) (members : List (String × Rule)) : Prop where
  name_required : "name" ∈ required
  name_rule : ("name", Rule.shape .identifier) ∈ members
  nested : ∀ a ∈ members, Text.ofString a.1 ∈ nestedKeys → a.2.listsStatements = true

def StatementRule (r : Rule) : Prop :=
  ∃ required members, r = .object required members true none ∧ StatementMembers required members

theorem statementRule_of_kind :
    ∀ p ∈ ("case", Shape.case) :: ("action", Shape.action) :: Rule.dataKinds,
      StatementRule p.2.rule := by
  intro p hp
  simp only [Rule.dataKinds, List.mem_cons, List.not_mem_nil, or_false] at hp
  rcases hp with rfl | rfl | rfl | rfl | rfl | rfl | rfl | rfl | rfl <;>
    exact ⟨_, _, rfl, ⟨by simp, by simp, by decide⟩⟩

theorem statementRule_operation : StatementRule Shape.operation.rule :=
  ⟨_, _, rfl, ⟨by simp, by simp, by decide⟩⟩

theorem statementRule_notification : StatementRule Shape.notification.rule :=
  ⟨_, _, rfl, ⟨by simp, by simp, by decide⟩⟩

/-- A statement that passes the rule of a statement shape is an object that passes a statement's
closed members; a data node or augment node picks them by its kind. -/
theorem statementMembers_of_checkRule {s : Shape} (hs : s ∈ statementShapes) {v : Value}
    {place : List Text} (h : checkRule (.shape s) v place = none) :
    ∃ ms required members, v = .obj ms ∧ StatementMembers required members ∧
      checkMembers required members true ms place = none := by
  have hpicked : ∀ kinds : List (String × Shape),
      (∀ p ∈ kinds, p ∈ ("case", Shape.case) :: ("action", Shape.action) :: Rule.dataKinds) →
      checkRule (Rule.byKind kinds) v place = none →
      ∃ ms required members, v = .obj ms ∧ StatementMembers required members ∧
        checkMembers required members true ms place = none := by
    intro kinds hkinds hk
    obtain ⟨ms, rfl, -, hpick⟩ := obj_of_checkRule_object hk
    obtain ⟨word, k, b, -, hb, hmembers⟩ := hpick _ _ rfl
    obtain ⟨required, members, hrule, hsm⟩ := statementRule_of_kind (k, b) (hkinds _ hb)
    exact ⟨ms, required, members, rfl, hsm, hmembers _ _ _ _ hrule⟩
  have hdirect : ∀ {r : Rule}, StatementRule r → checkRule r v place = none →
      ∃ ms required members, v = .obj ms ∧ StatementMembers required members ∧
        checkMembers required members true ms place = none := by
    intro r hr hk
    obtain ⟨required, members, rfl, hsm⟩ := hr
    obtain ⟨ms, rfl, hmembers, -⟩ := obj_of_checkRule_object hk
    exact ⟨ms, required, members, rfl, hsm, hmembers⟩
  rw [checkRule_shape] at h
  simp only [statementShapes, List.mem_cons, List.not_mem_nil, or_false] at hs
  rcases hs with rfl | rfl | rfl | rfl | rfl
  · exact hpicked Rule.dataKinds
      (fun p hp => List.mem_cons_of_mem _ (List.mem_cons_of_mem _ hp)) h
  · refine hpicked (("case", Shape.case) :: Rule.dataKinds) (fun p hp => ?_) h
    rcases List.mem_cons.mp hp with rfl | hp
    · exact List.mem_cons_self
    · exact List.mem_cons_of_mem _ (List.mem_cons_of_mem _ hp)
  · exact hpicked (("case", Shape.case) :: ("action", Shape.action) :: Rule.dataKinds)
      (fun p hp => hp) h
  · exact hdirect statementRule_operation h
  · exact hdirect statementRule_notification h

theorem key_mem_of_checkMembers {required : List String} {members : List (String × Rule)}
    {ms : Members} {place : List Text} (h : checkMembers required members true ms place = none)
    {k : Text} {c : Value} (hc : Members.find? ms k = some c) :
    ∃ a ∈ members, Text.ofString a.1 = k := by
  rw [checkMembers] at h
  split at h
  · cases h
  · split at h
    · cases h
    · rename_i hclosed
      have hk : k ∈ ms.map Prod.fst := Members.isSome_find?_iff.mp (by simp [hc])
      obtain ⟨m, hm, rfl⟩ := List.mem_map.mp hk
      simp only [Bool.true_and, List.any_eq_true, Bool.not_eq_eq_eq_not, Bool.not_true,
        List.any_eq_false, decide_eq_true_eq, not_exists, not_and, not_forall, not_not] at hclosed
      obtain ⟨a, ha, hak⟩ := hclosed m hm
      exact ⟨a, ha, hak⟩

/-- A statement that passes the rule of a statement shape is well named. -/
theorem wellNamed_of_checkRule {s : Shape} {v : Value} {place : List Text}
    (hs : s ∈ statementShapes) (h : checkRule (.shape s) v place = none) : WellNamed v := by
  obtain ⟨ms, required, members, rfl, hsm, hcheck⟩ := statementMembers_of_checkRule hs h
  obtain ⟨name, hname, hid⟩ := name_of_checkMembers hcheck hsm.name_required hsm.name_rule
  refine .intro (namedByIdentifier_of_find? hname hid) fun k hk x hx => ?_
  obtain ⟨xs, hxs, hmem⟩ := mem_of_mem_itemsAt hx
  obtain ⟨a, ha, hak⟩ := key_mem_of_checkMembers hcheck hxs
  obtain ⟨s', hs', hrule⟩ := Rule.eq_many_of_listsStatements (hsm.nested a ha (hak ▸ hk))
  have harr := checkMembers_member hcheck (show (a.1, a.2) ∈ members from ha) (hak ▸ hxs)
  rw [hrule] at harr
  obtain ⟨xs', hxs', hitems⟩ := checkRule_array harr
  cases hxs'
  obtain ⟨q, hq⟩ := hitems x hmem
  exact wellNamed_of_checkRule hs' hq
termination_by sizeOf v
decreasing_by
  subst_vars
  exact Value.sizeOf_lt_of_mem_itemsAt hx

theorem wellNamed_of_items {required : List String} {members : List (String × Rule)}
    {closed : Bool} {pick : Option (String × List (String × Shape))} {v : Value}
    {place : List Text} (h : checkRule (.object required members closed pick) v place = none)
    {k : String} {s : Shape} (hk : (k, Rule.many s) ∈ members) (hs : s ∈ statementShapes) :
    ∀ x ∈ v.itemsAt (Text.ofString k), WellNamed x := by
  intro x hx
  obtain ⟨q, hq⟩ := checkRule_items h hk x hx
  exact wellNamed_of_checkRule hs hq

/-- A checked document names each module statement by an identifier, and every node statement
it lists at the top or in an augment is well named. -/
theorem statements_of_check {doc : Value} (h : check doc = none) :
    ∀ raw ∈ doc.itemsAt "modules", NamedByIdentifier raw ∧
      (∀ x ∈ raw.itemsAt "data" ++ raw.itemsAt "rpcs" ++ raw.itemsAt "notifications",
        WellNamed x) ∧
      ∀ aug ∈ raw.itemsAt "augments", ∀ x ∈ aug.itemsAt "nodes", WellNamed x := by
  intro raw hraw
  have hnamed := (names_of_check h raw hraw).1
  rw [check, checkRule_shape] at h
  obtain ⟨q, hq⟩ :=
    checkRule_items h (show ("modules", Rule.many .module) ∈ _ by simp) raw hraw
  rw [checkRule_shape] at hq
  refine ⟨hnamed, fun x hx => ?_, fun aug haug x hx => ?_⟩
  · simp only [List.mem_append] at hx
    rcases hx with (hx | hx) | hx
    · exact wellNamed_of_items hq (show ("data", Rule.many .dataNode) ∈ _ by simp)
        (by simp [statementShapes]) x hx
    · exact wellNamed_of_items hq (show ("rpcs", Rule.many .operation) ∈ _ by simp)
        (by simp [statementShapes]) x hx
    · exact wellNamed_of_items hq (show ("notifications", Rule.many .notification) ∈ _ by simp)
        (by simp [statementShapes]) x hx
  · obtain ⟨q', hq'⟩ :=
      checkRule_items hq (show ("augments", Rule.many .augment) ∈ _ by simp) aug haug
    rw [checkRule_shape] at hq'
    exact wellNamed_of_items hq' (show ("nodes", Rule.many .augmentNode) ∈ _ by simp)
      (by simp [statementShapes]) x hx

end Document

namespace Schema

open YangDiagram.Document

/-! ## Names of nodes -/

/-- A name whose module name and local name match the identifier pattern of the document
grammar. -/
def QName.Identified (q : QName) : Prop :=
  Pattern.accepts .identifier q.module = true ∧ Pattern.accepts .identifier q.localName = true

theorem wellNamed_of_mem_childItems {raw : Value} (h : WellNamed raw) (k : Kind) :
    ∀ x ∈ childItems k raw, WellNamed x := by
  intro x hx
  cases k <;> simp only [childItems, List.not_mem_nil] at hx
  case case =>
    split at hx
    · exact h.item (by decide) hx
    · rw [List.mem_singleton.mp hx]
      exact h
  all_goals exact h.item (by decide) hx

theorem wellNamed_of_mem_actionItems {raw : Value} (h : WellNamed raw) (k : Kind) :
    ∀ x ∈ actionItems k raw, WellNamed x := by
  intro x hx
  cases k <;> simp only [actionItems, List.not_mem_nil] at hx
  all_goals exact h.item (by decide) hx

/-- A statement named by an identifier names its node by an identifier, whatever its kind: an
input or an output is named by its keyword. -/
theorem accepts_statedName {raw : Value} (h : NamedByIdentifier raw) (k : Kind) :
    Pattern.accepts .identifier (statedName k raw) = true := by
  cases k
  case input => exact (by decide : Pattern.accepts .identifier (Text.ofString "input") = true)
  case output => exact (by decide : Pattern.accepts .identifier (Text.ofString "output") = true)
  all_goals exact h.accepts_name

/-- A node stands for a well-named statement, in the scope of a module named by an identifier,
under a parent whose path has identifier names. -/
structure Node.WellStated (added : Scope → Value → Prop) (sc : Scope) (P : Parent) (raw : Value)
    (n : Node) : Prop where
  stated : n.Stated added sc P raw
  named : WellNamed raw
  scope : Pattern.accepts .identifier sc.name = true
  parent : ∀ q ∈ P.path, q.Identified

namespace Node.WellStated

variable {added : Scope → Value → Prop} {sc : Scope} {P : Parent} {raw : Value} {n : Node}

theorem path_identified (hn : n.WellStated added sc P raw) : ∀ q ∈ n.path, q.Identified := by
  obtain ⟨hstated, hnamed, hscope, hparent⟩ := hn
  obtain ⟨hname, hpath, -, -, -, -, -, -, -, -, -⟩ := hstated
  intro q hq
  rw [hpath, List.mem_append, List.mem_singleton] at hq
  rcases hq with hq | rfl
  · exact hparent q hq
  · rw [hname]
    exact And.intro hscope (accepts_statedName hnamed.named n.kind)

-- every statement an augment lists is well named, in the scope of a module named by an identifier
variable (hadded : ∀ sc x, added sc x → WellNamed x ∧ Pattern.accepts .identifier sc.name = true)

include hadded in
/-- One step down from a well-stated node reaches a well-stated node: a child or action of its
statements, its input or output, or a node an augment attached. -/
theorem slot? (hn : n.WellStated added sc P raw) {s : Slot} {c : Node}
    (hc : n.slot? s = some c) : ∃ sc' raw' b, c.WellStated added sc' (n.childParent b) raw' := by
  have hpath := hn.path_identified
  obtain ⟨hstated, hnamed, hscope, -⟩ := hn
  obtain ⟨-, -, -, -, -, child, attachedChild, -, action, attachedAction, body⟩ := hstated
  have hattached : ∀ b, c.Attached added (n.childParent b) →
      ∃ sc' raw', c.WellStated added sc' (n.childParent b) raw' := by
    intro b hatt
    obtain ⟨listed, stated⟩ := hatt
    obtain ⟨hx, hsc⟩ := hadded _ _ listed
    exact ⟨_, _, stated, hx, hsc, hpath⟩
  cases s with
  | child i =>
    by_cases hi : i < (childItems n.kind raw).length
    · exact ⟨sc, _, false, child i c _ hc (List.getElem?_eq_getElem hi),
        wellNamed_of_mem_childItems hnamed n.kind _ (List.getElem_mem hi), hscope, hpath⟩
    · obtain ⟨sc', raw', h⟩ := hattached true (attachedChild i c hc (by omega))
      exact ⟨sc', raw', true, h⟩
  | action i =>
    by_cases hi : i < (actionItems n.kind raw).length
    · exact ⟨sc, _, false, action i c _ hc (List.getElem?_eq_getElem hi),
        wellNamed_of_mem_actionItems hnamed n.kind _ (List.getElem_mem hi), hscope, hpath⟩
    · obtain ⟨sc', raw', h⟩ := hattached true (attachedAction i c hc (by omega))
      exact ⟨sc', raw', true, h⟩
  | input => exact ⟨sc, raw, false, body _ c (.inl rfl) hc, hnamed, hscope, hpath⟩
  | output => exact ⟨sc, raw, false, body _ c (.inr rfl) hc, hnamed, hscope, hpath⟩

include hadded in
theorem nodeAt? : ∀ (steps : List Slot) {sc : Scope} {P : Parent} {raw : Value} {n c : Node},
    n.WellStated added sc P raw → Node.nodeAt? steps n = some c → ∀ q ∈ c.path, q.Identified
  | [], _, _, _, _, _, hn, h => by
    cases h
    exact hn.path_identified
  | s :: rest, _, _, _, _, _, hn, h => by
    rw [Node.nodeAt?_cons, Option.bind_eq_some_iff] at h
    obtain ⟨y, hy, hc⟩ := h
    obtain ⟨sc', raw', b, hy'⟩ := hn.slot? hadded hy
    exact nodeAt? rest hy' hc

end Node.WellStated

theorem wellStated_top {added : Scope → Value → Prop} {sc : Scope} {P : Parent}
    {items : List Value} {nodes : List Node} (h : List.Forall₂ (Node.Stated added sc P) items nodes)
    (hP : P.path = []) (hitems : ∀ y ∈ items, WellNamed y)
    (hsc : Pattern.accepts .identifier sc.name = true) {j : Nat} {x : Node}
    (hx : nodes[j]? = some x) : ∃ raw, x.WellStated added sc P raw := by
  have hj : j < items.length := h.length_eq ▸ (List.getElem?_eq_some_iff.mp hx).1
  refine ⟨items[j], forall₂_getElem? h (List.getElem?_eq_getElem hj) hx,
    hitems _ (List.getElem_mem hj), hsc, ?_⟩
  simp [hP]

/-- Every name on the path of every node of a loaded document has an identifier for its module
name and for its local name. -/
theorem Context.identified_of_load {doc : Value} {ctx : Context} (h : Context.load doc = .ok ctx)
    {a : Address} {n : Node} (hn : nodeAt? ctx.modules a = some n) :
    ∀ q ∈ n.path, q.Identified := by
  obtain ⟨hcheck, -⟩ := Context.load_cases h
  have hstmts := statements_of_check hcheck
  have hst := Context.stated_of_load h
  have hadded : ∀ sc x, augmentStatements (doc.itemsAt "modules") sc x →
      WellNamed x ∧ Pattern.accepts .identifier sc.name = true := by
    intro sc x hx
    obtain ⟨raw, hraw, hsc, aug, haug, hxa⟩ := hx
    subst hsc
    exact ⟨(hstmts raw hraw).2.2 aug haug x hxa, (hstmts raw hraw).1.accepts_name⟩
  rw [nodeAt?_eq] at hn
  simp only [Option.bind_eq_some_iff] at hn
  obtain ⟨m, hm, x, hx, hc⟩ := hn
  have hlt : a.module < (doc.itemsAt "modules").length :=
    (List.Forall₂.length_eq hst) ▸ (List.getElem?_eq_some_iff.mp hm).1
  have hms := forall₂_getElem? hst (List.getElem?_eq_getElem hlt) hm
  obtain ⟨hnamed, htops, -⟩ := hstmts _ (List.getElem_mem hlt)
  have hscope := hnamed.accepts_name
  have htop : ∃ P raw, x.WellStated (augmentStatements (doc.itemsAt "modules"))
      (Scope.ofStatement (doc.itemsAt "modules")[a.module]
        (namespacesOf (doc.itemsAt "modules"))) P raw := by
    rw [Module.top?_eq] at hx
    split at hx
    · exact ⟨_, wellStated_top hms.data rfl (fun y hy => htops y (by simp [hy])) hscope hx⟩
    · exact ⟨_, wellStated_top hms.rpcs rfl (fun y hy => htops y (by simp [hy])) hscope hx⟩
    · exact ⟨_, wellStated_top hms.notifications rfl (fun y hy => htops y (by simp [hy]))
        hscope hx⟩
  obtain ⟨P, raw, hx'⟩ := htop
  exact Node.WellStated.nodeAt? hadded a.steps hx' hc

end Schema

end YangDiagram
