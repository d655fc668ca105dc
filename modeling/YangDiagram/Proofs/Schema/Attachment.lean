-- Attaching augment nodes in order: under every node, in each of its lists, the places loading
-- records take, in the order recorded, the places after those the node was built with.
import Mathlib
import YangDiagram.Proofs.Schema.Origin

namespace YangDiagram.Schema

open YangDiagram.Json

/-! ## The lists of a node -/

/-- The two lists of a node an augment appends to: its children, the cases of a choice among
them, and its actions. -/
inductive ListKind where
  | child
  | action
  deriving DecidableEq

namespace ListKind

def slot : ListKind → Nat → Slot
  | .child, i => .child i
  | .action, i => .action i

def nodes : ListKind → Node → List Node
  | .child, n => n.childList
  | .action, n => n.actionList

def index? : ListKind → Slot → Option Nat
  | .child, .child i => some i
  | .action, .action i => some i
  | _, _ => none

def add : ListKind → Node → Node → Node
  | .child => Node.addChild
  | .action => Node.addAction

/-- The nodes that have a list of the kind an augment appends to: anything with children but an
operation for children, a container or list for actions. -/
def Takes : ListKind → Node → Prop
  | .child, n => n.TakesChild
  | .action, n => n.kind = .container ∨ n.kind = .list

theorem index?_eq_some {κ : ListKind} {s : Slot} {i : Nat} :
    κ.index? s = some i ↔ s = κ.slot i := by
  cases κ <;> cases s <;> simp [index?, slot, eq_comm]

@[simp] theorem index?_slot (κ : ListKind) (i : Nat) : κ.index? (κ.slot i) = some i :=
  index?_eq_some.mpr rfl

theorem slot_inj {κ κ' : ListKind} {i j : Nat} (h : κ.slot i = κ'.slot j) : κ = κ' ∧ i = j := by
  cases κ <;> cases κ' <;> simp_all [slot]

theorem keeps_add (κ : ListKind) (c : Node) : Node.Keeps (κ.add c) := by
  cases κ
  · exact Node.keeps_addChild c
  · exact Node.keeps_addAction c

theorem nodes_add_self {κ : ListKind} {n : Node} (h : κ.Takes n) (c : Node) :
    κ.nodes (κ.add c n) = κ.nodes n ++ [c] := by
  cases κ <;> cases n <;> simp_all [Takes, Node.TakesChild, nodes, add, Node.kind, Node.addChild,
    Node.addAction, Node.childList, Node.actionList]

theorem nodes_add_other {κ κ' : ListKind} (h : κ' ≠ κ) (c n : Node) :
    κ'.nodes (κ.add c n) = κ'.nodes n := by
  cases κ <;> cases κ' <;> simp_all [nodes, add, Node.actionList_addChild, Node.childList_addAction]

theorem length_nodes_modifySlot (κ : ListKind) (g : Node → Node) (s : Slot) (n : Node) :
    (κ.nodes (n.modifySlot g s)).length = (κ.nodes n).length := by
  cases κ
  · exact Node.length_childList_modifySlot g s n
  · exact Node.length_actionList_modifySlot g s n

theorem slot?_slot (κ : ListKind) (i : Nat) (n : Node) :
    Node.slot? (κ.slot i) n = (κ.nodes n)[i]? := by
  cases κ
  · exact Node.slot?_child i n
  · exact Node.slot?_action i n

/-- A node under a node with a node appended is one that stood there, or the appended one, one
past the end of the list. -/
theorem slot?_add_cases {κ : ListKind} {c n x : Node} {s : Slot}
    (h : Node.slot? s (κ.add c n) = some x) :
    Node.slot? s n = some x ∨ (s = κ.slot (κ.nodes n).length ∧ x = c) := by
  cases κ
  · exact Node.slot?_addChild_cases h
  · exact Node.slot?_addAction_cases h

end ListKind

def Address.below (a : Address) (rest : List Slot) : Address := { a with steps := a.steps ++ rest }

/-- The place in list `κ` of the node at `a` that address `b` stands at, when it stands one step
under `a` in that list. -/
def Address.indexIn (a : Address) (κ : ListKind) (b : Address) : Option Nat :=
  b.steps.getLast?.bind fun s => if b = a.below [s] then κ.index? s else none

namespace Address

@[simp] theorem below_nil (a : Address) : a.below [] = a := by
  simp [below]

theorem below_below (a : Address) (r r' : List Slot) : (a.below r).below r' = a.below (r ++ r') := by
  simp [below]

theorem below_inj {a a' : Address} {s s' : Slot} (h : a.below [s] = a'.below [s']) :
    a = a' ∧ s = s' := by
  obtain ⟨m, t, steps⟩ := a
  obtain ⟨m', t', steps'⟩ := a'
  simp only [below, mk.injEq] at h
  obtain ⟨rfl, rfl, h⟩ := h
  obtain ⟨rfl, h⟩ := List.append_inj' h rfl
  simp_all

theorem indexIn_eq_some {a b : Address} {κ : ListKind} {i : Nat} :
    a.indexIn κ b = some i ↔ b = a.below [κ.slot i] := by
  constructor
  · intro h
    simp only [indexIn, Option.bind_eq_some_iff] at h
    obtain ⟨s, -, h⟩ := h
    split at h
    · rename_i hb
      rw [hb, ListKind.index?_eq_some.mp h]
    · cases h
  · rintro rfl
    simp [indexIn, below]

theorem indexIn_eq_none {a b : Address} {κ : ListKind} (h : ∀ i, b ≠ a.below [κ.slot i]) :
    a.indexIn κ b = none :=
  Option.eq_none_iff_forall_ne_some.mpr fun i hi => h i (indexIn_eq_some.mp hi)

theorem indexIn_below {a : Address} {κ κ' : ListKind} {i : Nat} :
    a.indexIn κ' (a.below [κ.slot i]) = if κ' = κ then some i else none := by
  split
  · rename_i h
    subst h
    exact indexIn_eq_some.mpr rfl
  · rename_i h
    exact indexIn_eq_none fun j hj => h (ListKind.slot_inj (below_inj hj).2).1.symm

end Address

theorem nodeAt?_below (mods : List Module) (a : Address) (rest : List Slot) :
    nodeAt? mods (a.below rest) = (nodeAt? mods a).bind (Node.nodeAt? rest) := by
  simp [nodeAt?_eq, Address.below, Node.nodeAt?_append, Option.bind_assoc]

/-! ## Where the nodes stand after a change -/

/-- A node at the end of a walk after a change at another: reached from the changed node at or
below it, and elsewhere a node that stood there before with lists of the same lengths. -/
theorem Node.nodeAt?_modifyAt_cases {f : Node → Node} : ∀ (ts xs : List Slot) {n x : Node},
    Node.nodeAt? xs (Node.modifyAt f ts n) = some x →
    (∃ t rest, Node.nodeAt? ts n = some t ∧ xs = ts ++ rest ∧ Node.nodeAt? rest (f t) = some x) ∨
      (¬ ts <+: xs ∧ ∃ y, Node.nodeAt? xs n = some y ∧
        ∀ κ : ListKind, (κ.nodes x).length = (κ.nodes y).length)
  | [], xs, n, x, h => .inl ⟨n, xs, rfl, rfl, h⟩
  | s :: ts, [], n, x, h => by
    simp only [Node.nodeAt?, Option.some.injEq] at h
    subst h
    exact .inr ⟨by simp, n, rfl, fun κ => ListKind.length_nodes_modifySlot κ _ s n⟩
  | s :: ts, s' :: xs, n, x, h => by
    rw [Node.modifyAt, Node.nodeAt?_cons, Option.bind_eq_some_iff] at h
    obtain ⟨y, hy, hx⟩ := h
    rw [Node.slot?_modifySlot] at hy
    split at hy
    · rename_i hs
      subst hs
      obtain ⟨y₀, hy₀, rfl⟩ := Option.map_eq_some_iff.mp hy
      rcases Node.nodeAt?_modifyAt_cases ts xs hx with ⟨t, rest, ht, rfl, hrest⟩ | ⟨hpre, z, hz, hlen⟩
      · exact .inl ⟨t, rest, by rw [Node.nodeAt?_cons, hy₀, Option.bind_some, ht], rfl, hrest⟩
      · refine .inr ⟨fun hp => hpre (List.cons_prefix_cons.mp hp).2, z, ?_, hlen⟩
        rw [Node.nodeAt?_cons, hy₀, Option.bind_some, hz]
    · rename_i hs
      refine .inr ⟨fun hp => hs (List.cons_prefix_cons.mp hp).1.symm, x, ?_, fun _ => rfl⟩
      rw [Node.nodeAt?_cons, hy, Option.bind_some, hx]

/-- A node at an address after a change at another: reached from the changed node at or below
it, and elsewhere a node that stood there before with lists of the same lengths. -/
theorem nodeAt?_modifyAt_cases {f : Node → Node} {mods : List Module} {ta x : Address}
    {N : Node} (h : nodeAt? (modifyAt mods ta f) x = some N) :
    (∃ t rest, nodeAt? mods ta = some t ∧ x = ta.below rest ∧ Node.nodeAt? rest (f t) = some N) ∨
      ((∀ rest, x ≠ ta.below rest) ∧ ∃ y, nodeAt? mods x = some y ∧
        ∀ κ : ListKind, (κ.nodes N).length = (κ.nodes y).length) := by
  rw [nodeAt?_eq, modifyAt] at h
  simp only [Option.bind_eq_some_iff] at h
  obtain ⟨m', hm', y', hy', hN⟩ := h
  by_cases hmod : ta.module = x.module
  · rw [← hmod, List.getElem?_modify_eq] at hm'
    obtain ⟨m, hm, rfl⟩ := Option.map_eq_some_iff.mp hm'
    rw [Module.top?_modifyTop] at hy'
    split at hy'
    · rename_i htop
      obtain ⟨t₀, ht₀, rfl⟩ := Option.map_eq_some_iff.mp hy'
      rcases Node.nodeAt?_modifyAt_cases ta.steps x.steps hN with
        ⟨t, rest, ht, hsteps, hrest⟩ | ⟨hpre, z, hz, hlen⟩
      · refine .inl ⟨t, rest, ?_, ?_, hrest⟩
        · simp [nodeAt?_eq, hm, ← htop, ht₀, ht]
        · obtain ⟨xm, xt, xs⟩ := x
          simp_all [Address.below]
      · refine .inr ⟨fun rest hx => hpre ⟨rest, by rw [hx]; rfl⟩, z, ?_, hlen⟩
        simp [nodeAt?_eq, ← hmod, hm, ht₀, hz]
    · rename_i htop
      refine .inr ⟨fun rest hx => htop (by rw [hx]; rfl), N, ?_, fun _ => rfl⟩
      simp [nodeAt?_eq, ← hmod, hm, hy', hN]
  · rw [List.getElem?_modify_ne _ _ hmod] at hm'
    refine .inr ⟨fun rest hx => hmod (by rw [hx]; rfl), N, ?_, fun _ => rfl⟩
    simp [nodeAt?_eq, hm', hy', hN]

/-- A node at an address after a node is appended to list `κ` of the target: the target, a node
at or under the appended one, or a node that stood there before with lists of the same lengths. -/
theorem nodeAt?_add_cases {mods : List Module} {ta x : Address} {t c N : Node} {κ : ListKind}
    (ht : nodeAt? mods ta = some t) (h : nodeAt? (modifyAt mods ta (κ.add c)) x = some N) :
    (x = ta ∧ N = κ.add c t) ∨ (∃ rest, x = ta.below (κ.slot (κ.nodes t).length :: rest)) ∨
      (x ≠ ta ∧ ∃ y, nodeAt? mods x = some y ∧
        ∀ κ' : ListKind, (κ'.nodes N).length = (κ'.nodes y).length) := by
  rcases nodeAt?_modifyAt_cases h with ⟨t', rest, ht', rfl, hrest⟩ | ⟨hne, y, hy, hlen⟩
  · rw [ht, Option.some.injEq] at ht'
    subst ht'
    cases rest with
    | nil =>
      simp only [Node.nodeAt?, Option.some.injEq] at hrest
      exact .inl ⟨by simp, hrest.symm⟩
    | cons s rest =>
      rw [Node.nodeAt?_cons, Option.bind_eq_some_iff] at hrest
      obtain ⟨z, hz, hrest⟩ := hrest
      rcases ListKind.slot?_add_cases hz with hz | ⟨rfl, rfl⟩
      · refine .inr (.inr ⟨fun he => ?_, N, ?_, fun _ => rfl⟩)
        · have hlen := congrArg (fun a : Address => a.steps.length) he
          simp [Address.below] at hlen
        · rw [nodeAt?_below, ht, Option.bind_some, Node.nodeAt?_cons, hz, Option.bind_some, hrest]
      · exact .inr (.inl ⟨rest, rfl⟩)
  · exact .inr (.inr ⟨fun he => hne [] (by simp [he]), y, hy, hlen⟩)

/-! ## What attaching leaves -/

/-- What attaching nodes leaves, for modules first built as `built`, in modules `mods` with the
places `adds` recorded for the attached nodes in the order of attachment. -/
structure Appended (built mods : List Module) (adds : List Address) : Prop where
  /-- Every recorded place holds a node. -/
  recorded : ∀ b ∈ adds, (nodeAt? mods b).isSome
  /-- Every place of a built node still holds a node. -/
  kept : ∀ a B, nodeAt? built a = some B → (nodeAt? mods a).isSome
  /-- Under every node, in each list, the recorded places take, in the order recorded, the places
  from some `c₀` to the end of the list, one each; for a node of the built modules, `c₀` is the
  length of the list as built. -/
  tail : ∀ a N (κ : ListKind), nodeAt? mods a = some N → ∃ c₀ ≤ (κ.nodes N).length,
    adds.filterMap (a.indexIn κ) = List.range' c₀ ((κ.nodes N).length - c₀) ∧
      ∀ B, nodeAt? built a = some B → c₀ = (κ.nodes B).length

namespace Appended

variable {built mods : List Module} {adds : List Address}

theorem init (built : List Module) : Appended built built [] := by
  refine ⟨by simp, fun a B h => by simp [h], fun a N κ h => ⟨(κ.nodes N).length, le_rfl, ?_, ?_⟩⟩
  · simp
  · intro B hB
    rw [h, Option.some.injEq] at hB
    rw [hB]

/-- Appending a node to list `κ` of the target at `ta` keeps what attaching leaves, with the place
one past the end of that list recorded. -/
theorem add (h : Appended built mods adds) {ta : Address} {t : Node}
    (ht : nodeAt? mods ta = some t) {κ : ListKind} (hκ : κ.Takes t) (c : Node) :
    Appended built (modifyAt mods ta (κ.add c))
      (adds ++ [ta.below [κ.slot (κ.nodes t).length]]) := by
  have hfresh : ∀ rest, nodeAt? mods (ta.below (κ.slot (κ.nodes t).length :: rest)) = none := by
    intro rest
    rw [nodeAt?_below, ht, Option.bind_some, Node.nodeAt?_cons, ListKind.slot?_slot,
      List.getElem?_eq_none le_rfl, Option.bind_none]
  have hkeeps := ListKind.keeps_add κ c
  refine ⟨fun b hb => ?_, fun a B hB => ?_, fun x N κ' hx => ?_⟩
  · rcases List.mem_append.mp hb with hb | hb
    · obtain ⟨y, hy⟩ := Option.isSome_iff_exists.mp (h.recorded b hb)
      obtain ⟨y', hy', -⟩ := nodeAt?_modifyAt hkeeps ta hy
      simp [hy']
    · rw [List.mem_singleton] at hb
      subst hb
      rw [nodeAt?_below, nodeAt?_modifyAt_self ht, Option.bind_some, Node.nodeAt?_cons,
        ListKind.slot?_slot, ListKind.nodes_add_self hκ, List.getElem?_concat_length]
      rfl
  · obtain ⟨y, hy⟩ := Option.isSome_iff_exists.mp (h.kept a B hB)
    obtain ⟨y', hy', -⟩ := nodeAt?_modifyAt hkeeps ta hy
    simp [hy']
  · rcases nodeAt?_add_cases ht hx with ⟨rfl, rfl⟩ | ⟨rest, rfl⟩ | ⟨hne, y, hy, hlen⟩
    · obtain ⟨c₀, hle, heq, hbuilt⟩ := h.tail x t κ' ht
      rw [List.filterMap_append, heq]
      by_cases hκ' : κ' = κ
      · subst hκ'
        refine ⟨c₀, ?_, ?_, hbuilt⟩
        · simp only [ListKind.nodes_add_self hκ, List.length_append, List.length_singleton]
          omega
        · rw [ListKind.nodes_add_self hκ, List.length_append, List.length_singleton,
            show (κ'.nodes t).length + 1 - c₀ = (κ'.nodes t).length - c₀ + 1 by omega,
            List.range'_concat]
          simp [Address.indexIn_below]
          omega
      · refine ⟨c₀, by rwa [ListKind.nodes_add_other hκ'], ?_, hbuilt⟩
        simp [Address.indexIn_below, hκ', ListKind.nodes_add_other hκ']
    · have hold : adds.filterMap ((ta.below (κ.slot (κ.nodes t).length :: rest)).indexIn κ') = [] := by
        rw [List.filterMap_eq_nil_iff]
        intro b hb
        refine Address.indexIn_eq_none fun i hi => ?_
        have hrec := h.recorded b hb
        rw [hi, Address.below_below, List.cons_append, hfresh] at hrec
        cases hrec
      have hnew : (ta.below (κ.slot (κ.nodes t).length :: rest)).indexIn κ'
          (ta.below [κ.slot (κ.nodes t).length]) = none := by
        refine Address.indexIn_eq_none fun i hi => ?_
        have hlen := congrArg (fun a : Address => a.steps.length) hi
        simp [Address.below] at hlen
      refine ⟨(κ'.nodes N).length, le_rfl, by simp [hold, hnew], fun B hB => ?_⟩
      have hkept := h.kept _ B hB
      rw [hfresh] at hkept
      cases hkept
    · obtain ⟨c₀, hle, heq, hbuilt⟩ := h.tail x y κ' hy
      have hnew : x.indexIn κ' (ta.below [κ.slot (κ.nodes t).length]) = none :=
        Address.indexIn_eq_none fun i hi => hne (Address.below_inj hi).1.symm
      refine ⟨c₀, by rw [hlen κ']; exact hle, ?_, hbuilt⟩
      rw [List.filterMap_append, heq, hlen κ']
      simp [hnew]

/-- Each place is recorded once, when every recorded place stands one step under some address
in a list: two records of one place would take one place of that list twice. -/
theorem nodup (h : Appended built mods adds)
    (hunder : ∀ b ∈ adds, ∃ (a : Address) (κ : ListKind) (i : Nat), b = a.below [κ.slot i]) :
    adds.Nodup := by
  rw [List.nodup_iff_sublist]
  intro b hbb
  have hb : b ∈ adds := hbb.subset List.mem_cons_self
  obtain ⟨a, κ, i, rfl⟩ := hunder b hb
  obtain ⟨y, hy⟩ := Option.isSome_iff_exists.mp (h.recorded _ hb)
  rw [nodeAt?_below, Option.bind_eq_some_iff] at hy
  obtain ⟨N, hN, -⟩ := hy
  obtain ⟨c₀, -, heq, -⟩ := h.tail a N κ hN
  have hsub := hbb.filterMap (a.indexIn κ)
  simp only [List.filterMap_cons, Address.indexIn_below, List.filterMap_nil, heq] at hsub
  exact List.nodup_iff_sublist.mp List.nodup_range' i hsub

theorem of_nodeAt?_eq {mods' : List Module} (hn : nodeAt? mods' = nodeAt? mods)
    (h : Appended built mods adds) : Appended built mods' adds := by
  refine ⟨fun b hb => ?_, fun a B hB => ?_, fun a N κ ha => ?_⟩
  · rw [hn]
    exact h.recorded b hb
  · rw [hn]
    exact h.kept a B hB
  · rw [hn] at ha
    exact h.tail a N κ ha

end Appended

/-! ## Loading appends -/

/-- What attaching does to the modules: it appends the node it builds to one list of the target,
and records the place one past the end of that list. -/
theorem attach_appends {sc : Scope} {mods : List Module} {target : Target} {raw : Value}
    {place : Text} {r : List Module × Address} (h : attach sc mods target raw place = .ok r) :
    ∃ (κ : ListKind) (c : Node), κ.Takes target.node ∧
      r = (modifyAt mods target.address (κ.add c),
        target.address.below [κ.slot (κ.nodes target.node).length]) := by
  obtain ⟨c, -, -, -, -, hcases⟩ := attach_added h
  rcases hcases with ⟨htake, hr⟩ | ⟨hkind, hr⟩
  · exact ⟨.child, c, htake, by rw [hr, Node.counts_eq]; rfl⟩
  · exact ⟨.action, c, hkind, by rw [hr, Node.counts_eq]; rfl⟩

section Fold

variable {built : List Module} {adds : List Address}

/-- An augment statement appends its nodes one after another under its target, each under the
target as the earlier ones left it, and records their places. -/
theorem applyAugment_appended {sc : Scope} {mods mods' : List Module} {raw : Value}
    {place : Text} {ap : Applied} (h : Appended built mods adds)
    (happ : applyAugment sc mods raw place = .ok (mods', ap)) :
    Appended built mods' (adds ++ ap.added) := by
  obtain ⟨-, -, hadded⟩ := applyAugment_cases happ
  refine foldlM_ok_invariant (fun acc => Appended built acc.1 (adds ++ acc.2)) ?_
    (by simpa using h) hadded
  intro acc item acc' hinv hstep
  obtain ⟨node, r, hnode, hr, rfl⟩ := attachItem_cases hstep
  obtain ⟨κ, c, hκ, rfl⟩ := attach_appends hr
  simpa [List.append_assoc] using hinv.add hnode hκ c

theorem applyAugments_appended {namespaces : List (Text × Text)}
    {acc result : List Module × List (Nat × Applied)} {raw : Value} {k : Nat}
    (h : Appended built acc.1 (acc.2.flatMap (·.2.added)))
    (happ : applyAugments namespaces acc raw k = .ok result) :
    Appended built result.1 (result.2.flatMap (·.2.added)) := by
  refine foldlM_ok_invariant (fun acc : List Module × List (Nat × Applied) =>
    Appended built acc.1 (acc.2.flatMap (·.2.added))) ?_ h happ
  intro acc item acc' hinv hstep
  obtain ⟨aug, i⟩ := item
  simp only [bind, Except.bind, pure, Except.pure] at hstep
  split at hstep
  · cases hstep
  · rename_i r hr
    cases hstep
    simpa [List.flatMap_append] using applyAugment_appended hinv hr

end Fold

/-! ## The record of the statements applied -/

/-- A fold whose every step appends to the log it carries some items that a relation allows for
the item taken appends, over a list, one such piece per item, in order. -/
theorem foldlM_appends {α β σ ε : Type} {f : σ × List β → α → Except ε (σ × List β)}
    {S : α → List β → Prop}
    (hf : ∀ acc x acc', f acc x = .ok acc' → ∃ ys, acc'.2 = acc.2 ++ ys ∧ S x ys) :
    ∀ {xs : List α} {acc acc' : σ × List β}, xs.foldlM f acc = .ok acc' →
      ∃ yss : List (List β), acc'.2 = acc.2 ++ yss.flatten ∧ List.Forall₂ S xs yss
  | [], acc, acc', h => by
    simp only [List.foldlM_nil, pure, Except.pure, Except.ok.injEq] at h
    exact ⟨[], by simp [h], .nil⟩
  | x :: xs, acc, acc', h => by
    simp only [List.foldlM_cons, bind, Except.bind] at h
    cases hx : f acc x with
    | error e => simp [hx] at h
    | ok acc₁ =>
      simp only [hx] at h
      obtain ⟨ys, hys, hS⟩ := hf acc x acc₁ hx
      obtain ⟨yss, hyss, hrest⟩ := foldlM_appends hf h
      exact ⟨ys :: yss, by rw [hyss, hys, List.flatten_cons, List.append_assoc], .cons hS hrest⟩

theorem forall₂_flatten {α β γ : Type} {S : α → List β → Prop} {R : β → γ → Prop}
    {g : α → List γ} (h : ∀ x ys, S x ys → List.Forall₂ R ys (g x)) :
    ∀ {xs : List α} {yss : List (List β)}, List.Forall₂ S xs yss →
      List.Forall₂ R yss.flatten (xs.flatMap g)
  | _, _, .nil => .nil
  | _, _, .cons hS hrest => List.rel_append (h _ _ hS) (forall₂_flatten h hrest)

/-- The record of an applied augment statement follows it: of its module, with the target as
written, and one place per node statement one step under the resolved target. -/
def Applied.Follows (p : Nat × Applied) (s : Nat × Value) : Prop :=
  p.1 = s.1 ∧ p.2.targetText = (s.2.textAt? "target").getD "" ∧
    p.2.added.length = (s.2.itemsAt "nodes").length ∧
    ∀ b ∈ p.2.added, ∃ (κ : ListKind) (i : Nat), b = p.2.target.address.below [κ.slot i]

/-- The augment statements of a document's module statements in the order loading applies them,
module statement after module statement, each with the index of its module statement. -/
def augmentOrder (raws : List Value) : List (Nat × Value) :=
  raws.zipIdx.flatMap fun p => (p.1.itemsAt "augments").map fun aug => (p.2, aug)

theorem forall₂_singletons {α β : Type} {P : β → Prop} :
    ∀ {xs : List α} {yss : List (List β)}, List.Forall₂ (fun _ ys => ∃ b, ys = [b] ∧ P b) xs yss →
      yss.flatten.length = xs.length ∧ ∀ b ∈ yss.flatten, P b
  | _, _, .nil => by simp
  | _, _, .cons hS hrest => by
    obtain ⟨b, rfl, hb⟩ := hS
    obtain ⟨hlen, hall⟩ := forall₂_singletons hrest
    refine ⟨by simp [hlen], fun b' hb' => ?_⟩
    rcases List.mem_append.mp hb' with hb' | hb'
    · rw [List.mem_singleton] at hb'
      exact hb' ▸ hb
    · exact hall b' hb'

theorem applyAugment_follows {sc : Scope} {mods mods' : List Module} {raw : Value}
    {place : Text} {ap : Applied} (k : Nat) (h : applyAugment sc mods raw place = .ok (mods', ap)) :
    Applied.Follows (k, ap) (k, raw) := by
  obtain ⟨htext, -, hadded⟩ := applyAugment_cases h
  have hlog := foldlM_appends (S := fun _ ys => ∃ b, ys = [b] ∧ ∃ (κ : ListKind) (i : Nat),
    b = ap.target.address.below [κ.slot i]) ?_ hadded
  · obtain ⟨yss, hyss, hall⟩ := hlog
    obtain ⟨hlen, hunder⟩ := forall₂_singletons hall
    simp only [List.nil_append] at hyss
    refine ⟨rfl, htext, ?_, ?_⟩
    · simp [hyss, hlen]
    · rw [hyss]
      exact hunder
  · intro acc item acc' hstep
    obtain ⟨node, r, -, hr, rfl⟩ := attachItem_cases hstep
    obtain ⟨κ, c, -, rfl⟩ := attach_appends hr
    exact ⟨_, rfl, _, rfl, κ, _, rfl⟩

theorem applyAugments_follows {namespaces : List (Text × Text)}
    {acc result : List Module × List (Nat × Applied)} {raw : Value} {k : Nat}
    (h : applyAugments namespaces acc raw k = .ok result) :
    ∃ ys, result.2 = acc.2 ++ ys ∧
      List.Forall₂ Applied.Follows ys ((raw.itemsAt "augments").map fun aug => (k, aug)) := by
  have hlog := foldlM_appends (S := fun x ys => ∃ ap, ys = [(k, ap)] ∧
    Applied.Follows (k, ap) (k, x.1)) ?_ h
  · obtain ⟨yss, hyss, hall⟩ := hlog
    refine ⟨yss.flatten, hyss, ?_⟩
    have hfl := forall₂_flatten (R := Applied.Follows) (g := fun x => [(k, x.1)])
      (fun x ys hS => by obtain ⟨ap, rfl, hf⟩ := hS; exact .cons hf .nil) hall
    have horder : (raw.itemsAt "augments").zipIdx.flatMap (fun x => [(k, x.1)]) =
        (raw.itemsAt "augments").map fun aug => (k, aug) := by
      conv_rhs => rw [← List.zipIdx_map_fst 0 (raw.itemsAt "augments")]
      rw [List.map_map, List.map_eq_flatMap]
      rfl
    rwa [horder] at hfl
  · intro acc item acc' hstep
    obtain ⟨aug, i⟩ := item
    simp only [bind, Except.bind, pure, Except.pure] at hstep
    split at hstep
    · cases hstep
    · rename_i r hr
      cases hstep
      exact ⟨[(k, r.2)], rfl, r.2, rfl, applyAugment_follows k hr⟩

/-! ## A loaded document -/

theorem nodeAt?_withAugments (mods : List Module) (g : Nat → List Augmentation) (a : Address) :
    nodeAt? (mods.zipIdx.map fun p => { p.1 with augments := g p.2 }) a = nodeAt? mods a := by
  simp only [nodeAt?_eq, List.getElem?_map, List.getElem?_zipIdx, Option.map_map]
  cases mods[a.module]? <;> rfl

/-- Every node an augment statement of a loaded document attaches is appended once to one list of
its target's node, after the nodes already there, in the order loading applies the statements. -/
theorem Context.attached_in_order {doc : Value} {ctx : Context} (h : Context.load doc = .ok ctx) :
    ∃ (built : List Module) (log : List (Nat × Applied)),
      (doc.itemsAt "modules").zipIdx.mapM
          (fun p => buildModule p.1 p.2 (namespacesOf (doc.itemsAt "modules"))) = .ok built ∧
      List.Forall₂ Applied.Follows log (augmentOrder (doc.itemsAt "modules")) ∧
      (∀ k m, ctx.modules[k]? = some m → m.augments = augmentsOf ctx.modules log k) ∧
      (log.flatMap (·.2.added)).Nodup ∧
      Appended built ctx.modules (log.flatMap (·.2.added)) := by
  obtain ⟨-, built, r, hbuilt, hr, hctx⟩ := Context.load_cases h
  have hnode : nodeAt? ctx.modules = nodeAt? r.1 := by
    funext a
    rw [hctx]
    exact nodeAt?_withAugments r.1 _ a
  have happ : Appended built ctx.modules (r.2.flatMap (·.2.added)) := by
    refine Appended.of_nodeAt?_eq hnode ?_
    exact foldlM_ok_invariant (fun acc : List Module × List (Nat × Applied) =>
        Appended built acc.1 (acc.2.flatMap (·.2.added)))
      (fun _ _ _ hacc hstep => applyAugments_appended hacc hstep) (by simpa using Appended.init built)
      hr
  obtain ⟨yss, hyss, hall⟩ := foldlM_appends (S := fun x ys => List.Forall₂ Applied.Follows ys
    ((x.1.itemsAt "augments").map fun aug => (x.2, aug)))
    (fun _ _ _ hstep => applyAugments_follows hstep) hr
  have hfollows : List.Forall₂ Applied.Follows r.2 (augmentOrder (doc.itemsAt "modules")) := by
    rw [hyss, List.nil_append]
    exact forall₂_flatten (fun _ _ hS => hS) hall
  have hunder : ∀ p ∈ r.2, ∀ b ∈ p.2.added, ∃ (κ : ListKind) (i : Nat),
      b = p.2.target.address.below [κ.slot i] :=
    ((List.forall₂_and_left _ _).mp (hfollows.imp fun _ _ hf => ⟨hf.2.2.2, hf⟩)).1
  refine ⟨built, r.2, hbuilt, hfollows, fun k m hm => ?_, happ.nodup fun b hb => ?_, happ⟩
  · simp only [hctx, List.getElem?_map, List.getElem?_zipIdx, Option.map_map,
      Option.map_eq_some_iff] at hm
    obtain ⟨m', -, rfl⟩ := hm
    simp only [Function.comp_apply, Nat.zero_add, augmentsOf, hnode]
  · obtain ⟨p, hp, hb⟩ := List.mem_flatMap.mp hb
    obtain ⟨κ, i, rfl⟩ := hunder p hp b hb
    exact ⟨_, κ, i, rfl⟩

open AugmentChain in
/-- In the chain of modules, `b` attaches its container under `a`'s `x`, and `c` its leaf under
that container. -/
theorem attached_in_order_augmentChain :
    Context.load docBC = .ok contextBC ∧
      ∃ (built : List Module) (log : List (Nat × Applied)),
        (docBC.itemsAt "modules").zipIdx.mapM
            (fun p => buildModule p.1 p.2 (namespacesOf (docBC.itemsAt "modules"))) = .ok built ∧
        List.Forall₂ Applied.Follows log (augmentOrder (docBC.itemsAt "modules")) ∧
        (∀ k m, contextBC.modules[k]? = some m → m.augments = augmentsOf contextBC.modules log k) ∧
        (log.flatMap (·.2.added)).Nodup ∧
        Appended built contextBC.modules (log.flatMap (·.2.added)) :=
  ⟨load_docBC, Context.attached_in_order load_docBC⟩

end YangDiagram.Schema
