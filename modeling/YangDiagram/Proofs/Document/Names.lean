-- Names in a checked document: module statements, their top-level node statements and the node
-- statements of their augments are named by identifiers, which hold no colon and no slash.
import Mathlib
import YangDiagram.Document.Check

namespace YangDiagram

open YangDiagram.Json YangDiagram.Document

/-- A text with neither a colon nor a slash. -/
def Text.SeparatorFree (t : Text) : Prop :=
  Text.unit ':' ∉ t.units ∧ Text.unit '/' ∉ t.units

theorem char_mem_decodeUnits {u : UInt16} (hlow : u.toNat < 0xD800) :
    ∀ l : List UInt16, u ∈ l → Text.Piece.char (Char.ofNat u.toNat) ∈ Text.decodeUnits l := by
  have hhigh : Text.isHigh u = false := by simp [Text.isHigh]; omega
  have hlow' : Text.isLow u = false := by simp [Text.isLow]; omega
  intro l
  induction l using Text.decodeUnits.induct with
  | case1 => simp
  | case2 v hlone =>
    intro hu
    rw [List.mem_singleton] at hu
    subst hu
    simp [hhigh, hlow'] at hlone
  | case3 v hchar =>
    intro hu
    rw [List.mem_singleton] at hu
    subst hu
    simp [Text.decodeUnits, hhigh, hlow']
  | case4 v w rest hpair ih =>
    intro hu
    rw [Text.decodeUnits, if_pos hpair]
    rcases List.mem_cons.mp hu with rfl | hu
    · simp [hhigh] at hpair
    rcases List.mem_cons.mp hu with rfl | hu
    · simp [hlow'] at hpair
    exact List.mem_cons_of_mem _ (ih hu)
  | case5 v w rest hpair hlone ih =>
    intro hu
    rw [Text.decodeUnits, if_neg hpair, if_pos hlone]
    rcases List.mem_cons.mp hu with rfl | hu
    · simp [hhigh, hlow'] at hlone
    · exact List.mem_cons_of_mem _ (ih hu)
  | case6 v w rest hpair hlone ih =>
    intro hu
    rw [Text.decodeUnits, if_neg hpair, if_neg hlone]
    rcases List.mem_cons.mp hu with rfl | hu
    · exact List.mem_cons_self
    · exact List.mem_cons_of_mem _ (ih hu)

theorem Text.char_mem_chars {t : Text} {u : UInt16} (hu : u ∈ t.units)
    (hlow : u.toNat < 0xD800) : Char.ofNat u.toNat ∈ t.chars :=
  List.mem_map.mpr ⟨_, char_mem_decodeUnits hlow _ hu, rfl⟩

theorem identChar_of_isIdentifier {cs : List Char} (h : Pattern.isIdentifier cs = true) :
    ∀ c ∈ cs, Pattern.identChar c = true := by
  cases cs with
  | nil => simp [Pattern.isIdentifier] at h
  | cons c cs =>
    simp only [Pattern.isIdentifier, Bool.and_eq_true, List.all_eq_true] at h
    intro x hx
    rcases List.mem_cons.mp hx with rfl | hx
    · simp [Pattern.identChar, h.1]
    · exact h.2 x hx

/-- An identifier has neither a colon nor a slash. -/
theorem Text.separatorFree_of_isIdentifier {t : Text} (h : Pattern.isIdentifier t.chars = true) :
    t.SeparatorFree := by
  have hc := identChar_of_isIdentifier h
  constructor
  · intro hu
    exact absurd (hc _ (Text.char_mem_chars hu (by decide))) (by decide)
  · intro hu
    exact absurd (hc _ (Text.char_mem_chars hu (by decide))) (by decide)

namespace Document

/-! ## What the check passes -/

theorem checkRule_shape (s : Shape) (v : Value) (place : List Text) :
    checkRule (.shape s) v place = checkRule s.rule v place := by
  rw [checkRule]

/-- A value that passes an object rule is an object whose members pass; when a member picks a
further rule, it names one whose members pass too. -/
theorem obj_of_checkRule_object {required : List String} {members : List (String × Rule)}
    {closed : Bool} {pick : Option (String × List (String × Shape))} {v : Value}
    {place : List Text} (h : checkRule (.object required members closed pick) v place = none) :
    ∃ ms, v = .obj ms ∧ checkMembers required members closed ms place = none ∧
      ∀ tag choices, pick = some (tag, choices) → ∃ word k b,
        Members.find? ms (Text.ofString tag) = some (.str word) ∧ (k, b) ∈ choices ∧
        ∀ required' members' closed' pick', b.rule = .object required' members' closed' pick' →
          checkMembers required' members' closed' ms place = none := by
  unfold checkRule at h
  split at h
  · rename_i ms
    refine ⟨ms, rfl, ?_, ?_⟩
    · split at h
      · cases h
      · assumption
    · intro tag choices hpick
      subst hpick
      split at h
      · cases h
      · simp only at h
        split at h
        · rename_i word hword
          split at h
          · rename_i k b hb
            refine ⟨word, k, b, hword, List.mem_of_find?_eq_some hb, ?_⟩
            intro required' members' closed' pick' hrule
            rw [hrule] at h
            exact h
          · cases h
        · cases h
  · cases h

theorem checkMembers_required {required : List String} {members : List (String × Rule)}
    {closed : Bool} {ms : Members} {place : List Text}
    (h : checkMembers required members closed ms place = none) {k : String} (hk : k ∈ required) :
    ∃ c, Members.find? ms (Text.ofString k) = some c := by
  rw [checkMembers] at h
  split at h
  · cases h
  · rename_i hfind
    have := List.find?_eq_none.mp hfind k hk
    simp only [Option.isNone_iff_eq_none] at this
    exact Option.ne_none_iff_exists'.mp this

theorem checkMembers_member {required : List String} {members : List (String × Rule)}
    {closed : Bool} {ms : Members} {place : List Text}
    (h : checkMembers required members closed ms place = none) {k : String} {r : Rule}
    (hk : (k, r) ∈ members) {c : Value} (hc : Members.find? ms (Text.ofString k) = some c) :
    checkRule r c (place ++ [Text.ofString k]) = none := by
  rw [checkMembers] at h
  split at h
  · cases h
  · split at h
    · cases h
    · have := List.findSome?_eq_none_iff.mp h ⟨(k, r), hk⟩ (List.mem_attach _ _)
      simp only at this
      split at this
      · rename_i c' hc'
        rw [hc] at hc'
        cases hc'
        exact this
      · rename_i hnone
        rw [hc] at hnone
        cases hnone

theorem checkRule_array {r : Rule} {v : Value} {place : List Text}
    (h : checkRule (.array r) v place = none) :
    ∃ xs, v = .arr xs ∧ ∀ x ∈ xs, ∃ q, checkRule r x q = none := by
  unfold checkRule at h
  split at h
  · rename_i xs
    refine ⟨xs, rfl, fun x hx => ?_⟩
    obtain ⟨i, hi⟩ := List.mem_iff_getElem?.mp (List.mem_attach xs ⟨x, hx⟩)
    have := List.findSome?_eq_none_iff.mp h (⟨x, hx⟩, i) (List.mem_zipIdx_iff_getElem?.mpr hi)
    exact ⟨_, this⟩
  · cases h

theorem checkRule_identifier {v : Value} {place : List Text}
    (h : checkRule (.shape .identifier) v place = none) :
    ∃ s, v = .str s ∧ Pattern.isIdentifier s.chars = true := by
  rw [checkRule_shape, Shape.rule] at h
  unfold checkRule at h
  split at h
  · rename_i s
    refine ⟨s, rfl, ?_⟩
    split at h
    · cases h
    · simp only at h
      split at h
      · rename_i hacc
        exact hacc
      · cases h
  · cases h

theorem name_of_checkMembers {required : List String} {members : List (String × Rule)}
    {closed : Bool} {ms : Members} {place : List Text}
    (h : checkMembers required members closed ms place = none) (hreq : "name" ∈ required)
    (hmem : ("name", Rule.shape .identifier) ∈ members) :
    ∃ s, Members.find? ms (Text.ofString "name") = some (.str s) ∧
      Pattern.isIdentifier s.chars = true := by
  obtain ⟨c, hc⟩ := checkMembers_required h hreq
  obtain ⟨s, rfl, hs⟩ := checkRule_identifier (checkMembers_member h hmem hc)
  exact ⟨s, hc, hs⟩

theorem dataKinds_rule : ∀ p ∈ Rule.dataKinds, ∃ required members,
    p.2.rule = .object required members true none ∧ "name" ∈ required ∧
      ("name", Rule.shape .identifier) ∈ members := by
  intro p hp
  simp only [Rule.dataKinds, List.mem_cons, List.not_mem_nil, or_false] at hp
  rcases hp with rfl | rfl | rfl | rfl | rfl | rfl | rfl <;>
    exact ⟨_, _, rfl, by simp, by simp⟩

/-- A value named by an identifier. -/
def NamedByIdentifier (v : Value) : Prop :=
  ∃ s, v.textAt? "name" = some s ∧ Pattern.isIdentifier s.chars = true

theorem namedByIdentifier_of_find? {ms : Members} {s : Text}
    (h : Members.find? ms (Text.ofString "name") = some (.str s))
    (hs : Pattern.isIdentifier s.chars = true) : NamedByIdentifier (.obj ms) :=
  ⟨s, by simp [Value.textAt?, Value.get?, h, Value.text?], hs⟩

theorem mem_of_mem_itemsAt {ms : Members} {k : Text} {x : Value}
    (h : x ∈ (Value.obj ms).itemsAt k) : ∃ xs, Members.find? ms k = some (.arr xs) ∧ x ∈ xs := by
  unfold Value.itemsAt Value.get? at h
  split at h
  · rename_i xs hxs
    exact ⟨xs, hxs, h⟩
  · simp at h

theorem namedByIdentifier_of_dataNode {d : Value} {place : List Text}
    (h : checkRule (.shape .dataNode) d place = none) : NamedByIdentifier d := by
  rw [checkRule_shape] at h
  obtain ⟨ms, rfl, -, hpick⟩ := obj_of_checkRule_object h
  obtain ⟨word, k, b, -, hb, hmembers⟩ := hpick _ _ rfl
  obtain ⟨required, members, hrule, hreq, hmem⟩ := dataKinds_rule (k, b) hb
  obtain ⟨s, hs, hid⟩ := name_of_checkMembers (hmembers _ _ _ _ hrule) hreq hmem
  exact namedByIdentifier_of_find? hs hid

theorem checkRule_items {required : List String} {members : List (String × Rule)}
    {closed : Bool} {pick : Option (String × List (String × Shape))} {v : Value}
    {place : List Text} (h : checkRule (.object required members closed pick) v place = none)
    {k : String} {s : Shape} (hk : (k, Rule.many s) ∈ members) :
    ∀ x ∈ v.itemsAt (Text.ofString k), ∃ q, checkRule (.shape s) x q = none := by
  obtain ⟨ms, rfl, hmembers, -⟩ := obj_of_checkRule_object h
  intro x hx
  obtain ⟨xs, hxs, hx⟩ := mem_of_mem_itemsAt hx
  obtain ⟨xs', hxs', hitems⟩ := checkRule_array (checkMembers_member hmembers hk hxs)
  cases hxs'
  exact hitems x hx

/-- A checked document names every module statement and every top-level data node statement of
a module with an identifier. -/
theorem names_of_check {doc : Value} (h : check doc = none) :
    ∀ raw ∈ doc.itemsAt "modules",
      NamedByIdentifier raw ∧ ∀ d ∈ raw.itemsAt "data", NamedByIdentifier d := by
  rw [check, checkRule_shape] at h
  intro raw hraw
  obtain ⟨q, hq⟩ :=
    checkRule_items h (show ("modules", Rule.many .module) ∈ _ by simp) raw hraw
  rw [checkRule_shape] at hq
  obtain ⟨ms, rfl, hmodule, -⟩ := obj_of_checkRule_object hq
  obtain ⟨s, hs, hid⟩ := name_of_checkMembers hmodule (by simp) (by simp)
  refine ⟨namedByIdentifier_of_find? hs hid, fun d hd => ?_⟩
  obtain ⟨q', hq'⟩ := checkRule_items hq (show ("data", Rule.many .dataNode) ∈ _ by simp) d hd
  exact namedByIdentifier_of_dataNode hq'

theorem augmentKinds_rule :
    ∀ p ∈ ("case", Shape.case) :: ("action", Shape.action) :: Rule.dataKinds,
      ∃ required members, p.2.rule = .object required members true none ∧ "name" ∈ required ∧
        ("name", Rule.shape .identifier) ∈ members := by
  intro p hp
  rcases List.mem_cons.mp hp with rfl | hp
  · exact ⟨_, _, rfl, by simp, by simp⟩
  rcases List.mem_cons.mp hp with rfl | hp
  · exact ⟨_, _, rfl, by simp, by simp⟩
  exact dataKinds_rule p hp

theorem namedByIdentifier_of_augmentNode {d : Value} {place : List Text}
    (h : checkRule (.shape .augmentNode) d place = none) : NamedByIdentifier d := by
  rw [checkRule_shape] at h
  obtain ⟨ms, rfl, -, hpick⟩ := obj_of_checkRule_object h
  obtain ⟨word, k, b, -, hb, hmembers⟩ := hpick _ _ rfl
  obtain ⟨required, members, hrule, hreq, hmem⟩ := augmentKinds_rule (k, b) hb
  obtain ⟨s, hs, hid⟩ := name_of_checkMembers (hmembers _ _ _ _ hrule) hreq hmem
  exact namedByIdentifier_of_find? hs hid

/-- A checked document names every node statement of every augment with an identifier. -/
theorem augmentNames_of_check {doc : Value} (h : check doc = none) :
    ∀ raw ∈ doc.itemsAt "modules", ∀ aug ∈ raw.itemsAt "augments",
      ∀ d ∈ aug.itemsAt "nodes", NamedByIdentifier d := by
  rw [check, checkRule_shape] at h
  intro raw hraw aug haug d hd
  obtain ⟨q, hq⟩ :=
    checkRule_items h (show ("modules", Rule.many .module) ∈ _ by simp) raw hraw
  rw [checkRule_shape] at hq
  obtain ⟨q', hq'⟩ :=
    checkRule_items hq (show ("augments", Rule.many .augment) ∈ _ by simp) aug haug
  rw [checkRule_shape] at hq'
  obtain ⟨q'', hq''⟩ :=
    checkRule_items hq' (show ("nodes", Rule.many .augmentNode) ∈ _ by simp) d hd
  exact namedByIdentifier_of_augmentNode hq''

end Document

end YangDiagram
