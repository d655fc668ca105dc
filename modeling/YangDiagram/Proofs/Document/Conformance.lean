-- Conformance by evaluation: `conforms` asks the checker's questions by recursion on a bound, so
-- the kernel decides it on a concrete document, and a document that conforms passes the check.
import Mathlib
import YangDiagram.Document.Check

namespace YangDiagram.Document

open YangDiagram.Json YangDiagram.Text

mutual

/-- Whether a value passes a rule, entering at most `n` rules deep; `false` past the bound. -/
def conforms : Nat → Rule → Value → Bool
  | 0, _, _ => false
  | n + 1, .shape s, v => conforms n s.rule v
  | n + 1, .object required members closed pick, .obj ms =>
    membersConform n required members closed ms &&
      match pick with
      | none => true
      | some (tag, choices) =>
        match Members.find? ms tag with
        | some (.str word) =>
          match choices.find? (fun c => ofString c.1 = word) with
          | some (_, b) =>
            match b.rule with
            | .object required' members' closed' _ => membersConform n required' members' closed' ms
            | _ => true
          | none => false
        | _ => false
  | n + 1, .array items, .arr xs => xs.all fun x => conforms n items x
  | _ + 1, .text least pattern, .str s =>
    atLeast s least && match pattern with
      | some p => p.accepts s
      | none => true
  | _ + 1, .flag, .bool _ => true
  | _ + 1, .oneOf words, .str s => words.any fun w => ofString w = s
  | _ + 1, .exactly word, .str s => decide (s = ofString word)
  | _ + 1, _, _ => false

/-- Whether the members of an object pass: every required one is present, none is refused, and
each allowed one that is present passes its rule within the bound. -/
def membersConform : Nat → List String → List (String × Rule) → Bool → Members → Bool
  | 0, _, _, _, _ => false
  | n + 1, required, members, closed, ms =>
    required.all (fun k => (Members.find? ms (ofString k)).isSome) &&
      !(closed && ms.any fun m => !members.any fun a => ofString a.1 = m.1) &&
      members.all fun (k, r) =>
        match Members.find? ms k with
        | some c => conforms n r c
        | none => true

end

mutual

/-- A value that conforms to a rule within some bound passes the check of the rule. -/
theorem checkRule_eq_none_of_conforms :
    ∀ {n : Nat} {r : Rule} {v : Value} (place : List Text),
      conforms n r v = true → checkRule r v place = none
  | 0, _, _, _, h => by simp [conforms] at h
  | n + 1, r, v, place, h => by
    cases r with
    | shape s =>
      simp only [checkRule]
      exact checkRule_eq_none_of_conforms place (by simpa [conforms] using h)
    | object required members closed pick =>
      cases v with
      | obj ms =>
        cases pick with
        | none =>
          simp only [conforms, Bool.and_eq_true] at h
          simp only [checkRule, checkMembers_eq_none_of_membersConform place h.1]
        | some tc =>
          obtain ⟨tag, choices⟩ := tc
          simp only [conforms, Bool.and_eq_true] at h
          obtain ⟨hmembers, hpick⟩ := h
          simp only [checkRule, checkMembers_eq_none_of_membersConform place hmembers]
          split
          · rename_i word hword
            simp only [hword] at hpick
            split
            · rename_i k b hb
              simp only [hb] at hpick
              split
              · rename_i required' members' closed' pick' hrule
                simp only [hrule] at hpick
                exact checkMembers_eq_none_of_membersConform place hpick
              · rfl
            · rename_i hb
              simp only [hb] at hpick
              cases hpick
          · rename_i hnot
            split at hpick
            · rename_i word hword
              exact absurd hword (hnot word)
            · cases hpick
      | _ => simp [conforms] at h
    | array items =>
      cases v with
      | arr xs =>
        simp only [conforms, List.all_eq_true] at h
        simp only [checkRule]
        refine List.findSome?_eq_none_iff.mpr fun p _ => ?_
        exact checkRule_eq_none_of_conforms _ (h p.1.1 p.1.2)
      | _ => simp [conforms] at h
    | text least pattern =>
      cases v with
      | str s =>
        cases pattern with
        | none =>
          simp only [conforms, Bool.and_true] at h
          simp only [checkRule, h, Bool.not_true, Bool.false_eq_true, if_false]
        | some p =>
          simp only [conforms, Bool.and_eq_true] at h
          simp only [checkRule, h.1, h.2, Bool.not_true, Bool.false_eq_true, if_false, if_true]
      | _ => simp [conforms] at h
    | flag => cases v <;> simp_all [conforms, checkRule]
    | oneOf words => cases v <;> simp_all [conforms, checkRule]
    | exactly word => cases v <;> simp_all [conforms, checkRule]

theorem checkMembers_eq_none_of_membersConform :
    ∀ {n : Nat} {required : List String} {members : List (String × Rule)} {closed : Bool}
      {ms : Members} (place : List Text),
      membersConform n required members closed ms = true →
        checkMembers required members closed ms place = none
  | 0, _, _, _, _, _, h => by simp [membersConform] at h
  | n + 1, required, members, closed, ms, place, h => by
    simp only [membersConform, Bool.and_eq_true, Bool.not_eq_true', List.all_eq_true] at h
    obtain ⟨⟨hrequired, hclosed⟩, hmembers⟩ := h
    unfold checkMembers
    have hfind : required.find? (fun k => (Members.find? ms (ofString k)).isNone) = none :=
      List.find?_eq_none.mpr fun k hk => by simp [← Option.not_isSome, hrequired k hk]
    rw [hfind]
    simp only [hclosed, Bool.false_eq_true, if_false]
    refine List.findSome?_eq_none_iff.mpr fun p _ => ?_
    obtain ⟨⟨k, r⟩, hkr⟩ := p
    have hm := hmembers (k, r) hkr
    split
    · rename_i c hc
      rw [hc] at hm
      exact checkRule_eq_none_of_conforms _ hm
    · rfl

end

/-- A document that conforms to the grammar within some bound passes the check. -/
theorem check_eq_none_of_conforms {n : Nat} {doc : Value}
    (h : conforms n (.shape .document) doc = true) : check doc = none :=
  checkRule_eq_none_of_conforms [] h

end YangDiagram.Document
