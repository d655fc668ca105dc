-- Checking a document against its grammar: the first place where a value breaks a rule, in a
-- fixed order (kind, required members, unknown members, each member, the member that picks a
-- rule), named by its path of member names and item indices.
import YangDiagram.Json.Value
import YangDiagram.Document.Grammar

namespace YangDiagram.Document

open YangDiagram.Json YangDiagram.Text

/-- The kinds of JSON value a rule can demand. -/
inductive ValueKind where
  | object
  | array
  | string
  | boolean

def ValueKind.name : ValueKind → String
  | .object => "object"
  | .array => "array"
  | .string => "string"
  | .boolean => "boolean"

/-- Why a part of a document breaks the grammar. -/
inductive Reason where
  /-- The value is of another kind. -/
  | wrongKind (expected : ValueKind)
  /-- A required member is missing. -/
  | missing (member : Text)
  /-- A member is not allowed. -/
  | notAllowed
  /-- A text does not match a pattern. -/
  | mismatch (p : Pattern)
  /-- A text is shorter than its least length. -/
  | tooShort (least : Nat)
  /-- A value is none of the allowed words. -/
  | notOneOf
  /-- A value is not the one allowed word. -/
  | notExactly
  /-- The member that picks a rule is not a text. -/
  | pickNotText (member : Text)
  /-- The member that picks a rule names no rule. -/
  | pickUnknown (member : Text)

def Reason.message : Reason → Text
  | .wrongKind k => "must be " ++ ofString k.name
  | .missing m => "must have required property '" ++ m ++ "'"
  | .notAllowed => "must NOT have additional properties"
  | .mismatch p => ofString ("must match pattern \"" ++ p.source ++ "\"")
  | .tooShort n => ofString ("must NOT have fewer than " ++ toString n ++ " characters")
  | .notOneOf => "must be equal to one of the allowed values"
  | .notExactly => "must be equal to constant"
  | .pickNotText m => "tag \"" ++ m ++ "\" must be string"
  | .pickUnknown m => "value of tag \"" ++ m ++ "\" must be in oneOf"

/-- Where and why a document breaks the grammar. -/
structure Failure where
  /-- Member names and item indices from the top of the document. -/
  place : List Text
  reason : Reason

/-- The place as a pointer: each step after a slash. -/
def Failure.pointer (f : Failure) : Text :=
  Text.join (f.place.map fun step => "/" ++ step)

/-- The text of a failure, naming the document as `document`. -/
def Failure.message (f : Failure) : Text :=
  "document" ++ f.pointer ++ " " ++ f.reason.message

/-- The measure of a rule at one value: a reference weighs more than what it refers to. -/
def Rule.weight : Rule → Nat
  | .shape _ => 2
  | _ => 1

theorem Shape.weight_rule (s : Shape) : s.rule.weight = 1 := by
  cases s <;> rfl

def atLeast (s : Text) (n : Nat) : Bool := n ≤ s.codePoints

mutual

/-- The first failure of a value against a rule, at a place. -/
def checkRule (r : Rule) (v : Value) (place : List Text) : Option Failure :=
  match r with
  | .shape s => checkRule s.rule v place
  | .object required members closed pick =>
    match v with
    | .obj ms =>
      match checkMembers required members closed ms place with
      | some f => some f
      | none =>
        match pick with
        | none => none
        | some (tag, choices) =>
          match Members.find? ms tag with
          | some (.str word) =>
            match choices.find? (fun c => ofString c.1 = word) with
            | some (_, b) =>
              match b.rule with
              | .object required' members' closed' _ =>
                checkMembers required' members' closed' ms place
              | _ => none
            | none => some ⟨place, .pickUnknown (ofString tag)⟩
          | _ => some ⟨place, .pickNotText (ofString tag)⟩
    | _ => some ⟨place, .wrongKind .object⟩
  | .array items =>
    match v with
    | .arr xs =>
      xs.attach.zipIdx.findSome? fun (⟨x, _⟩, i) => checkRule items x (place ++ [Text.ofNat i])
    | _ => some ⟨place, .wrongKind .array⟩
  | .text least pattern =>
    match v with
    | .str s =>
      if !atLeast s least then some ⟨place, .tooShort least⟩
      else match pattern with
        | some p => if p.accepts s then none else some ⟨place, .mismatch p⟩
        | none => none
    | _ => some ⟨place, .wrongKind .string⟩
  | .flag =>
    match v with
    | .bool _ => none
    | _ => some ⟨place, .wrongKind .boolean⟩
  | .oneOf words =>
    match v with
    | .str s => if words.any (fun w => ofString w = s) then none else some ⟨place, .notOneOf⟩
    | _ => some ⟨place, .notOneOf⟩
  | .exactly word =>
    match v with
    | .str s => if s = ofString word then none else some ⟨place, .notExactly⟩
    | _ => some ⟨place, .notExactly⟩
termination_by (sizeOf v, r.weight)
decreasing_by
  · rw [Shape.weight_rule]
    exact Prod.Lex.right _ (by simp [Rule.weight])
  · apply Prod.Lex.left
    simp
  · apply Prod.Lex.left
    simp
  · apply Prod.Lex.left
    have := List.sizeOf_lt_of_mem (by assumption : x ∈ xs)
    simp
    omega

/-- The first failure of an object's members: required ones missing, members not allowed, then
each allowed member present, in the listed order. -/
def checkMembers (required : List String) (members : List (String × Rule)) (closed : Bool)
    (ms : Members) (place : List Text) : Option Failure :=
  match required.find? (fun k => (Members.find? ms (ofString k)).isNone) with
  | some k => some ⟨place, .missing (ofString k)⟩
  | none =>
    if closed && ms.any (fun m => !members.any (fun a => ofString a.1 = m.1)) then
      some ⟨place, .notAllowed⟩
    else
      members.attach.findSome? fun ⟨(k, r), _⟩ =>
        match _found : Members.find? ms k with
        | some c => checkRule r c (place ++ [ofString k])
        | none => none
termination_by (sizeOf ms, 0)
decreasing_by
  apply Prod.Lex.left
  exact Members.sizeOf_lt_of_find? _found

end

/-- The first failure of a document against the grammar. -/
def check (v : Value) : Option Failure := checkRule (.shape .document) v []

end YangDiagram.Document
