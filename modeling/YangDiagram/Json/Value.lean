-- JSON values: doubles, texts of UTF-16 code units, arrays, and objects whose members keep the
-- order their keys were first written, a repeated key taking the last value.
import YangDiagram.Text.Basic

namespace YangDiagram.Json

/-- A JSON value. -/
inductive Value where
  | null
  | bool (b : Bool)
  | num (x : Float)
  | str (s : Text)
  | arr (items : List Value)
  | obj (members : List (Text × Value))
  deriving Inhabited

/-- The members of an object, in order. -/
abbrev Members := List (Text × Value)

namespace Members

/-- The value of the first member named `k`. -/
def find? : Members → Text → Option Value
  | [], _ => none
  | (k', v) :: rest, k => if k' = k then some v else find? rest k

/-- Gives `k` the value `v`: in place when `k` is already a member, else as a new last member. -/
def set : Members → Text → Value → Members
  | [], k, v => [(k, v)]
  | (k', v') :: rest, k, v => if k' = k then (k, v) :: rest else (k', v') :: set rest k v

@[simp] theorem find?_nil (k : Text) : find? [] k = none := rfl

theorem find?_cons (k' k : Text) (v : Value) (rest : Members) :
    find? ((k', v) :: rest) k = if k' = k then some v else find? rest k := rfl

theorem find?_set_self (ms : Members) (k : Text) (v : Value) : find? (set ms k v) k = some v := by
  induction ms with
  | nil => simp [set, find?]
  | cons m rest ih =>
    obtain ⟨k', v'⟩ := m
    by_cases h : k' = k
    · simp [set, find?, h]
    · simp [set, find?, h, ih]

theorem map_fst_set_of_mem (ms : Members) (k : Text) (v : Value) (h : k ∈ ms.map Prod.fst) :
    (set ms k v).map Prod.fst = ms.map Prod.fst := by
  induction ms with
  | nil => simp at h
  | cons m rest ih =>
    obtain ⟨k', v'⟩ := m
    by_cases hk : k' = k
    · simp [set, hk]
    · have h' : k ∈ rest.map Prod.fst := by
        simp only [List.map_cons, List.mem_cons] at h
        rcases h with h | h
        · exact absurd h.symm hk
        · exact h
      simp [set, hk, ih h']

theorem sizeOf_lt_of_find? {ms : Members} {k : Text} {v : Value} (h : find? ms k = some v) :
    sizeOf v < sizeOf ms := by
  induction ms with
  | nil => simp at h
  | cons m rest ih =>
    obtain ⟨k', v'⟩ := m
    simp only [find?] at h
    split at h
    · cases h; simp; omega
    · have := ih h; simp; omega

end Members

namespace Value

/-- The member `k` of an object; nothing for any other value. -/
def get? : Value → Text → Option Value
  | .obj ms, k => Members.find? ms k
  | _, _ => none

def nullMemberMessage (k : Text) : Text := "Cannot read properties of null (reading '" ++ k ++ "')"

def missingMemberMessage (k : Text) : Text :=
  "Cannot read properties of undefined (reading '" ++ k ++ "')"

/-- Member `k` read from a value that may be missing: missing for a value other than an object,
and a failure for null or a missing value, which have no members to read. -/
def member (given : Option Value) (k : Text) : Except Text (Option Value) :=
  match given with
  | none => .error (missingMemberMessage k)
  | some .null => .error (nullMemberMessage k)
  | some v => .ok (v.get? k)

def text? : Value → Option Text
  | .str s => some s
  | _ => none

def items? : Value → Option (List Value)
  | .arr xs => some xs
  | _ => none

def members? : Value → Option Members
  | .obj ms => some ms
  | _ => none

/-- The items of the array at member `k`, or none when there is no such array. -/
def itemsAt (v : Value) (k : Text) : List Value :=
  match v.get? k with
  | some (.arr xs) => xs
  | _ => []

def textAt? (v : Value) (k : Text) : Option Text :=
  (v.get? k).bind text?

def flagAt? (v : Value) (k : Text) : Option Bool :=
  match v.get? k with
  | some (.bool b) => some b
  | _ => none

/-- The strings of the array at member `k`, other items left out. -/
def textsAt (v : Value) (k : Text) : List Text :=
  (v.itemsAt k).filterMap text?

/-- Whether a value counts as true where a flag is tested for truth: `false`, `null`, zero, NaN
and the empty string do not; every other value, arrays and objects included, does. -/
def truthy : Value → Bool
  | .null => false
  | .bool b => b
  | .num x => !(x == 0 || x.isNaN)
  | .str s => !s.isEmpty
  | .arr _ => true
  | .obj _ => true

theorem sizeOf_lt_of_get? {v c : Value} {k : Text} (h : v.get? k = some c) :
    sizeOf c < sizeOf v := by
  cases v with
  | obj ms =>
    have := Members.sizeOf_lt_of_find? h
    simp; omega
  | _ => simp [get?] at h

theorem sizeOf_lt_of_mem_itemsAt {v c : Value} {k : Text} (h : c ∈ v.itemsAt k) :
    sizeOf c < sizeOf v := by
  unfold itemsAt at h
  split at h
  · rename_i xs hx
    have h1 := sizeOf_lt_of_get? hx
    have h2 := List.sizeOf_lt_of_mem h
    simp at h1; omega
  · simp at h

end Value

end YangDiagram.Json
