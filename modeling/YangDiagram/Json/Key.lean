-- Values as map keys, told apart by same-value-zero: the two zeros are one key, every NaN is one
-- key, and each object or list is a key of its own, marked by a number the caller chooses.
import YangDiagram.Json.Value
import YangDiagram.Decimal.Binary

namespace YangDiagram.Json

/-- A value as the key of a map. -/
inductive Key where
  | missing
  | null
  | bool (b : Bool)
  | num (x : Decimal.Binary)
  | str (t : Text)
  /-- An object or a list: only the same one has this key. -/
  | ref (n : Nat)
  deriving DecidableEq, Inhabited

namespace Key

def ofFloat (x : Float) : Key := .num (Decimal.Binary.key x)

/-- The key of a value, when it is given; `ref` names the object or list it is, if it is one. -/
def ofValue (ref : Nat) : Option Value → Key
  | none => .missing
  | some .null => .null
  | some (.bool b) => .bool b
  | some (.num x) => ofFloat x
  | some (.str t) => .str t
  | some (.arr _) | some (.obj _) => .ref ref

/-- The number 1 and the text "1" are different keys. -/
theorem ofFloat_ne_str (x : Float) (t : Text) : ofFloat x ≠ .str t := by
  simp [ofFloat]

end Key

end YangDiagram.Json
