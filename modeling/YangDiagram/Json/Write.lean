-- Writing a value as compact JSON text, with short escapes, lowercase `\u` escapes for other
-- control units and lone surrogates, and an object's array-index keys first, ascending.
-- `Value.toText` is the text a value stands for.
import YangDiagram.Json.Value
import YangDiagram.Json.Number

namespace YangDiagram.Json

/-- Four lowercase hexadecimal digits. -/
def hex4 (n : Nat) : String :=
  let d (k : Nat) : Char := "0123456789abcdef".toList.getD (n / Nat.pow 16 k % 16) '0'
  String.ofList [d 3, d 2, d 1, d 0]

/-- The quoted form of one character inside a JSON string. -/
def escapeChar (c : Char) : String :=
  match c with
  | '"' => "\\\""
  | '\\' => "\\\\"
  | '\x08' => "\\b"
  | '\t' => "\\t"
  | '\n' => "\\n"
  | '\x0c' => "\\f"
  | '\r' => "\\r"
  | _ => if c.toNat < 0x20 then "\\u" ++ hex4 c.toNat else String.singleton c

/-- The quoted form of one decoded piece: a lone surrogate half as an escape. -/
def escapePiece : Text.Piece → String
  | .char c => escapeChar c
  | .lone u => "\\u" ++ hex4 u.toNat

/-- A JSON string literal for a text; a lone surrogate half becomes an escape. -/
def quote (t : Text) : String :=
  "\"" ++ String.join (t.pieces.map escapePiece) ++ "\""

/-- The array index a key names, when it names one. -/
def indexKey? (k : Text) : Option Nat :=
  let ds := k.units.map fun u => Char.ofNat u.toNat
  let digits := k.units.all fun u => 0x30 ≤ u.toNat && u.toNat ≤ 0x39
  match ds with
  | [] => none
  | ['0'] => some 0
  | d :: _ =>
    if d ≠ '0' && digits then
      let n := ds.foldl (fun n c => 10 * n + (c.toNat - '0'.toNat)) 0
      if n < Nat.pow 2 32 - 1 then some n else none
    else none

/-- Members in property order: index keys ascending, then the other keys in their order. -/
def propertyOrder {α : Type} (ms : List (Text × α)) : List (Text × α) :=
  let indexed := ms.filterMap fun m => (indexKey? m.1).map fun n => (n, m)
  (indexed.mergeSort (fun a b => a.1 ≤ b.1)).map Prod.snd ++
    ms.filter fun m => (indexKey? m.1).isNone

mutual

/-- The compact JSON text of a value. -/
def Value.write : Value → String
  | .null => "null"
  | .bool b => if b then "true" else "false"
  | .num x => if isFinite x then NumberStyle.standard.write x else "null"
  | .str s => quote s
  | .arr xs => "[" ++ ",".intercalate (writeItems xs) ++ "]"
  | .obj ms =>
    "\x7b" ++ ",".intercalate ((propertyOrder (writeMembers ms)).map fun (k, t) => quote k ++ ":" ++ t)
      ++ "\x7d"

def writeItems : List Value → List String
  | [] => []
  | v :: rest => v.write :: writeItems rest

def writeMembers : List (Text × Value) → List (Text × String)
  | [] => []
  | (k, v) :: rest => (k, v.write) :: writeMembers rest

end

/-- The message of asking the text of an object that has a member named `toString`. -/
def noTextMessage : Text := "Cannot convert object to primitive value"

mutual

/-- The text a value stands for: strings as they are, numbers in the standard style, arrays joined
by commas, objects `[object Object]`; an object with a member `toString` has none. -/
def Value.toText : Value → Except Text Text
  | .null => .ok "null"
  | .bool b => .ok (if b then "true" else "false")
  | .num x => .ok (NumberStyle.standard.write x)
  | .str s => .ok s
  | .arr xs => (itemTexts xs).map (Text.intercalate ",")
  | .obj ms =>
    if (Members.find? ms "toString").isSome then .error noTextMessage else .ok "[object Object]"

/-- The texts of array items inside an array's text: `null` is empty there. -/
def itemTexts : List Value → Except Text (List Text)
  | [] => .ok []
  | .null :: rest => (itemTexts rest).map (⟨[]⟩ :: ·)
  | v :: rest =>
    match v.toText, itemTexts rest with
    | .ok t, .ok ts => .ok (t :: ts)
    | .error m, _ => .error m
    | _, .error m => .error m

end

/-- The text of a value that may be missing: a missing one reads `undefined`. -/
def Value.optionText : Option Value → Except Text Text
  | some v => v.toText
  | none => .ok "undefined"

end YangDiagram.Json
