-- Texts as sequences of UTF-16 code units, so a lone half of a surrogate pair is a text.
-- Strings spell into units, and lengths, cuts and padding count units.

namespace YangDiagram

/-- A text: UTF-16 code units in order. -/
structure Text where
  units : List UInt16
  deriving DecidableEq, Inhabited

namespace Text

/-- The UTF-16 code units of one character. -/
def charUnits (c : Char) : List UInt16 :=
  let n := c.toNat
  if n < 0x10000 then [n.toUInt16]
  else
    let v := n - 0x10000
    [(0xD800 + v / 0x400).toUInt16, (0xDC00 + v % 0x400).toUInt16]

def charWidth (c : Char) : Nat := if c.toNat < 0x10000 then 1 else 2

theorem length_charUnits (c : Char) : (charUnits c).length = charWidth c := by
  unfold charUnits charWidth
  by_cases h : c.toNat < 0x10000 <;> simp [h]

/-- The text of a string: each character in its units. -/
def ofString (s : String) : Text := ⟨s.toList.flatMap charUnits⟩

instance : Coe String Text := ⟨ofString⟩

instance : Append Text := ⟨fun a b => ⟨a.units ++ b.units⟩⟩

@[simp] theorem units_append (a b : Text) : (a ++ b).units = a.units ++ b.units := rfl

def ofUnit (u : UInt16) : Text := ⟨[u]⟩

def ofNat (n : Nat) : Text := ofString (toString n)

/-- The length of a text in UTF-16 code units. -/
def width (t : Text) : Nat := t.units.length

theorem width_ofString (s : String) :
    width (ofString s) = s.toList.foldr (fun c n => charWidth c + n) 0 := by
  unfold width ofString
  induction s.toList with
  | nil => rfl
  | cons c cs ih => simp [List.flatMap_cons, length_charUnits, ih]

def isEmpty (t : Text) : Bool := t.units.isEmpty

/-- The first `w` code units of a text, all of it when it is no longer. -/
def clip (w : Nat) (t : Text) : Text := ⟨t.units.take w⟩

def drop (n : Nat) (t : Text) : Text := ⟨t.units.drop n⟩

def join (ts : List Text) : Text := ⟨ts.flatMap (·.units)⟩

def intercalate (sep : Text) (ts : List Text) : Text := ⟨sep.units.intercalate (ts.map (·.units))⟩

def startsWith (t p : Text) : Bool := p.units.isPrefixOf t.units

/-- The pieces of a text between the occurrences of a unit. -/
def splitOn (t : Text) (u : UInt16) : List Text := (t.units.splitOn u).map Text.mk

def splitLines (t : Text) : List Text := t.splitOn 10

/-- The code unit of an ASCII character. -/
def unit (c : Char) : UInt16 := c.toNat.toUInt16

def blanks (n : Nat) : Text := ⟨List.replicate n (unit ' ')⟩

/-- A piece of decoded units: a character, or a lone surrogate half. -/
inductive Piece where
  | char (c : Char)
  | lone (u : UInt16)

/-- Whether a unit is the first half of a surrogate pair. -/
def isHigh (u : UInt16) : Bool := 0xD800 ≤ u.toNat && u.toNat < 0xDC00

def isLow (u : UInt16) : Bool := 0xDC00 ≤ u.toNat && u.toNat < 0xE000

/-- Reads UTF-16 code units back into characters; a half without its partner stays a unit. -/
def decodeUnits : List UInt16 → List Piece
  | [] => []
  | [u] => if isHigh u || isLow u then [.lone u] else [.char (Char.ofNat u.toNat)]
  | u :: v :: rest =>
    if isHigh u && isLow v then
      .char (Char.ofNat (0x10000 + (u.toNat - 0xD800) * 0x400 + (v.toNat - 0xDC00))) ::
        decodeUnits rest
    else if isHigh u || isLow u then .lone u :: decodeUnits (v :: rest)
    else .char (Char.ofNat u.toNat) :: decodeUnits (v :: rest)

def pieces (t : Text) : List Piece := decodeUnits t.units

/-- The characters of a text, a lone surrogate half read as U+FFFD. -/
def chars (t : Text) : List Char :=
  t.pieces.map fun
    | .char c => c
    | .lone _ => '�'

/-- A text as a string, a lone surrogate half read as U+FFFD. -/
def toString (t : Text) : String := String.ofList t.chars

/-- A text as a string, when it holds no lone surrogate half. -/
def toString? (t : Text) : Option String :=
  (t.pieces.mapM fun (p : Piece) => match p with
    | .char c => some c
    | .lone _ => none).map String.ofList

/-- The number of code points of a text: a surrogate pair counts once, a lone half once. -/
def codePoints (t : Text) : Nat := t.pieces.length

/-- Whether one spelling comes before another in the order texts are compared in: at the first
code unit where they differ the smaller unit comes first, and a proper prefix comes first. -/
def precedes : List UInt16 → List UInt16 → Bool
  | _, [] => false
  | [], _ :: _ => true
  | a :: as, b :: bs => if a.toNat < b.toNat then true else if a = b then precedes as bs else false

end Text

end YangDiagram
