-- Values as numbers, as a comparison with a number reads them: null is 0, the booleans 0 and 1,
-- a text a trimmed decimal numeral or an unsigned `0x`, `0o` or `0b` numeral, and lists and
-- objects are read through their text.
import YangDiagram.Json.Write
import YangDiagram.Json.Read
import YangDiagram.Text.Blank

namespace YangDiagram.Json

def notANumber : Float := Decimal.Binary.assemble false 2047 (Nat.pow 2 51)

/-- The value of a digit in a base up to 16, when the character is one. -/
def digitIn (base : Nat) (c : Char) : Option Nat :=
  let d :=
    if c.isDigit then some (c.toNat - '0'.toNat)
    else if 'a' ≤ c && c ≤ 'f' then some (c.toNat - 'a'.toNat + 10)
    else if 'A' ≤ c && c ≤ 'F' then some (c.toNat - 'A'.toNat + 10)
    else none
  d.bind fun n => if n < base then some n else none

/-- The number written by at least one digit of a base, when all the characters are digits. -/
def digitsIn (base : Nat) (cs : List Char) : Option Nat :=
  if cs.isEmpty then none
  else cs.foldl (fun acc c => acc.bind fun n => (digitIn base c).map (base * n + ·)) (some 0)

/-- The exponent after the digits of a decimal numeral: nothing, or `e` or `E`, a sign and
digits. -/
def exponentPart : List Char → Option Int
  | [] => some 0
  | e :: rest =>
    if e = 'e' || e = 'E' then
      let (negative, ds) := match rest with
        | '-' :: ds => (true, ds)
        | '+' :: ds => (false, ds)
        | ds => (false, ds)
      (digitsIn 10 ds).map fun n => if negative then -(n : Int) else n
    else none

/-- The double an unsigned decimal numeral names: `Infinity`, or digits with an optional point
and fraction (one of the two not empty) and an optional exponent. -/
def decimalNumeral (negative : Bool) (cs : List Char) : Option Float :=
  if cs = "Infinity".toList then some (Decimal.Binary.infinite negative)
  else
    let whole := cs.takeWhile Char.isDigit
    let (fraction, rest) := match cs.dropWhile Char.isDigit with
      | '.' :: r => (r.takeWhile Char.isDigit, r.dropWhile Char.isDigit)
      | r => ([], r)
    if whole.isEmpty && fraction.isEmpty then none
    else (exponentPart rest).map fun k =>
      Decimal.nearest negative (digitsValue (whole ++ fraction)) (k - fraction.length)

/-- The double a numeral names, when the characters are one. -/
def numeral : List Char → Option Float
  | '0' :: x :: ds =>
    if x = 'x' || x = 'X' then (digitsIn 16 ds).map (Decimal.nearest false · 0)
    else if x = 'o' || x = 'O' then (digitsIn 8 ds).map (Decimal.nearest false · 0)
    else if x = 'b' || x = 'B' then (digitsIn 2 ds).map (Decimal.nearest false · 0)
    else decimalNumeral false ('0' :: x :: ds)
  | '-' :: cs => decimalNumeral true cs
  | '+' :: cs => decimalNumeral false cs
  | cs => decimalNumeral false cs

/-- The number a text stands for: 0 when it is blank, the numeral it spells without its blanks,
or not a number. -/
def Text.toNumber (t : Text) : Float :=
  let core := Text.trim t
  if core.isEmpty then 0
  else if core.units.all (·.toNat < 0x80) then
    (numeral (core.units.map fun u => Char.ofNat u.toNat)).getD notANumber
  else notANumber

/-- The number a value stands for where a number is wanted; it fails for an object that has no
text, also inside a list. -/
def Value.toNumber : Value → Except Text Float
  | .null => .ok 0
  | .bool b => .ok (if b then 1 else 0)
  | .num x => .ok x
  | v => v.toText.map Text.toNumber

/-- The number of a value that may be missing: a missing one is not a number. -/
def Value.optionNumber : Option Value → Except Text Float
  | some v => v.toNumber
  | none => .ok notANumber

/-- How many whole numbers from 0 up are below a number: its ceiling when positive, none when it
is not above 0 or not a number, and all of them (as `2^64`) when it is infinite. -/
def countBelow (x : Float) : Nat :=
  if x > 0 then
    match wholePart? x with
    | some n => if n.toNat.toFloat < x then n.toNat + 1 else n.toNat
    | none => Nat.pow 2 64
  else 0

end YangDiagram.Json
