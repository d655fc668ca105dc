-- Number text: the shortest decimal that reads back, laid out in the standard style as digits
-- with a point inside or after them, behind `0.` and zeros, or in exponent form.
import YangDiagram.Decimal.Shortest

namespace YangDiagram.Json

/-- The choices of a number layout. -/
structure NumberStyle where
  /-- Points at or below this position take an exponent. -/
  minPoint : Int
  /-- Points above this position take an exponent. -/
  maxPoint : Int
  /-- The mark before the exponent. -/
  exponentMark : String
  /-- Whether a non-negative exponent is written with `+`. -/
  plusSign : Bool
  /-- The text of a value that is not a number. -/
  nanText : String
  /-- The text of an infinity, after its sign. -/
  infinityText : String

/-- Numbers as JSON text and the text of a value write them: positional from `1e-6` up to below
`1e21`, `e+`/`e-` exponents beyond, `NaN` and `Infinity` for the values that are no numbers. -/
def NumberStyle.standard : NumberStyle := ⟨-6, 21, "e", true, "NaN", "Infinity"⟩

/-- The decimal digits of `c`, most significant first. -/
def digitsOf (c : Nat) : List Char := Nat.toDigits 10 c

def zeros (n : Nat) : List Char := List.replicate n '0'

/-- The text of the positive decimal `0.ds · 10^p` in a style. -/
def NumberStyle.layout (st : NumberStyle) (ds : List Char) (p : Int) : String :=
  let n := ds.length
  if (n : Int) ≤ p ∧ p ≤ st.maxPoint then
    String.ofList (ds ++ zeros (p - n).toNat)
  else if 0 < p ∧ p ≤ st.maxPoint then
    String.ofList (ds.take p.toNat ++ '.' :: ds.drop p.toNat)
  else if st.minPoint < p ∧ p ≤ 0 then
    String.ofList ('0' :: '.' :: zeros (-p).toNat ++ ds)
  else
    let e := p - 1
    let sign := if e < 0 then "-" else if st.plusSign then "+" else ""
    let mantissa := match ds with
      | [d] => String.singleton d
      | d :: rest => String.ofList (d :: '.' :: rest)
      | [] => "0"
    mantissa ++ st.exponentMark ++ sign ++ toString e.natAbs

/-- The text of a double in a style. Both zeros are written `0`. -/
def NumberStyle.write (st : NumberStyle) (x : Float) : String :=
  match Decimal.Binary.ofFloat x with
  | .nan => st.nanText
  | .infinity negative => (if negative then "-" else "") ++ st.infinityText
  | .finite negative m q =>
    if m = 0 then "0"
    else
      let (c, k) := Decimal.shortest m q
      let ds := digitsOf c
      (if negative then "-" else "") ++ st.layout ds (k + ds.length)

def isFinite (x : Float) : Bool :=
  match Decimal.Binary.ofFloat x with
  | .finite .. => true
  | _ => false

/-- Whether a double is a whole number (finite, with no fractional part). -/
def isWhole (x : Float) : Bool :=
  match Decimal.Binary.ofFloat x with
  | .finite _ m q => q ≥ 0 || m % Nat.pow 2 (-q).toNat = 0
  | _ => false

/-- The whole number a double holds, rounded toward zero; `none` when it is not finite. -/
def wholePart? (x : Float) : Option Int :=
  match Decimal.Binary.ofFloat x with
  | .finite negative m q =>
    let n : Nat := if q ≥ 0 then m * Nat.pow 2 q.toNat else m / Nat.pow 2 (-q).toNat
    some (if negative then -(n : Int) else n)
  | _ => none

end YangDiagram.Json
