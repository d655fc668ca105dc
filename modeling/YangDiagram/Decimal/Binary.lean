-- Finite binary64 doubles as integers `±m · 2^q` with `m < 2^53` and `-1074 ≤ q ≤ 971`, so
-- that decimal reading and writing can be done in exact `Nat` arithmetic. Fractions are pairs of
-- naturals, compared by cross-multiplication.

namespace YangDiagram.Decimal

/-- A double taken apart: not a number, an infinity, or a finite `±m · 2^q`. -/
inductive Binary where
  | nan
  | infinity (negative : Bool)
  | finite (negative : Bool) (m : Nat) (q : Int)
  deriving DecidableEq, Inhabited

namespace Binary

/-- The parts of a double, read off its bits. -/
def ofFloat (x : Float) : Binary :=
  let b := x.toBits.toNat
  let negative := decide (b / Nat.pow 2 63 = 1)
  let e : Nat := b / Nat.pow 2 52 % 2048
  let f := b % Nat.pow 2 52
  if e = 2047 then (if f = 0 then .infinity negative else .nan)
  else if e = 0 then .finite negative f (-1074)
  else .finite negative (f + Nat.pow 2 52) ((e : Int) - 1075)

/-- A double as the key of a map: one key per value, the two zeros one key, and every NaN one
key. -/
def key (x : Float) : Binary :=
  match ofFloat x with
  | .finite _ 0 q => .finite false 0 q
  | b => b

/-- The double with sign `negative`, biased exponent `e` and fraction bits `f`. -/
def assemble (negative : Bool) (e f : Nat) : Float :=
  Float.ofBits (UInt64.ofNat ((if negative then Nat.pow 2 63 else 0) + e * Nat.pow 2 52 + f))

def zero (negative : Bool) : Float := assemble negative 0 0

def infinite (negative : Bool) : Float := assemble negative 2047 0

/-- The double `±m · 2^q` for `m < 2^53`, or infinity when the value is beyond the largest one. -/
def toFloat (negative : Bool) (m : Nat) (q : Int) : Float :=
  if m = 0 then zero negative
  else if m < Nat.pow 2 52 then assemble negative 0 m
  else if q + 1075 ≥ 2047 then infinite negative
  else assemble negative (q + 1075).toNat (m - Nat.pow 2 52)

end Binary

/-- A fraction `x · 2^a · 10^b`, as numerator and denominator. -/
def fraction (x : Nat) (a b : Int) : Nat × Nat :=
  (x * Nat.pow 2 a.toNat * Nat.pow 10 b.toNat, Nat.pow 2 (-a).toNat * Nat.pow 10 (-b).toNat)

/-- `p ≤ r` for fractions with positive denominators. -/
def fractionLe (p r : Nat × Nat) : Bool := p.1 * r.2 ≤ r.1 * p.2

def fractionLt (p r : Nat × Nat) : Bool := p.1 * r.2 < r.1 * p.2

/-- The number of decimal digits of `n`; zero has none. -/
def digitCount (n : Nat) : Nat :=
  if h : n = 0 then 0 else digitCount (n / 10) + 1
termination_by n
decreasing_by omega

/-- The exponent `E` with `10^E ≤ a / b < 10^(E+1)`, for positive `a` and `b`. -/
def floorLog10 (p : Nat × Nat) : Int :=
  let e : Int := (digitCount p.1 : Int) - digitCount p.2
  if fractionLe (fraction 1 0 e) p then e else e - 1

/-- The exponent `E` with `2^E ≤ a / b < 2^(E+1)`, for positive `a` and `b`. -/
def floorLog2 (p : Nat × Nat) : Int :=
  let e : Int := (p.1.log2 : Int) - p.2.log2
  if fractionLe (fraction 1 e 0) p then e else e - 1

end YangDiagram.Decimal
