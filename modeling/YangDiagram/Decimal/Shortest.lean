-- The shortest decimal that reads back to a positive double: the fewest digits within its
-- rounding interval, then the nearest to the double, then the even last digit. One to 17 digits
-- are tried, and on each grid only the two points around the double can fit.
import YangDiagram.Decimal.Binary

namespace YangDiagram.Decimal

/-- The interval of reals that read back as `m · 2^q`, in units of `2^(q-2)`: the lower end is a
quarter step below when `m` starts a binade (its lower neighbour is half as far away). -/
def roundingInterval (m : Nat) (q : Int) : Nat × Nat :=
  let low := if m = Nat.pow 2 52 ∧ q > -1074 then 4 * m - 1 else 4 * m - 2
  (low, 4 * m + 2)

/-- Whether `c · 10^k` reads back as `m · 2^q`. -/
def readsBack (m : Nat) (q : Int) (c : Nat) (k : Int) : Bool :=
  let (low, high) := roundingInterval m q
  let p := fraction c 0 k
  let lo := fraction low (q - 2) 0
  let hi := fraction high (q - 2) 0
  if m % 2 = 0 then fractionLe lo p && fractionLe p hi
  else fractionLt lo p && fractionLt p hi

/-- The decimal with `n` digits that reads back as `m · 2^q`, when there is one: one of the two
points of the grid `10^k` around the double, `k = E - n + 1`, the nearer when both read back. -/
def attempt (m : Nat) (q : Int) (e : Int) (n : Nat) : Option (Nat × Int) :=
  let k := e - n + 1
  let (a, b) := fraction m q (-k)
  let below := a / b
  let r := a % b
  let okBelow := readsBack m q below k
  let okAbove := readsBack m q (below + 1) k
  if okBelow && okAbove then
    if 2 * r < b then some (below, k)
    else if 2 * r > b then some (below + 1, k)
    else if below % 2 = 0 then some (below, k) else some (below + 1, k)
  else if okBelow then some (below, k)
  else if okAbove then some (below + 1, k)
  else none

/-- Drops the trailing zeros of `c · 10^k` into the exponent. -/
def trimZeros (c : Nat) (k : Int) : Nat × Int :=
  if h : c ≠ 0 ∧ c % 10 = 0 then trimZeros (c / 10) (k + 1) else (c, k)
termination_by c
decreasing_by omega

/-- The shortest decimal `c · 10^k` that reads back as the positive double `m · 2^q`, with no
trailing zero in `c`. -/
def shortest (m : Nat) (q : Int) : Nat × Int :=
  let e := floorLog10 (fraction m q 0)
  match (List.range 17).findSome? (fun i => attempt m q e (i + 1)) with
  | some (c, k) => trimZeros c k
  | none => trimZeros m q.toNat

end YangDiagram.Decimal
