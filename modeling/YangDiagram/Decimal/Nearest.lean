-- The double nearest to a decimal `± c · 10^k`, a tie going to the even significand. Values
-- past the largest double read as infinity and values below half the smallest as zero; far-out
-- exponents are settled before any power is formed.
import YangDiagram.Decimal.Binary

namespace YangDiagram.Decimal

/-- The significand `round(a / b)` with a tie going to the even one. -/
def roundHalfEven (p : Nat × Nat) : Nat :=
  let d := p.1 / p.2
  let r := p.1 % p.2
  if 2 * r > p.2 ∨ (2 * r = p.2 ∧ d % 2 = 1) then d + 1 else d

/-- The double nearest to `± c · 10^k`. -/
def nearest (negative : Bool) (c : Nat) (k : Int) : Float :=
  let size := k + digitCount c
  if c = 0 then Binary.zero negative
  else if size > 310 then Binary.infinite negative
  else if size < -330 then Binary.zero negative
  else
    let e := floorLog2 (fraction c 0 k)
    let q := max (e - 52) (-1074)
    let m := roundHalfEven (fraction c (-q) k)
    if m = Nat.pow 2 53 then Binary.toFloat negative (Nat.pow 2 52) (q + 1)
    else Binary.toFloat negative m q

end YangDiagram.Decimal
