-- The blank characters that trimming and splitting into words remove: all below U+10000, so
-- each is one code unit and no half of a surrogate pair is blank.
import YangDiagram.Text.Basic

namespace YangDiagram.Text

/-- Whether a code unit is a blank character. -/
def isBlank (u : UInt16) : Bool :=
  let n := u.toNat
  (0x09 ≤ n && n ≤ 0x0D) || n = 0x20 || n = 0xA0 || n = 0x1680 || (0x2000 ≤ n && n ≤ 0x200A) ||
    n = 0x2028 || n = 0x2029 || n = 0x202F || n = 0x205F || n = 0x3000 || n = 0xFEFF

/-- Every ASCII blank that core knows is blank here too. -/
theorem isBlank_of_isWhitespace (c : Char) (h : c.isWhitespace = true) :
    isBlank (unit c) = true := by
  simp only [Char.isWhitespace, Bool.or_eq_true, decide_eq_true_eq] at h
  unfold isBlank unit
  rcases h with ((h | h) | h) | h <;> simp [h]

/-- A text without its leading and trailing blanks. -/
def trim (t : Text) : Text :=
  ⟨((t.units.dropWhile isBlank).reverse.dropWhile isBlank).reverse⟩

/-- The words of a text: the runs of units between blanks, in order. -/
def words (t : Text) : List Text :=
  ((t.units.splitOnP isBlank).filter (· ≠ [])).map Text.mk

end YangDiagram.Text
