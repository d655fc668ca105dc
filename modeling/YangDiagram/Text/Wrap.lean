-- Greedy word wrap to a width in UTF-16 code units: each word goes on the current line after one
-- blank unless that passes the width, and a longer word stands on a line of its own.
import YangDiagram.Text.Blank

namespace YangDiagram.Text

/-- One word placed: on the current line, or starting a new one when it does not fit. -/
def placeWord (w : Nat) (acc : List Text × Text) (word : Text) : List Text × Text :=
  let (done, current) := acc
  if !current.isEmpty ∧ current.width + 1 + word.width > w then (done ++ [current], word)
  else (done, if current.isEmpty then word else current ++ ofString " " ++ word)

/-- The lines of a text wrapped greedily at width `w`. -/
def wrap (w : Nat) (t : Text) : List Text :=
  let (done, current) := (words t).foldl (placeWord w) ([], ⟨[]⟩)
  if current.isEmpty then done else done ++ [current]

end YangDiagram.Text
