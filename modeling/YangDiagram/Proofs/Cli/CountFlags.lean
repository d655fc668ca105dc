-- A count flag is checked twice, as text under the flag's name and as an option under the
-- option's name. A run of digits passes both exactly when its number is below `2^1024 - 2^970`;
-- above that it reads as infinity and is refused as `depth`.
import Mathlib
import YangDiagram.Cli.Flags
import YangDiagram.Proofs.Decimal.NearestWhole

namespace YangDiagram.Cli

open YangDiagram.Json YangDiagram.Diagram YangDiagram.Decimal

/-- A count flag's value is, once trimmed, a nonempty run of ASCII digits. -/
def DigitRun (value : Text) : Prop :=
  (Text.trim value).chars ≠ [] ∧ ∀ c ∈ (Text.trim value).chars, c.isDigit = true

/-- The first check: a value that is a run of digits gives the double nearest to the number it
writes; any other value is refused with a configuration report under the flag's name. -/
theorem countFlag_cases (flag : String) (value : Text) :
    (DigitRun value ∧
        countFlag flag value = .ok (nearest false (digitsValue (Text.trim value).chars) 0)) ∨
      (¬ DigitRun value ∧ countFlag flag value = .error (Report.configError flag
        ("Invalid " ++ flag ++ " value \"" ++ value ++ "\". Expected a non-negative integer."))) := by
  by_cases h : DigitRun value
  · left
    have hcond : (!(Text.trim value).chars.isEmpty && (Text.trim value).chars.all Char.isDigit) =
        true := by
      simpa [DigitRun, List.isEmpty_iff, List.all_eq_true] using h
    exact ⟨h, by simp only [countFlag, hcond, if_true]⟩
  · right
    have hcond : ¬ (!(Text.trim value).chars.isEmpty &&
        (Text.trim value).chars.all Char.isDigit) = true := by
      simpa [List.isEmpty_iff, List.all_eq_true, DigitRun] using h
    refine ⟨h, ?_⟩
    simp only [countFlag]
    rw [if_neg hcond]

/-- The option check takes a whole double with a clear sign as a count. -/
theorem count_of_whole {x : Float} {m : Nat} {q : Int} (hx : Binary.ofFloat x = .finite false m q)
    (hw : isWhole x = true) : count? (.num x) = some x := by
  simp [count?, hw, not_lt_zero_of_positive hx]

theorem count_of_infinite {x : Float} (hx : Binary.ofFloat x = .infinity false) :
    count? (.num x) = none := by
  simp [count?, isWhole, hx]

/-! ## A depth beyond the largest double -/

/-- One followed by 309 zeros: a run of digits whose number is beyond the largest double. -/
def hugeDigits : Text := ⟨Text.unit '1' :: List.replicate 309 (Text.unit '0')⟩

/-- A depth of `10^309` given as a flag passes the flag's check, reads as infinity, and is
refused by the option check under `depth`: the refusal does not name the flag. -/
theorem huge_depth_flag_refused_as_depth :
    DigitRun hugeDigits ∧
      ({ treeDepth := some hugeDigits } : Invocation).treeOptions =
        .ok [("depth", .num (nearest false (10 ^ 309) 0))] ∧
      Binary.ofFloat (nearest false (10 ^ 309) 0) = .infinity false ∧
      (Options.ofValue (.obj [("depth", .num (nearest false (10 ^ 309) 0))])).check =
        .error ⟨"depth", .num (nearest false (10 ^ 309) 0)⟩ := by
  have hchars : (Text.trim hugeDigits).chars = '1' :: List.replicate 309 '0' := by decide +kernel
  have hvalue : digitsValue ('1' :: List.replicate 309 '0') = 10 ^ 309 := by decide +kernel
  have hrun : DigitRun hugeDigits := by
    rw [DigitRun, hchars]
    refine ⟨List.cons_ne_nil _ _, fun c hc => ?_⟩
    rcases List.mem_cons.mp hc with rfl | hc
    · decide
    · rw [(List.mem_replicate.mp hc).2]
      decide
  have hinf : Binary.ofFloat (nearest false (10 ^ 309) 0) = .infinity false := by decide +kernel
  have hflag : countFlag "--tree-depth" hugeDigits = .ok (nearest false (10 ^ 309) 0) := by
    rcases countFlag_cases "--tree-depth" hugeDigits with ⟨-, hok⟩ | ⟨hno, -⟩
    · rw [hchars, hvalue] at hok
      exact hok
    · exact absurd hrun hno
  generalize nearest false (10 ^ 309) 0 = x at hflag hinf ⊢
  refine ⟨hrun, ?_, hinf, ?_⟩
  · simp [Invocation.treeOptions, hflag, Report.facts]
  · simp [Options.check, Options.ofValue, Value.get?, Members.find?, count_of_infinite hinf]

/-! ## The two checks below the edge -/

/-- A count flag that is not a run of digits is refused under its own name; a run of digits
writing `N` is taken as a count exactly when `N < 2^1024 - 2^970`, else refused as an option. -/
theorem countFlag_accepted_below_overflow (flag : String) (value : Text) :
    (¬ DigitRun value ∧ countFlag flag value = .error (Report.configError flag
        ("Invalid " ++ flag ++ " value \"" ++ value ++ "\". Expected a non-negative integer."))) ∨
      (DigitRun value ∧ ∃ x, countFlag flag value = .ok x ∧
        count? (.num x) =
          (if digitsValue (Text.trim value).chars < 2 ^ 1024 - 2 ^ 970 then some x else none) ∧
        (2 ^ 1024 - 2 ^ 970 ≤ digitsValue (Text.trim value).chars →
          Binary.ofFloat x = .infinity false)) := by
  rcases countFlag_cases flag value with ⟨hrun, hok⟩ | hrefused
  · obtain ⟨hbelow, habove⟩ := nearest_nat_cases (digitsValue (Text.trim value).chars)
    refine .inr ⟨hrun, _, hok, ?_, habove⟩
    split
    · rename_i hlt
      obtain ⟨hw, m, q, hx⟩ := hbelow hlt
      exact count_of_whole hx hw
    · rename_i hge
      exact count_of_infinite (habove (Nat.le_of_not_lt hge))
  · exact .inl hrefused

end YangDiagram.Cli
