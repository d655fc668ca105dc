-- A count that passes the option check is a whole double not below zero, and zero is read as no
-- bound, so the depth budget and the line width of checked options are never zero.
import Mathlib
import YangDiagram.Diagram.Options

namespace YangDiagram.Diagram

open YangDiagram.Json YangDiagram.Decimal Float.Model

theorem exponentField_toNat (b : BitVec 64) :
    (@UnpackedFloat.unpackExponent Format.binary64 b).toNat =
      b.toNat / Nat.pow 2 52 % 2048 := by
  simp [UnpackedFloat.unpackExponent, Nat.shiftRight_eq_div_pow]

theorem mantissaField_toNat (b : BitVec 64) :
    (@UnpackedFloat.unpackMantissa Format.binary64 b).toNat = b.toNat % Nat.pow 2 52 := by
  simp [UnpackedFloat.unpackMantissa]

theorem signField_toNat (b : BitVec 64) :
    (@UnpackedFloat.unpackSign Format.binary64 b).toNat = b.toNat / Nat.pow 2 63 := by
  have h := b.isLt
  simp [UnpackedFloat.unpackSign, Nat.shiftRight_eq_div_pow] at h ⊢
  omega

theorem toNat_toBitVec_toModel (x : Float) : x.toModel.toBits.toBitVec.toNat = x.toBits.toNat := by
  simp [Float.toBits]

theorem ofBitVec_unpackSign (x : Float) :
    UnpackedFloat.Sign.ofBitVec (@UnpackedFloat.unpackSign Format.binary64 x.toModel.toBits.toBitVec) =
      if x.toBits.toNat / Nat.pow 2 63 = 0 then .positive else .negative := by
  have hs : (@UnpackedFloat.unpackSign Format.binary64 x.toModel.toBits.toBitVec = 0#1) ↔
      x.toBits.toNat / Nat.pow 2 63 = 0 := by
    rw [← BitVec.toNat_inj, signField_toNat, toNat_toBitVec_toModel]
    simp
  simp only [UnpackedFloat.Sign.ofBitVec, hs]

/-- How the model unpacks a double whose exponent field is short of infinity's: a zero when both
exponent and mantissa fields read zero, else a finite value, with the sign its field reads. -/
theorem unpack_cases {x : Float} (he : x.toBits.toNat / Nat.pow 2 52 % 2048 ≠ 2047) :
    let s : UnpackedFloat.Sign :=
      if x.toBits.toNat / Nat.pow 2 63 = 0 then .positive else .negative
    (x.toBits.toNat / Nat.pow 2 52 % 2048 = 0 ∧ x.toBits.toNat % Nat.pow 2 52 = 0 ∧
        x.toModel.unpack = .zero s) ∨
      (¬ (x.toBits.toNat / Nat.pow 2 52 % 2048 = 0 ∧ x.toBits.toNat % Nat.pow 2 52 = 0) ∧
        ∃ m e hm, x.toModel.unpack = .finite s m e hm) := by
  have hE1 : @UnpackedFloat.unpackExponent Format.binary64 x.toModel.toBits.toBitVec ≠ -1#_ := by
    intro h
    have h' := congrArg BitVec.toNat h
    rw [exponentField_toNat, toNat_toBitVec_toModel] at h'
    exact he (by simpa using h')
  have hE0 : @UnpackedFloat.unpackExponent Format.binary64 x.toModel.toBits.toBitVec = 0#_ ↔
      x.toBits.toNat / Nat.pow 2 52 % 2048 = 0 := by
    rw [← BitVec.toNat_inj, exponentField_toNat, toNat_toBitVec_toModel]
    simp
  have hM0 : @UnpackedFloat.unpackMantissa Format.binary64 x.toModel.toBits.toBitVec = 0#_ ↔
      x.toBits.toNat % Nat.pow 2 52 = 0 := by
    rw [← BitVec.toNat_inj, mantissaField_toNat, toNat_toBitVec_toModel]
    simp
  rw [Float.Model.unpack, UnpackedFloat.unpack]
  simp only [if_neg hE1, ofBitVec_unpackSign]
  by_cases hz : x.toBits.toNat / Nat.pow 2 52 % 2048 = 0
  · by_cases hm : x.toBits.toNat % Nat.pow 2 52 = 0
    · exact .inl ⟨hz, hm, by simp only [hE0.mpr hz, hM0.mpr hm, if_true, dif_pos]⟩
    · refine .inr ⟨fun h => hm h.2, ?_⟩
      simp only [hE0.mpr hz, if_true, dif_neg (fun h => hm (hM0.mp h))]
      exact ⟨_, _, by rw [mantissaField_toNat, toNat_toBitVec_toModel]; omega, rfl⟩
  · refine .inr ⟨fun h => hz h.1, ?_⟩
    simp only [if_neg (fun h => hz (hE0.mp h))]
    refine ⟨_, _, ?_, rfl⟩
    rw [BitVec.toNat_append]
    exact Nat.lt_of_lt_of_le (by decide) Nat.left_le_or

theorem beq_zero_of_zero_mantissa {x : Float} {neg : Bool} {q : Int}
    (h : Binary.ofFloat x = .finite neg 0 q) : (x == 0) = true := by
  have hz : (0 : Float).toModel.unpack = .zero .positive := rfl
  have hlt := x.toBits.toNat_lt
  simp only [Binary.ofFloat] at h
  have hb : x.toBits.toNat / Nat.pow 2 52 % 2048 = 0 ∧ x.toBits.toNat % Nat.pow 2 52 = 0 := by
    split at h
    · split at h <;> simp at h
    · split at h
      · rename_i he
        simp at h he ⊢
        omega
      · simp at h
  have hu : ∃ s, x.toModel.unpack = .zero s := by
    rcases unpack_cases (x := x) (by rw [hb.1]; decide) with ⟨-, -, hs⟩ | ⟨hnz, -⟩
    · exact ⟨_, hs⟩
    · exact absurd hb hnz
  obtain ⟨s, hs⟩ := hu
  show (x.toModel.beq (0 : Float).toModel) = true
  simp only [Float.Model.beq, hs, hz]
  cases s <;> rfl

theorem lt_zero_of_negative {x : Float} {m : Nat} {q : Int}
    (h : Binary.ofFloat x = .finite true m q) (hm : m ≠ 0) : x < 0 := by
  have hz : (0 : Float).toModel.unpack = .zero .positive := rfl
  have hlt := x.toBits.toNat_lt
  simp only [Binary.ofFloat] at h
  have hb : x.toBits.toNat / Nat.pow 2 52 % 2048 ≠ 2047 ∧ x.toBits.toNat / Nat.pow 2 63 = 1 ∧
      (x.toBits.toNat / Nat.pow 2 52 % 2048 = 0 → x.toBits.toNat % Nat.pow 2 52 ≠ 0) := by
    split at h
    · split at h <;> simp at h
    · rename_i he
      split at h
      · rename_i he'
        simp at h he he' ⊢
        omega
      · rename_i he'
        simp at h he he' ⊢
        omega
  rcases unpack_cases hb.1 with ⟨hz0, hm0, -⟩ | ⟨-, m', e', hm', hs⟩
  · exact absurd hm0 (hb.2.2 hz0)
  · rw [if_neg (by rw [hb.2.1]; decide)] at hs
    show decide (x.toModel.unpack.lt (0 : Float).toModel.unpack = true) = true
    rw [hs, hz]
    rfl

/-- A count that passes the check, with zero read as no bound, holds a whole number of at
least one. -/
theorem countNat_effective_pos {v : Value} {d : Float} (h : count? v = some d) :
    0 < countNat (effective d) := by
  cases v with
  | num x =>
    simp only [count?] at h
    split at h
    · rename_i hx
      cases h
      simp only [Bool.and_eq_true, Bool.not_eq_eq_eq_not, Bool.not_true,
        decide_eq_false_iff_not] at hx
      obtain ⟨hwhole, hnonneg⟩ := hx
      unfold effective
      split
      · decide
      · rename_i hne
        cases hb : Binary.ofFloat d with
        | finite neg m q =>
          have hm : m ≠ 0 := by
            rintro rfl
            exact hne (beq_zero_of_zero_mantissa hb)
          have hneg : neg = false := by
            cases neg
            · rfl
            · exact absurd (lt_zero_of_negative hb hm) hnonneg
          subst hneg
          simp only [isWhole, hb] at hwhole
          have hpos :
              0 < (if q ≥ 0 then m * Nat.pow 2 q.toNat else m / Nat.pow 2 (-q).toNat) := by
            split
            · exact Nat.mul_pos (Nat.pos_of_ne_zero hm) (Nat.two_pow_pos _)
            · rename_i hq
              simp only [hq, decide_false, Bool.false_or, decide_eq_true_eq] at hwhole
              exact Nat.div_pos
                (Nat.le_of_dvd (Nat.pos_of_ne_zero hm) (Nat.dvd_of_mod_eq_zero hwhole))
                (Nat.two_pow_pos _)
          simp only [countNat, wholePart?, hb, Bool.false_eq_true, if_false, Option.getD_some,
            Int.toNat_natCast]
          exact hpos
        | _ => simp [isWhole, hb] at hwhole
    · cases h
  | _ => simp [count?] at h

/-- Checked options draw at least one level. -/
theorem Options.budget_pos_of_check {o : Options} {s : Settings} (h : o.check = .ok s) :
    0 < s.budget := by
  unfold Options.check at h
  split at h
  · cases h
  · rename_i d hd
    split at h
    · cases h
    · cases h
      exact countNat_effective_pos hd

/-- Checked options keep at least one code unit of each line. -/
theorem Options.width_pos_of_check {o : Options} {s : Settings} (h : o.check = .ok s) :
    0 < s.width := by
  unfold Options.check at h
  split at h
  · cases h
  · split at h
    · cases h
    · rename_i l hl
      cases h
      exact countNat_effective_pos hl

/-- The default options pass the check, with neither depth nor line length bounded. -/
theorem Options.check_default : ({} : Options).check = .ok ⟨{}, unbounded, unbounded⟩ := by
  have hwhole : isWhole 0 = true := by decide +kernel
  have hnonneg : ¬ ((0 : Float) < 0) := by decide +kernel
  have hzero : ((0 : Float) == 0) = true := by decide +kernel
  simp [Options.check, count?, effective, hwhole, hnonneg, hzero]

theorem countNat_unbounded : countNat unbounded = 10000 := by
  have h : wholePart? unbounded = some 10000 := by decide +kernel
  simp [countNat, h]

end YangDiagram.Diagram
