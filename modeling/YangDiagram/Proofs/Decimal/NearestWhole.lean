-- The double nearest to a whole number is a whole number at least zero, or infinity exactly from
-- `2^1024 - 2^970` on. Reading back a double packed from its parts gives those parts.
import Mathlib
import YangDiagram.Decimal.Nearest
import YangDiagram.Proofs.Diagram.Budget

namespace YangDiagram.Decimal

open Float.Model Float.Model.UnpackedFloat YangDiagram.Diagram

/-! ## Bits unpacked and packed again -/

theorem Sign.toBitVec_ofBitVec (v : BitVec 1) : (Sign.ofBitVec v).toBitVec = v := by
  revert v
  decide

theorem toNat_append_eq_add {m n : Nat} (x : BitVec m) (y : BitVec n) :
    (x ++ y).toNat = x.toNat * 2 ^ n + y.toNat := by
  rw [BitVec.toNat_append, ← Nat.shiftLeft_add_eq_or_of_lt y.isLt, Nat.shiftLeft_eq]

/-- A double's bits are its sign, exponent field and fraction field side by side. -/
theorem packComponents_unpack (b : BitVec Format.binary64.numBits) :
    packComponents Format.binary64 (Sign.ofBitVec (unpackSign b)) (unpackExponent b)
      (unpackMantissa b) = b := by
  apply BitVec.eq_of_toNat_eq
  have hb := b.isLt
  simp only [packComponents, toNat_append_eq_add, Sign.toBitVec_ofBitVec, signField_toNat,
    exponentField_toNat, mantissaField_toNat, Nat.pow_eq] at hb ⊢
  omega

/-- Unpacking the bits of a double that is not NaN and packing them again gives the same
bits. -/
theorem pack_unpack (b : BitVec Format.binary64.numBits) (h : unpackExponent b = -1#_ → unpackMantissa b = 0#_) :
    pack Format.binary64 (unpack Format.binary64 b) = b := by
  have hm : (unpackMantissa b).toNat < 2 ^ 52 := (unpackMantissa b).isLt
  have hE : (unpackExponent b).toNat < 2048 := (unpackExponent b).isLt
  have hbias : (Format.binary64.exponentBias : Int) = 1023 := rfl
  have hsame : ∀ {e : BitVec Format.binary64.exponentBits}
      {f : BitVec Format.binary64.mantissaBitsWithoutImplicit},
      unpackExponent b = e → unpackMantissa b = f →
      packComponents Format.binary64 (Sign.ofBitVec (unpackSign b)) e f = b := by
    intro e f he hf
    subst he hf
    exact packComponents_unpack b
  rw [UnpackedFloat.unpack]
  split
  · rename_i hinf
    rw [if_pos (h hinf)]
    exact hsame hinf (h hinf)
  · rename_i hnot
    split
    · rename_i hzero
      split
      · rename_i hm0
        exact hsame hzero hm0
      · rename_i hm0
        have hpos : (unpackMantissa b).toNat ≠ 0 := fun h0 => hm0 (BitVec.eq_of_toNat_eq h0)
        have hE0 : (unpackExponent b).toNat = 0 := by rw [hzero]; rfl
        have hlog : (unpackMantissa b).toNat.log2 < 52 := (Nat.log2_lt hpos).mpr hm
        have hbiased : ((((unpackExponent b).toNat : Int) -
            (Format.binary64.exponentBias + Format.binary64.mantissaBitsWithoutImplicit) + 1 +
            Format.binary64.exponentBias + Format.binary64.mantissaBitsWithoutImplicit)).toNat =
            1 := by
          rw [hE0, hbias]
          rfl
        simp only [UnpackedFloat.pack, hbiased]
        rw [if_neg (by decide), if_neg (by show ¬ _ + 1 = 53; omega)]
        exact hsame hzero (by rw [BitVec.ofNat_toNat, BitVec.setWidth_eq])
    · rename_i hzero
      have hE0 : (unpackExponent b).toNat ≠ 0 := fun h0 => hzero (BitVec.eq_of_toNat_eq h0)
      have hE1 : (unpackExponent b).toNat ≠ 2047 := fun h1 => hnot (BitVec.eq_of_toNat_eq h1)
      have happ : (1#1 ++ unpackMantissa b).toNat = 2 ^ 52 + (unpackMantissa b).toNat := by
        rw [toNat_append_eq_add]
        simp
      have hlog : (1#1 ++ unpackMantissa b).toNat.log2 = 52 := by
        rw [happ]
        apply Nat.le_antisymm
        · exact Nat.lt_succ_iff.mp ((Nat.log2_lt (by omega)).mpr (by omega))
        · exact (Nat.le_log2 (by omega)).mpr (by omega)
      have hbiased : ((((unpackExponent b).toNat : Int) -
          (Format.binary64.exponentBias + Format.binary64.mantissaBitsWithoutImplicit) +
          Format.binary64.exponentBias + Format.binary64.mantissaBitsWithoutImplicit)).toNat =
          (unpackExponent b).toNat := by
        omega
      simp only [UnpackedFloat.pack, hlog, hbiased]
      rw [if_neg (by show ¬ 2048 ≤ _ + 1; omega),
        if_pos (show 52 + 1 = Format.binary64.mantissaBits from rfl)]
      refine hsame ?_ ?_
      · rw [BitVec.ofNat_toNat, BitVec.setWidth_eq]
      · apply BitVec.eq_of_toNat_eq
        rw [BitVec.toNat_ofNat, happ]
        show _ = (2 ^ 52 + (unpackMantissa b).toNat) % 2 ^ 52
        omega

theorem toBits_ofBits (u : UInt64) (h : u.toNat / 2 ^ 52 % 2048 = 2047 → u.toNat % 2 ^ 52 = 0) :
    (Float.ofBits u).toBits = u := by
  have hbits : pack Format.binary64 (unpack Format.binary64 u.toBitVec) = u.toBitVec := by
    apply pack_unpack
    intro hinf
    apply BitVec.eq_of_toNat_eq
    have he := congrArg BitVec.toNat hinf
    rw [exponentField_toNat] at he
    rw [mantissaField_toNat]
    simp only [UInt64.toNat_toBitVec, Nat.pow_eq] at he ⊢
    exact h he
  show UInt64.ofBitVec (pack Format.binary64 (unpack Format.binary64 u.toBitVec)) = u
  rw [hbits]

namespace Binary

/-- The bits put together from a sign, an exponent field and a fraction field read back, for all
but the bits of a NaN. -/
theorem toNat_toBits_assemble (neg : Bool) {e f : Nat} (he : e < 2047 ∨ e = 2047 ∧ f = 0)
    (hf : f < 2 ^ 52) :
    (assemble neg e f).toBits.toNat = (if neg then 2 ^ 63 else 0) + e * 2 ^ 52 + f := by
  have hlt : (if neg then 2 ^ 63 else 0) + e * 2 ^ 52 + f < 2 ^ 64 := by
    split <;> omega
  unfold assemble
  simp only [Nat.pow_eq]
  rw [toBits_ofBits]
  · simp only [UInt64.toNat_ofNat', Nat.mod_eq_of_lt hlt]
  · simp only [UInt64.toNat_ofNat', Nat.mod_eq_of_lt hlt]
    split <;> omega

/-- The parts read off a double put together from parts: the same parts, for every exponent
field short of the one that marks infinity and NaN. -/
theorem ofFloat_assemble (neg : Bool) {e f : Nat} (he : e < 2047) (hf : f < 2 ^ 52) :
    ofFloat (assemble neg e f) =
      if e = 0 then .finite neg f (-1074) else .finite neg (f + 2 ^ 52) (e - 1075) := by
  have hbits := toNat_toBits_assemble neg (.inl he) hf
  have hsign : decide (((if neg then 2 ^ 63 else 0) + e * 2 ^ 52 + f) / 2 ^ 63 = 1) = neg := by
    cases neg <;> simp <;> omega
  have hexp : ((if neg then 2 ^ 63 else 0) + e * 2 ^ 52 + f) / 2 ^ 52 % 2048 = e := by
    split <;> omega
  have hfrac : ((if neg then 2 ^ 63 else 0) + e * 2 ^ 52 + f) % 2 ^ 52 = f := by
    split <;> omega
  simp only [ofFloat, Nat.pow_eq, hbits, hsign, hexp, hfrac, if_neg (Nat.ne_of_lt he)]

theorem ofFloat_infinite (neg : Bool) : ofFloat (infinite neg) = .infinity neg := by
  have hbits := toNat_toBits_assemble neg (e := 2047) (.inr ⟨rfl, rfl⟩) (by omega)
  have hsign : decide (((if neg then 2 ^ 63 else 0) + 2047 * 2 ^ 52 + 0) / 2 ^ 63 = 1) = neg := by
    cases neg <;> simp
  have hexp : ((if neg then 2 ^ 63 else 0) + 2047 * 2 ^ 52 + 0) / 2 ^ 52 % 2048 = 2047 := by
    split <;> omega
  have hfrac : ((if neg then 2 ^ 63 else 0) + 2047 * 2 ^ 52 + 0) % 2 ^ 52 = 0 := by
    split <;> omega
  simp only [infinite, ofFloat, Nat.pow_eq, hbits, hsign, hexp, hfrac, if_true]

theorem ofFloat_zero (neg : Bool) : ofFloat (zero neg) = .finite neg 0 (-1074) := by
  rw [zero, ofFloat_assemble neg (by omega) (by omega), if_pos rfl]

/-- A double `m · 2^q` with a full significand reads back as itself, or as infinity past the
largest exponent. -/
theorem ofFloat_toFloat (neg : Bool) {m : Nat} {q : Int} (hlo : 2 ^ 52 ≤ m) (hhi : m < 2 ^ 53)
    (hq : -1074 ≤ q) :
    ofFloat (toFloat neg m q) = if 972 ≤ q then .infinity neg else .finite neg m q := by
  unfold toFloat
  simp only [Nat.pow_eq]
  rw [if_neg (by omega), if_neg (by omega)]
  by_cases hbig : 972 ≤ q
  · rw [if_pos (by omega), if_pos hbig, ofFloat_infinite]
  · rw [if_neg (by omega), if_neg hbig, ofFloat_assemble neg (by omega) (by omega),
      if_neg (by omega)]
    congr 1
    · omega
    · omega

end Binary

/-! ## Reading the parts back -/

theorem not_lt_zero_of_positive {x : Float} {m : Nat} {q : Int}
    (h : Binary.ofFloat x = .finite false m q) : ¬ x < 0 := by
  have hz : (0 : Float).toModel.unpack = .zero .positive := rfl
  have hlt := x.toBits.toNat_lt
  simp only [Binary.ofFloat] at h
  have hb : x.toBits.toNat / Nat.pow 2 63 = 0 ∧ x.toBits.toNat / Nat.pow 2 52 % 2048 ≠ 2047 := by
    split at h
    · split at h <;> simp at h
    · rename_i he
      split at h <;>
      · simp only [Binary.finite.injEq, decide_eq_false_iff_not, Nat.pow_eq] at h he ⊢
        omega
  show ¬ (decide (x.toModel.unpack.lt (0 : Float).toModel.unpack = true) = true)
  rcases unpack_cases hb.2 with ⟨-, -, hs⟩ | ⟨-, m', e', hm', hs⟩
  · rw [hs, hz, if_pos hb.1]
    decide
  · rw [hs, hz, if_pos hb.1]
    exact Bool.false_ne_true

theorem isWhole_of_ofFloat {x : Float} {neg : Bool} {m : Nat} {q : Int}
    (h : Binary.ofFloat x = .finite neg m q) (hw : 0 ≤ q ∨ m % 2 ^ (-q).toNat = 0) :
    Json.isWhole x = true := by
  simp only [Json.isWhole, h, Nat.pow_eq, Bool.or_eq_true, decide_eq_true_eq, ge_iff_le]
  exact hw

/-! ## Rounding a whole number -/

theorem roundHalfEven_one (a : Nat) : roundHalfEven (a, 1) = a := by
  unfold roundHalfEven
  dsimp only
  rw [Nat.mod_one, Nat.div_one]
  simp

theorem roundHalfEven_bounds (a b : Nat) :
    a / b ≤ roundHalfEven (a, b) ∧ roundHalfEven (a, b) ≤ a / b + 1 := by
  unfold roundHalfEven
  dsimp only
  split <;> omega

/-- Just below `2^1024`, rounding to 53 bits reaches `2^53` from half a unit below it on: the tie
goes to the even significand. -/
theorem roundHalfEven_top {N : Nat} (hlo : 2 ^ 1023 ≤ N) (hhi : N < 2 ^ 1024) :
    roundHalfEven (N, 2 ^ 971) = 2 ^ 53 ↔ 2 ^ 1024 - 2 ^ 970 ≤ N := by
  unfold roundHalfEven
  dsimp only
  split <;> omega

theorem floorLog2_nat {N : Nat} (hN : N ≠ 0) : floorLog2 (N, 1) = N.log2 := by
  have hle := Nat.log2_self_le hN
  have hone : Nat.log2 1 = 0 := by decide
  simp [floorLog2, fraction, fractionLe, Nat.pow_eq, hone, hle]

theorem digitCount_eq_length_digits (n : Nat) : digitCount n = (Nat.digits 10 n).length := by
  induction n using Nat.strong_induction_on with
  | _ n ih =>
    rw [digitCount]
    split
    · subst_vars
      simp
    · rw [Nat.digits_def' (by omega) (by omega), List.length_cons, ih _ (by omega)]

theorem pow_le_of_lt_digitCount {k n : Nat} (h : k < digitCount n) : 10 ^ k ≤ n := by
  rw [digitCount_eq_length_digits] at h
  have hn : n ≠ 0 := by
    rintro rfl
    simp at h
  have hle := Nat.base_pow_length_digits_le 10 n (by omega) hn
  have hpow : 10 ^ (k + 1) ≤ 10 ^ (Nat.digits 10 n).length := Nat.pow_le_pow_right (by omega) h
  rw [pow_succ] at hpow
  omega

/-- The significand a whole number `N ≠ 0` is rounded from, `N · 2^(52 - log₂ N)` over
`2^(log₂ N - 52)`, has 53 bits before rounding. -/
theorem significand_bounds {N : Nat} (hN : N ≠ 0) :
    2 ^ 52 ≤ N * 2 ^ (52 - N.log2) / 2 ^ (N.log2 - 52) ∧
      N * 2 ^ (52 - N.log2) / 2 ^ (N.log2 - 52) < 2 ^ 53 := by
  have hlo := Nat.log2_self_le hN
  have hhi : N < 2 ^ (N.log2 + 1) := Nat.lt_log2_self
  by_cases hL : N.log2 ≤ 52
  · have hsplit : 2 ^ 52 = 2 ^ N.log2 * 2 ^ (52 - N.log2) := by
      rw [← pow_add]
      congr 1
      omega
    have hsplit' : 2 ^ 53 = 2 ^ (N.log2 + 1) * 2 ^ (52 - N.log2) := by
      rw [← pow_add]
      congr 1
      omega
    rw [Nat.sub_eq_zero_of_le hL, pow_zero, Nat.div_one]
    constructor
    · rw [hsplit]
      exact Nat.mul_le_mul_right _ hlo
    · rw [hsplit']
      exact Nat.mul_lt_mul_of_pos_right hhi (by positivity)
  · have hsplit : 2 ^ N.log2 = 2 ^ 52 * 2 ^ (N.log2 - 52) := by
      rw [← pow_add]
      congr 1
      omega
    have hsplit' : 2 ^ (N.log2 + 1) = 2 ^ 53 * 2 ^ (N.log2 - 52) := by
      rw [← pow_add]
      congr 1
      omega
    rw [Nat.sub_eq_zero_of_le (by omega : 52 ≤ N.log2), pow_zero, Nat.mul_one]
    constructor
    · rw [Nat.le_div_iff_mul_le (by positivity), ← hsplit]
      exact hlo
    · rw [Nat.div_lt_iff_lt_mul (by positivity), ← hsplit']
      exact hhi

/-- Short of its shortcuts, the double nearest to a whole `N` is `N` rounded to 53 bits and
scaled by `2^(log₂ N - 52)`, a rounding up to `2^53` moving to the next exponent. -/
theorem nearest_nat {N : Nat} (hN : N ≠ 0) (hd : digitCount N ≤ 310) :
    nearest false N 0 =
      if roundHalfEven (N * 2 ^ (52 - N.log2), 2 ^ (N.log2 - 52)) = 2 ^ 53 then
        Binary.toFloat false (2 ^ 52) ((N.log2 : Int) - 52 + 1)
      else Binary.toFloat false (roundHalfEven (N * 2 ^ (52 - N.log2), 2 ^ (N.log2 - 52)))
        ((N.log2 : Int) - 52) := by
  have hfrac : fraction N 0 0 = (N, 1) := by simp [fraction]
  have hq : max ((N.log2 : Int) - 52) (-1074) = (N.log2 : Int) - 52 := max_eq_left (by omega)
  have hdown : ((N.log2 : Int) - 52).toNat = N.log2 - 52 := by omega
  simp only [nearest, hN, if_false, Nat.pow_eq, hfrac, floorLog2_nat hN, hq]
  rw [if_neg (by omega), if_neg (by omega)]
  simp [fraction, hdown]

/-! ## The double nearest to a whole number -/

/-- In the top binade, `N` rounded to 53 bits reaches `2^53` exactly from the threshold on. -/
theorem roundUp_top_binade {N : Nat} (hN : N ≠ 0) (hL : N.log2 = 1023) :
    roundHalfEven (N * 2 ^ (52 - N.log2), 2 ^ (N.log2 - 52)) = 2 ^ 53 ↔
      2 ^ 1024 - 2 ^ 970 ≤ N := by
  have hlo : 2 ^ 1023 ≤ N := by
    have := (Nat.le_log2 (k := 1023) hN).mp hL.ge
    omega
  have hhi : N < 2 ^ 1024 := by
    have := Nat.lt_log2_self (n := N)
    rw [hL] at this
    omega
  rw [hL, show 52 - 1023 = 0 from rfl, show 1023 - 52 = 971 from rfl, pow_zero, Nat.mul_one]
  exact roundHalfEven_top hlo hhi

/-- Short of its shortcuts, the double nearest to a whole `N` is a full significand times
`2^Q`, whole, with its exponent past the largest exactly when `N ≥ 2^1024 - 2^970`. -/
theorem nearest_nat_toFloat {N : Nat} (hN : N ≠ 0) (hd : digitCount N ≤ 310) :
    ∃ M Q, nearest false N 0 = Binary.toFloat false M Q ∧ 2 ^ 52 ≤ M ∧ M < 2 ^ 53 ∧
      -1074 ≤ Q ∧ (0 ≤ Q ∨ M % 2 ^ (-Q).toNat = 0) ∧ (972 ≤ Q ↔ 2 ^ 1024 - 2 ^ 970 ≤ N) := by
  have hlog1023 := Nat.le_log2 (k := 1023) hN
  have hlog1024 := Nat.le_log2 (k := 1024) hN
  obtain ⟨hsig, hsig'⟩ := significand_bounds hN
  obtain ⟨hr, hr'⟩ := roundHalfEven_bounds (N * 2 ^ (52 - N.log2)) (2 ^ (N.log2 - 52))
  rw [nearest_nat hN hd]
  split
  · rename_i hup
    have hL : 52 < N.log2 := by
      by_contra hL
      rw [Nat.sub_eq_zero_of_le (by omega : N.log2 ≤ 52), pow_zero, roundHalfEven_one] at hup
      rw [Nat.sub_eq_zero_of_le (by omega : N.log2 ≤ 52), pow_zero, Nat.div_one] at hsig'
      omega
    refine ⟨_, _, rfl, le_refl _, by omega, by omega, .inl (by omega), ?_⟩
    constructor
    · intro h972
      rcases Nat.lt_or_ge N.log2 1024 with h | h
      · exact (roundUp_top_binade hN (by omega)).mp hup
      · have := hlog1024.mp h
        omega
    · intro hT
      have := hlog1023.mpr (by omega)
      omega
  · rename_i hup
    refine ⟨_, _, rfl, by omega, by omega, by omega, ?_, ?_⟩
    · by_cases hL : 52 ≤ N.log2
      · exact .inl (by omega)
      · right
        have hshift : (-((N.log2 : Int) - 52)).toNat = 52 - N.log2 := by omega
        rw [hshift, Nat.sub_eq_zero_of_le (by omega : N.log2 ≤ 52), pow_zero, roundHalfEven_one]
        exact Nat.mul_mod_left _ _
    · constructor
      · intro h972
        have := hlog1024.mp (by omega)
        omega
      · intro hT
        rcases Nat.lt_or_ge N.log2 1023 with h | h
        · exact absurd (hlog1023.mp (by omega)) (by omega)
        · rcases Nat.lt_or_ge N.log2 1024 with h' | h'
          · exact absurd ((roundUp_top_binade hN (by omega)).mpr hT) hup
          · omega

/-- The double nearest to a whole number `N`: below `2^1024 - 2^970` a whole double with a clear
sign, and from there on infinity. -/
theorem nearest_nat_cases (N : Nat) :
    (N < 2 ^ 1024 - 2 ^ 970 → Json.isWhole (nearest false N 0) = true ∧
        ∃ m q, Binary.ofFloat (nearest false N 0) = .finite false m q) ∧
      (2 ^ 1024 - 2 ^ 970 ≤ N → Binary.ofFloat (nearest false N 0) = .infinity false) := by
  by_cases hN : N = 0
  · subst hN
    have hz : Binary.ofFloat (nearest false 0 0) = .finite false 0 (-1074) := by
      simp [nearest, Binary.ofFloat_zero]
    exact ⟨fun _ => ⟨isWhole_of_ofFloat hz (.inr (Nat.zero_mod _)), _, _, hz⟩, fun h => by omega⟩
  by_cases hd : 310 < digitCount N
  · have hbig := pow_le_of_lt_digitCount hd
    have hinf : Binary.ofFloat (nearest false N 0) = .infinity false := by
      simp only [nearest, hN, if_false]
      rw [if_pos (by omega), Binary.ofFloat_infinite]
    exact ⟨fun h => by omega, fun _ => hinf⟩
  obtain ⟨M, Q, heq, hlo, hhi, hq, hw, hover⟩ := nearest_nat_toFloat hN (by omega)
  have hread := Binary.ofFloat_toFloat false hlo hhi hq
  rw [heq]
  constructor
  · intro hT
    rw [if_neg fun h => absurd (hover.mp h) (by omega)] at hread
    exact ⟨isWhole_of_ofFloat hread hw, _, _, hread⟩
  · intro hT
    rw [hread, if_pos (hover.mpr hT)]

end YangDiagram.Decimal
