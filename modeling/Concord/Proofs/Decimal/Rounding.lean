import Mathlib.Data.Int.Log
import Mathlib.Data.Rat.Cast.Order
import Mathlib.Tactic.FieldSimp
import Mathlib.Tactic.Linarith
import Mathlib.Tactic.Positivity
import Mathlib.Tactic.Ring
import Concord.Decimal.Rounding

/-! Rounding a fraction. The number nearest to a fraction is that of its value, however it is reduced, and a
    fraction that a number stands for exactly is rounded to that number. -/

namespace Concord.Decimal

/-! ### Logarithms -/

section
variable {num den num' den' : Nat}

/-- A test of a power of two against a fraction, in whole numbers. -/
theorem zpow_le_div_iff (hden : 0 < den) (e : Int) :
    (2 : ℚ) ^ e ≤ (num : ℚ) / den ↔ den * 2 ^ e.toNat ≤ num * 2 ^ (-e).toNat := by
  have hden' : (0 : ℚ) < den := by exact_mod_cast hden
  rw [le_div_iff₀ hden']
  rcases Int.le_total 0 e with he | he
  · obtain ⟨n, rfl⟩ := Int.eq_ofNat_of_zero_le he
    have hneg : (-(n : Int)).toNat = 0 := by omega
    rw [zpow_natCast, hneg, Int.toNat_natCast, mul_comm]
    norm_cast
    simp
  · obtain ⟨n, hn⟩ := Int.eq_ofNat_of_zero_le (Int.neg_nonneg.mpr he)
    obtain rfl : e = -(n : Int) := by omega
    have hneg : (-(n : Int)).toNat = 0 := by omega
    have hpow : (0 : ℚ) < 2 ^ n := by positivity
    rw [zpow_neg, zpow_natCast, hneg, neg_neg, Int.toNat_natCast, ← div_eq_inv_mul, div_le_iff₀ hpow]
    norm_cast
    simp

theorem floorLog2_spec (hnum : 0 < num) (hden : 0 < den) :
    (2 : ℚ) ^ floorLog2 num den ≤ (num : ℚ) / den ∧ (num : ℚ) / den < 2 ^ (floorLog2 num den + 1) := by
  have hden' : (0 : ℚ) < den := by exact_mod_cast hden
  have htwo : (2 : ℚ) ≠ 0 := two_ne_zero
  have hlow : (2 : ℚ) ^ ((num.log2 : Int) - den.log2 - 1) < (num : ℚ) / den := by
    have hn : (2 : ℚ) ^ num.log2 ≤ num := by exact_mod_cast Nat.log2_self_le hnum.ne'
    have hd : (den : ℚ) < 2 ^ (den.log2 + 1) := by exact_mod_cast Nat.lt_log2_self
    have heq : (2 : ℚ) ^ ((num.log2 : Int) - den.log2 - 1) = 2 ^ num.log2 / 2 ^ (den.log2 + 1) := by
      rw [sub_sub, zpow_sub₀ htwo, zpow_natCast]
      norm_cast
    rw [heq, div_lt_div_iff₀ (by positivity) hden']
    calc (2 : ℚ) ^ num.log2 * den ≤ num * den := by gcongr
      _ < num * 2 ^ (den.log2 + 1) := by gcongr
  have hhigh : (num : ℚ) / den < 2 ^ ((num.log2 : Int) - den.log2 + 1) := by
    have hn : (num : ℚ) < 2 ^ (num.log2 + 1) := by exact_mod_cast Nat.lt_log2_self
    have hd : (2 : ℚ) ^ den.log2 ≤ den := by exact_mod_cast Nat.log2_self_le hden.ne'
    have heq : (2 : ℚ) ^ ((num.log2 : Int) - den.log2 + 1) = 2 ^ (num.log2 + 1) / 2 ^ den.log2 := by
      rw [show (num.log2 : Int) - den.log2 + 1 = (num.log2 + 1 : Nat) - (den.log2 : Int) by push_cast; ring,
        zpow_sub₀ htwo, zpow_natCast, zpow_natCast]
    rw [heq, div_lt_div_iff₀ hden' (by positivity)]
    calc (num : ℚ) * 2 ^ den.log2 ≤ num * den := by gcongr
      _ < 2 ^ (num.log2 + 1) * den := by gcongr
  unfold floorLog2
  dsimp only
  split
  · rename_i hle
    exact ⟨(zpow_le_div_iff hden _).mpr hle, hhigh⟩
  · rename_i hnot
    refine ⟨hlow.le, ?_⟩
    rw [sub_add_cancel]
    exact not_le.mp fun hle => hnot ((zpow_le_div_iff hden _).mp hle)

theorem floorLog2_eq (hnum : 0 < num) (hden : 0 < den) {e : Int} (hlow : (2 : ℚ) ^ e ≤ (num : ℚ) / den)
    (hhigh : (num : ℚ) / den < 2 ^ (e + 1)) : floorLog2 num den = e := by
  obtain ⟨hlow', hhigh'⟩ := floorLog2_spec hnum hden
  have hone : (1 : ℚ) < 2 := one_lt_two
  have h₁ := (zpow_lt_zpow_iff_right₀ hone).mp (hlow.trans_lt hhigh')
  have h₂ := (zpow_lt_zpow_iff_right₀ hone).mp (hlow'.trans_lt hhigh)
  omega

/-! ### Fractions of one value -/

theorem div_eq_div (hden : 0 < den) (hden' : 0 < den') (h : num * den' = num' * den) :
    (num : ℚ) / den = (num' : ℚ) / den' := by
  have h₁ : (den : ℚ) ≠ 0 := by exact_mod_cast hden.ne'
  have h₂ : (den' : ℚ) ≠ 0 := by exact_mod_cast hden'.ne'
  rw [div_eq_div_iff h₁ h₂]
  exact_mod_cast h

theorem floorLog2_congr (hnum : 0 < num) (hden : 0 < den) (hnum' : 0 < num') (hden' : 0 < den')
    (h : num * den' = num' * den) : floorLog2 num den = floorLog2 num' den' := by
  obtain ⟨hlow, hhigh⟩ := floorLog2_spec hnum' hden'
  rw [← div_eq_div hden hden' h] at hlow hhigh
  exact floorLog2_eq hnum hden hlow hhigh

theorem roundHalfEven_mul {c : Nat} (hc : 0 < c) (num den : Nat) :
    roundHalfEven (c * num) (c * den) = roundHalfEven num den := by
  have hlt : ∀ a b, c * a < c * b ↔ a < b := fun a b => Nat.mul_lt_mul_left hc
  unfold roundHalfEven
  simp only [Nat.mul_div_mul_left _ _ hc, Nat.mul_mod_mul_left, Nat.mul_left_comm 2 c, hlt]

theorem roundHalfEven_congr (hden : 0 < den) (hden' : 0 < den') (h : num * den' = num' * den) :
    roundHalfEven num den = roundHalfEven num' den' := by
  rw [← roundHalfEven_mul hden' num den, ← roundHalfEven_mul hden num' den', Nat.mul_comm den' num, h,
    Nat.mul_comm num' den, Nat.mul_comm den' den]

/-- The bits depend on the value of a fraction only. -/
theorem nearestBits_congr (hden : 0 < den) (hden' : 0 < den') (h : num * den' = num' * den) :
    nearestBits num den = nearestBits num' den' := by
  rcases Nat.eq_zero_or_pos num with rfl | hnum
  · have hzero : num' = 0 := by
      rw [Nat.zero_mul] at h
      exact (Nat.mul_eq_zero.mp h.symm).resolve_right hden.ne'
    simp [nearestBits, hzero]
  · have hnum' : 0 < num' := by
      refine Nat.pos_of_ne_zero fun hzero => ?_
      rw [hzero, Nat.zero_mul] at h
      exact (Nat.mul_pos hnum hden').ne' h
    have hquantum : quantum num den = quantum num' den' := by
      unfold quantum
      rw [floorLog2_congr hnum hden hnum' hden' h]
    unfold nearestBits
    rw [if_neg hnum.ne', if_neg hnum'.ne', hquantum]
    dsimp only
    rw [roundHalfEven_congr (Nat.mul_pos hden (Nat.two_pow_pos _)) (Nat.mul_pos hden' (Nat.two_pow_pos _))]
    rw [Nat.mul_mul_mul_comm, h, Nat.mul_mul_mul_comm]

end

end Concord.Decimal

/-! Numbers as fractions. A finite number other than zero is its significand times a power of two, and the fraction of
    that value is rounded to its bits. -/

namespace Concord

namespace Double

variable {x : Double}

/-- What the significand and the exponent of a finite number other than zero say of its bits. -/
structure Parts (x : Double) (k : Nat) (q : Int) : Prop where
  pos : 0 < k
  lt : k < 2 ^ 53
  ge : -1074 ≤ q
  le : q ≤ 971
  normal : 2 ^ 52 ≤ k ∨ q = -1074
  bits : (q + 1074).toNat * 2 ^ 52 + k = x.magnitudeBits

theorem parts (hfinite : x.isFinite = true) (hpos : x.magnitudeBits ≠ 0) : Parts x x.significand x.exponent := by
  have hlt : x.magnitudeBits < 0x7ff * 2 ^ 52 := of_decide_eq_true hfinite
  have hsig : x.significand = if x.magnitudeBits / 2 ^ 52 = 0 then x.magnitudeBits
      else 2 ^ 52 + x.magnitudeBits % 2 ^ 52 := rfl
  have hexp : x.exponent = if x.magnitudeBits / 2 ^ 52 = 0 then -1074
      else ((x.magnitudeBits / 2 ^ 52 : Nat) : Int) - 1075 := rfl
  rw [hsig, hexp]
  constructor <;> generalize x.magnitudeBits = b at * <;> split <;> omega

/-- A number of positive sign is its magnitude. -/
theorem eq_magnitude (h : x.isNegative = false) : x = ⟨x.magnitudeBits.toUInt64⟩ := by
  have hlt : x.bits.toNat < 2 ^ 63 := by simpa [isNegative] using h
  have hmag : x.magnitudeBits = x.bits.toNat := Nat.mod_eq_of_lt hlt
  rw [hmag]
  simp

end Double

namespace Decimal

variable {x : Double}

theorem magnitudeBits_ofFraction (num den : Nat) : (ofFraction num den).magnitudeBits = nearestBits num den := by
  have hle : nearestBits num den ≤ Double.infinityBits := by
    unfold nearestBits
    dsimp only
    split
    · exact Nat.zero_le _
    · exact Nat.min_le_right _ _
  have hlt : nearestBits num den < 2 ^ 63 := Nat.lt_of_le_of_lt hle (by decide)
  have hword : (nearestBits num den).toUInt64.toNat = nearestBits num den :=
    UInt64.toNat_ofNat_of_lt' (Nat.lt_trans hlt (by decide))
  show (nearestBits num den).toUInt64.toNat % 2 ^ 63 = _
  rw [hword, Nat.mod_eq_of_lt hlt]

theorem roundHalfEven_exact {c : Nat} (hc : 0 < c) (k : Nat) : roundHalfEven (k * c) c = k := by
  unfold roundHalfEven
  simp [Nat.mul_div_cancel k hc, Nat.mul_mod_left, hc]

/-- A fraction of powers is one power. -/
theorem fraction_zpow {b : Nat} (hb : 0 < b) (k : Nat) (q : Int) :
    ((k * b ^ q.toNat : Nat) : ℚ) / (b ^ (-q).toNat : Nat) = k * (b : ℚ) ^ q := by
  have hb' : (b : ℚ) ≠ 0 := by exact_mod_cast hb.ne'
  rcases Int.le_total 0 q with hq | hq
  · obtain ⟨n, rfl⟩ := Int.eq_ofNat_of_zero_le hq
    have hneg : (-(n : Int)).toNat = 0 := by omega
    rw [hneg, Int.toNat_natCast, zpow_natCast]
    push_cast
    simp
  · obtain ⟨n, hn⟩ := Int.eq_ofNat_of_zero_le (Int.neg_nonneg.mpr hq)
    obtain rfl : q = -(n : Int) := by omega
    have hneg : (-(n : Int)).toNat = 0 := by omega
    rw [hneg, neg_neg, Int.toNat_natCast, zpow_neg, zpow_natCast]
    push_cast
    simp [div_eq_mul_inv]

/-- The fraction of a significand and an exponent is their product. -/
theorem fraction_eq (k : Nat) (q : Int) :
    ((k * 2 ^ q.toNat : Nat) : ℚ) / (2 ^ (-q).toNat : Nat) = k * 2 ^ q := fraction_zpow two_pos k q

theorem floorLog2_fraction {k : Nat} (hk : 0 < k) (q : Int) :
    floorLog2 (k * 2 ^ q.toNat) (2 ^ (-q).toNat) = k.log2 + q := by
  have hpow : (0 : ℚ) < 2 ^ q := zpow_pos two_pos q
  have hlow : (2 : ℚ) ^ k.log2 ≤ k := by exact_mod_cast Nat.log2_self_le hk.ne'
  have hhigh : (k : ℚ) < 2 ^ (k.log2 + 1) := by exact_mod_cast Nat.lt_log2_self
  refine floorLog2_eq (Nat.mul_pos hk (Nat.two_pow_pos _)) (Nat.two_pow_pos _) ?_ ?_
  · rw [fraction_eq, zpow_add₀ two_ne_zero, zpow_natCast]
    gcongr
  · rw [fraction_eq, show (k.log2 : Int) + q + 1 = (k.log2 + 1 : Nat) + q by push_cast; ring,
      zpow_add₀ two_ne_zero, zpow_natCast]
    gcongr

theorem quantum_fraction {k : Nat} {q : Int} (h : x.Parts k q) : quantum (k * 2 ^ q.toNat) (2 ^ (-q).toNat) = q := by
  have hlt : k.log2 < 53 := (Nat.log2_lt h.pos.ne').mpr h.lt
  have hnormal : k.log2 = 52 ∨ q = -1074 := by
    refine h.normal.imp_left fun hk => ?_
    have := (Nat.le_log2 h.pos.ne').mpr hk
    omega
  have := h.ge
  unfold quantum
  rw [floorLog2_fraction h.pos]
  omega

/-- A fraction that a number stands for is rounded to its bits. -/
theorem nearestBits_exact {k : Nat} {q : Int} (h : x.Parts k q) (hfinite : x.isFinite = true) :
    nearestBits (k * 2 ^ q.toNat) (2 ^ (-q).toNat) = x.magnitudeBits := by
  have hnum : k * 2 ^ q.toNat ≠ 0 := (Nat.mul_pos h.pos (Nat.two_pow_pos _)).ne'
  have hlt : x.magnitudeBits < Double.infinityBits := of_decide_eq_true hfinite
  have hround : roundHalfEven (k * 2 ^ q.toNat * 2 ^ (-q).toNat) (2 ^ (-q).toNat * 2 ^ q.toNat) = k := by
    rw [Nat.mul_assoc, Nat.mul_comm (2 ^ q.toNat)]
    exact roundHalfEven_exact (by positivity) k
  unfold nearestBits
  rw [if_neg hnum, quantum_fraction h]
  dsimp only
  rw [hround, h.bits, Nat.min_eq_left hlt.le]

end Decimal
end Concord

/-! How far rounding goes. What is rounded to a number other than zero is at least half of it and at most half as much
    again, so digits with the point at another place are another number. -/

namespace Concord.Decimal

variable {num den m k : Nat} {x : Double} {e e' q : Int}

/-! ### Whole numbers -/

theorem roundHalfEven_half (hden : 0 < den) (num : Nat) : 2 * (den * roundHalfEven num den) ≤ 2 * num + den ∧
    2 * num ≤ 2 * (den * roundHalfEven num den) + den := by
  have hdiv := Nat.div_add_mod num den
  have hmod := Nat.mod_lt num hden
  have hsucc : den * (num / den + 1) = den * (num / den) + den := Nat.mul_succ ..
  unfold roundHalfEven
  dsimp only
  split
  · omega
  · split
    · omega
    · rcases Nat.mod_two_eq_zero_or_one (num / den) with heven | hodd
      · rw [heven, Nat.add_zero]
        omega
      · rw [hodd]
        omega

theorem roundHalfEven_le (h : num < den * k) : roundHalfEven num den ≤ k := by
  have hlt : num / den < k := Nat.div_lt_of_lt_mul h
  unfold roundHalfEven
  dsimp only
  split
  · omega
  · split <;> omega

theorem le_roundHalfEven (hden : 0 < den) (h : den * k ≤ num) : k ≤ roundHalfEven num den := by
  have hle : k ≤ num / den := (Nat.le_div_iff_mul_le hden).mpr (Nat.mul_comm den k ▸ h)
  unfold roundHalfEven
  dsimp only
  split
  · omega
  · split <;> omega

/-- A fraction is between the half of what it is rounded to and half as much again, if that is not zero. -/
theorem roundHalfEven_between (num : Nat) (hden : 0 < den) (hround : roundHalfEven num den ≠ 0) :
    (roundHalfEven num den : ℚ) ≤ 2 * (num / den) ∧ 2 * ((num : ℚ) / den) ≤ 3 * roundHalfEven num den := by
  obtain ⟨hlow, hhigh⟩ := roundHalfEven_half hden num
  have hden' : (0 : ℚ) < den := by exact_mod_cast hden
  -- The error is at most half a unit, and the number is at least one.
  have hone := Nat.mul_le_mul_left den (Nat.one_le_iff_ne_zero.mpr hround)
  constructor
  · have hle : roundHalfEven num den * den ≤ 2 * num := by
      rw [Nat.mul_comm]
      omega
    rw [mul_div_assoc', le_div_iff₀ hden']
    exact_mod_cast hle
  · have hle : 2 * num ≤ 3 * roundHalfEven num den * den := by
      rw [Nat.mul_assoc, Nat.mul_comm _ den]
      omega
    rw [mul_div_assoc', div_le_iff₀ hden']
    exact_mod_cast hle

/-! ### Fractions -/

/-- A fraction in units of the quantum. -/
theorem div_quantum (num den : Nat) (q : Int) :
    ((num * 2 ^ (-q).toNat : Nat) : ℚ) / (den * 2 ^ q.toNat : Nat) = num / den * 2 ^ (-q) := by
  have h := fraction_eq num (-q)
  rw [neg_neg] at h
  rw [div_mul_eq_mul_div, ← h, div_div]
  push_cast
  rw [mul_comm (den : ℚ)]

/-- The significand that a fraction is rounded to has 53 bits, or is the power of two that they do not hold. -/
theorem round_quantum (hnum : 0 < num) (hden : 0 < den) :
    roundHalfEven (num * 2 ^ (-quantum num den).toNat) (den * 2 ^ (quantum num den).toNat) ≤ 2 ^ 53 ∧
      (2 ^ 52 ≤ roundHalfEven (num * 2 ^ (-quantum num den).toNat) (den * 2 ^ (quantum num den).toNat) ∨
        quantum num den = -1074) := by
  obtain ⟨hlow, hhigh⟩ := floorLog2_spec hnum hden
  have hq : quantum num den = max (floorLog2 num den - 52) (-1074) := rfl
  have hscaled := div_quantum num den (quantum num den)
  generalize quantum num den = q at *
  have hpos : 0 < den * 2 ^ q.toNat := Nat.mul_pos hden (Nat.two_pow_pos _)
  have hposq : (0 : ℚ) < (den * 2 ^ q.toNat : Nat) := by exact_mod_cast hpos
  have hpow : (0 : ℚ) < 2 ^ (-q) := zpow_pos two_pos _
  have hshift : ∀ f : Int, (2 : ℚ) ^ f * 2 ^ (-q) = 2 ^ (f - q) := fun f => by
    rw [← zpow_add₀ two_ne_zero, sub_eq_add_neg]
  constructor
  · refine roundHalfEven_le ?_
    have hlt : ((num * 2 ^ (-q).toNat : Nat) : ℚ) / (den * 2 ^ q.toNat : Nat) < 2 ^ 53 := by
      rw [hscaled]
      calc (num : ℚ) / den * 2 ^ (-q) < 2 ^ (floorLog2 num den + 1) * 2 ^ (-q) := by gcongr
        _ = 2 ^ (floorLog2 num den + 1 - q) := hshift _
        _ ≤ 2 ^ (53 : Int) := zpow_le_zpow_right₀ one_le_two (by omega)
        _ = 2 ^ 53 := by norm_cast
    rw [div_lt_iff₀ hposq, mul_comm ((2 : ℚ) ^ 53)] at hlt
    exact_mod_cast hlt
  · rcases eq_or_ne q (-1074) with h | h
    · exact .inr h
    · refine .inl (le_roundHalfEven hpos ?_)
      have hle : (2 : ℚ) ^ 52 ≤ ((num * 2 ^ (-q).toNat : Nat) : ℚ) / (den * 2 ^ q.toNat : Nat) := by
        rw [hscaled]
        calc (2 : ℚ) ^ 52 = 2 ^ (floorLog2 num den - q) := by
              rw [show floorLog2 num den - q = (52 : Nat) by omega, zpow_natCast]
          _ = 2 ^ floorLog2 num den * 2 ^ (-q) := (hshift _).symm
          _ ≤ num / den * 2 ^ (-q) := mul_le_mul_of_nonneg_right hlow hpow.le
      rw [le_div_iff₀ hposq, mul_comm ((2 : ℚ) ^ 52)] at hle
      exact_mod_cast hle

/-- Bits stand for one number, however they come about. -/
theorem value_of_bits (h : x.Parts x.significand x.exponent) (hk : k ≤ 2 ^ 53) (hq : -1074 ≤ q)
    (hnormal : 2 ^ 52 ≤ k ∨ q = -1074) (hbits : (q + 1074).toNat * 2 ^ 52 + k = x.magnitudeBits) :
    (k : ℚ) * 2 ^ q = x.significand * 2 ^ x.exponent := by
  obtain ⟨-, hlt, hge, -, hnormal', hbits'⟩ := h
  generalize x.significand = k' at *
  generalize x.exponent = q' at *
  rcases Nat.lt_or_eq_of_le hk with hk | rfl
  · obtain ⟨rfl, rfl⟩ : k = k' ∧ q = q' := by omega
    rfl
  · obtain ⟨rfl, rfl⟩ : k' = 2 ^ 52 ∧ q' = q + 1 := by omega
    rw [zpow_add₀ two_ne_zero]
    push_cast
    ring

/-- What is rounded to a finite number other than zero is between its half and its half as much again. -/
theorem nearestBits_half (hden : 0 < den) (hfinite : x.isFinite = true) (hpos : x.magnitudeBits ≠ 0)
    (h : nearestBits num den = x.magnitudeBits) : (x.significand : ℚ) * 2 ^ x.exponent ≤ 2 * (num / den) ∧
      2 * ((num : ℚ) / den) ≤ 3 * (x.significand * 2 ^ x.exponent) := by
  have hlt : x.magnitudeBits < Double.infinityBits := of_decide_eq_true hfinite
  have hnum : num ≠ 0 := by
    rintro rfl
    exact hpos h.symm
  unfold nearestBits at h
  rw [if_neg hnum] at h
  dsimp only at h
  obtain ⟨hle, hnormal⟩ := round_quantum (Nat.pos_of_ne_zero hnum) hden
  have hge : -1074 ≤ quantum num den := le_max_right _ _
  have hscaled := div_quantum num den (quantum num den)
  have hunit : 0 < den * 2 ^ (quantum num den).toNat := Nat.mul_pos hden (Nat.two_pow_pos _)
  have hbetween := roundHalfEven_between (num * 2 ^ (-quantum num den).toNat) hunit
  generalize quantum num den = q at *
  generalize roundHalfEven (num * 2 ^ (-q).toNat) (den * 2 ^ q.toNat) = k at *
  have hbits : (q + 1074).toNat * 2 ^ 52 + k = x.magnitudeBits := by omega
  obtain ⟨hlow, hhigh⟩ := hbetween (by omega)
  have hpow : (0 : ℚ) < 2 ^ q := zpow_pos two_pos q
  have hvalue : (num : ℚ) / den = ((num * 2 ^ (-q).toNat : Nat) : ℚ) / (den * 2 ^ q.toNat : Nat) * 2 ^ q := by
    rw [hscaled, mul_assoc, ← zpow_add₀ two_ne_zero, neg_add_cancel, zpow_zero, mul_one]
  rw [← value_of_bits (x.parts hfinite hpos) hle hge hnormal hbits, hvalue, ← mul_assoc, ← mul_assoc]
  exact ⟨mul_le_mul_of_nonneg_right hlow hpow.le, mul_le_mul_of_nonneg_right hhigh hpow.le⟩

/-! ### Decimals -/

/-- What is read as a finite number other than zero is between its half and its half as much again. -/
theorem ofDecimal_half (hx : ofDecimal m e = x) (hfinite : x.isFinite = true) (hpos : x.magnitudeBits ≠ 0) :
    0 < (x.significand : ℚ) * 2 ^ x.exponent ∧ (x.significand : ℚ) * 2 ^ x.exponent ≤ 2 * (m * 10 ^ e) ∧
      2 * ((m : ℚ) * 10 ^ e) ≤ 3 * (x.significand * 2 ^ x.exponent) := by
  have hvalue : (0 : ℚ) < x.significand * 2 ^ x.exponent :=
    mul_pos (by exact_mod_cast (x.parts hfinite hpos).pos) (zpow_pos two_pos _)
  unfold ofDecimal at hx
  dsimp only at hx
  split at hx
  · exact absurd (hx ▸ rfl) hpos
  · split at hx
    · rw [← hx] at hfinite
      cases hfinite
    · split at hx
      · exact absurd (hx ▸ rfl) hpos
      · have hfraction : ((m * 10 ^ e.toNat : Nat) : ℚ) / (10 ^ (-e).toNat : Nat) = m * 10 ^ e :=
          fraction_zpow (by decide) m e
        rw [← hfraction]
        refine ⟨hvalue, nearestBits_half (by positivity) hfinite hpos ?_⟩
        rw [← hx, magnitudeBits_ofFraction]

/-- Moving the point of a decimal changes the number that it is read as, unless that is zero or infinite. -/
theorem ofDecimal_ne_of_lt (h : e < e') (hfinite : (ofDecimal m e).isFinite = true)
    (hpos : (ofDecimal m e).magnitudeBits ≠ 0) : ofDecimal m e ≠ ofDecimal m e' := by
  intro heq
  obtain ⟨hvalue, hlow, -⟩ := ofDecimal_half rfl hfinite hpos
  obtain ⟨-, -, hhigh⟩ := ofDecimal_half heq.symm hfinite hpos
  have hten : (10 : ℚ) * 10 ^ e ≤ 10 ^ e' := by
    rw [← zpow_one_add₀ (by norm_num)]
    exact zpow_le_zpow_right₀ (by norm_num) (by omega)
  have hmul : (m : ℚ) * (10 * 10 ^ e) ≤ m * 10 ^ e' := mul_le_mul_of_nonneg_left hten (Nat.cast_nonneg m)
  linarith

end Concord.Decimal
