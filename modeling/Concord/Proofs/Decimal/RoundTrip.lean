import Concord.Decimal.Shortest
import Concord.Proofs.Decimal.Rounding

/-! Reading what is written. The shortest decimal of a number is read as that number, and so is its text with all
    places. -/

namespace Concord

/-! ### Signs -/

namespace Double

variable {x : Double}

theorem toNat_negate (x : Double) : (-x).bits.toNat = x.bits.toNat ^^^ 2 ^ 63 := UInt64.toNat_xor ..

theorem magnitudeBits_neg (x : Double) : (-x).magnitudeBits = x.magnitudeBits := by
  unfold magnitudeBits
  rw [toNat_negate, Nat.xor_mod_two_pow, Nat.mod_self, Nat.xor_zero]

theorem isNegative_iff : x.isNegative = true ↔ x.bits.toNat / 2 ^ 63 = 1 := by
  have := x.bits.toNat_lt
  unfold isNegative
  rw [decide_eq_true_iff]
  omega

theorem isNegative_neg (x : Double) : (-x).isNegative = !x.isNegative := by
  have hlt := x.bits.toNat_lt
  have hdiv : x.bits.toNat / 2 ^ 63 = 0 ∨ x.bits.toNat / 2 ^ 63 = 1 := by omega
  rw [Bool.eq_iff_iff, isNegative_iff, Bool.not_eq_true', ← Bool.not_eq_true, isNegative_iff, toNat_negate,
    Nat.xor_div_two_pow]
  rcases hdiv with h | h <;> rw [h] <;> decide

theorem neg_neg (x : Double) : -(-x) = x := by
  have hbits : (-(-x)).bits = x.bits := by
    show x.bits ^^^ 0x8000000000000000 ^^^ 0x8000000000000000 = x.bits
    rw [UInt64.xor_assoc, UInt64.xor_self, UInt64.xor_zero]
  cases x
  exact congrArg Double.mk hbits

theorem abs_eq (x : Double) : x.abs = ⟨x.magnitudeBits.toUInt64⟩ := by
  have hbits : x.abs.bits.toNat = x.magnitudeBits := by
    show (x.bits &&& 0x7fffffffffffffff).toNat = _
    rw [UInt64.toNat_and]
    exact Nat.and_two_pow_sub_one_eq_mod x.bits.toNat 63
  unfold abs at hbits ⊢
  rw [← hbits]
  simp

theorem abs_of_not_isNegative (h : x.isNegative = false) : x.abs = x := by rw [abs_eq, ← eq_magnitude h]

theorem abs_neg (x : Double) : (-x).abs = x.abs := by rw [abs_eq, abs_eq, magnitudeBits_neg]

end Double

namespace Decimal

variable {x : Double} {m : Nat} {e : Int}

/-! ### Decimals of one value -/

theorem length_digits_mul_pow (hm : m ≠ 0) : ∀ n : Nat, (digits (m * 10 ^ n)).length = (digits m).length + n
  | 0 => by simp
  | n + 1 => by
    have hpos : 0 < m * 10 ^ n := Nat.mul_pos (Nat.pos_of_ne_zero hm) (by positivity)
    have happend := Nat.toDigits_append_toDigits (b := 10) (by decide) hpos (d := 0) (by decide)
    have hlen := congrArg List.length happend
    rw [List.length_append, Nat.toDigits_zero, Nat.add_zero, Nat.mul_comm 10, Nat.mul_assoc, ← Nat.pow_succ] at hlen
    have ih := length_digits_mul_pow hm n
    unfold digits at *
    rw [← hlen, ih]
    rfl

/-- Zeros at the end of a decimal are places that its exponent counts. -/
theorem ofDecimal_mul_pow (hm : m ≠ 0) (n : Nat) (e : Int) : ofDecimal (m * 10 ^ n) e = ofDecimal m (e + n) := by
  have hpos : m * 10 ^ n ≠ 0 := Nat.mul_ne_zero hm (by positivity)
  have htop : ((digits (m * 10 ^ n)).length : Int) + e = (digits m).length + (e + n) := by
    rw [length_digits_mul_pow hm]
    push_cast
    ring
  have hvalue : m * 10 ^ n * 10 ^ e.toNat * 10 ^ (-(e + n)).toNat = m * 10 ^ (e + n).toNat * 10 ^ (-e).toNat := by
    have hsum : n + e.toNat + (-(e + n)).toNat = (e + n).toNat + (-e).toNat := by omega
    rw [Nat.mul_assoc m, Nat.mul_assoc m, ← Nat.pow_add, ← Nat.pow_add, hsum, Nat.pow_add, Nat.mul_assoc]
  unfold ofDecimal ofFraction
  dsimp only
  rw [if_neg hpos, if_neg hm, htop, nearestBits_congr (by positivity) (by positivity) hvalue]

theorem dropZeros_reads : ∀ (fuel : Nat) {m : Nat} {e : Int}, m ≠ 0 →
    (dropZeros fuel (m, e)).1 ≠ 0 ∧ ofDecimal (dropZeros fuel (m, e)).1 (dropZeros fuel (m, e)).2 = ofDecimal m e
  | 0, m, e, hm => ⟨hm, rfl⟩
  | fuel + 1, m, e, hm => by
    rw [dropZeros]
    split
    · rename_i hzero
      have hdiv : m / 10 ≠ 0 := by omega
      obtain ⟨hne, hreads⟩ := dropZeros_reads fuel (e := e + 1) hdiv
      refine ⟨hne, hreads.trans ?_⟩
      have hmul : m = m / 10 * 10 ^ 1 := by omega
      conv_rhs => rw [hmul]
      exact (ofDecimal_mul_pow hdiv 1 e).symm
    · exact ⟨hm, rfl⟩

/-! ### The shortest decimal -/

theorem atScale_reads {ties : Ties} {num den : Nat} {p : Nat × Int} (h : atScale ties x num den e = some p) :
    ofDecimal p.1 p.2 = x := by
  unfold atScale at h
  dsimp only at h
  split at h <;> simp only [decide_eq_true_eq, decide_eq_false_iff_not] at *
  · cases h
  · cases h
    assumption
  · cases h
    assumption
  · split at h
    · cases h
      assumption
    · split at h
      · cases h
        assumption
      · split at h
        · cases h
          dsimp only
          split <;> assumption
        · cases h
          assumption

/-- The exact decimal is of the value of a significand and an exponent, whatever the exponent. -/
theorem exactDecimal_value (k : Nat) (q : Int) :
    (exactDecimal k q).1 * 10 ^ (exactDecimal k q).2.toNat * 2 ^ (-q).toNat =
      k * 2 ^ q.toNat * 10 ^ (-(exactDecimal k q).2).toNat := by
  unfold exactDecimal
  split
  · rename_i hq
    have hneg : (-q).toNat = 0 := by omega
    simp [hneg]
  · rename_i hq
    have hpos : q.toNat = 0 := by omega
    have hten : 10 ^ (-q).toNat = 5 ^ (-q).toNat * 2 ^ (-q).toNat := Nat.mul_pow 5 2 _
    dsimp only
    rw [hpos, hten]
    ring

theorem length_digits_le_iff {n : Nat} (hn : 0 < n) : (digits m).length ≤ n ↔ m < 10 ^ n :=
  Nat.length_toDigits_le_iff (by decide) hn

theorem length_digits_mul_two_pow {k n : Nat} (hk : k < 2 ^ 53) (hn : n ≤ 971) : (digits (k * 2 ^ n)).length ≤ 310 := by
  refine (length_digits_le_iff (by decide)).mpr ?_
  calc k * 2 ^ n ≤ 2 ^ 53 * 2 ^ 971 := Nat.mul_le_mul hk.le (Nat.pow_le_pow_right (by decide) hn)
    _ < 10 ^ 310 := by decide +kernel

theorem length_digits_mul_five_pow {k : Nat} (hk : k < 2 ^ 53) (n : Nat) : (digits (k * 5 ^ n)).length ≤ 16 + n := by
  refine (length_digits_le_iff (by omega)).mpr ?_
  calc k * 5 ^ n < 10 ^ 16 * 10 ^ n := Nat.mul_lt_mul_of_lt_of_le (hk.trans (by decide))
        (Nat.pow_le_pow_left (by decide) n) (by positivity)
    _ = 10 ^ (16 + n) := (Nat.pow_add 10 16 n).symm

theorem le_length_digits_mul_five_pow {k n : Nat} (hk : 0 < k) (hn : n ≤ 1074) :
    n ≤ (digits (k * 5 ^ n)).length + 330 := by
  -- With fewer digits it would be below `10 ^ (n - 331)`, but `2 ^ (n - 331)` is less than `5 ^ 331`.
  by_contra hnot
  have hlen : (digits (k * 5 ^ n)).length ≤ n - 331 := by omega
  have hpos : 0 < (digits (k * 5 ^ n)).length := Nat.length_toDigits_pos
  rw [length_digits_le_iff (by omega)] at hlen
  have hfive : 5 ^ n ≤ k * 5 ^ n := Nat.le_mul_of_pos_left _ hk
  have hsplit : 5 ^ n = 5 ^ (n - 331) * 5 ^ 331 := by
    rw [← Nat.pow_add 5 (n - 331) 331]
    congr 1
    omega
  have hten : 10 ^ (n - 331) ≤ 5 ^ (n - 331) * 5 ^ 331 := by
    rw [show (10 : Nat) = 5 * 2 from rfl, Nat.mul_pow]
    refine Nat.mul_le_mul_left _ ?_
    calc 2 ^ (n - 331) ≤ 2 ^ 743 := Nat.pow_le_pow_right (by decide) (by omega)
      _ ≤ 5 ^ 331 := by decide +kernel
  exact Nat.not_lt.mpr (hten.trans (hsplit.symm.le.trans hfive)) hlen

/-- The exact decimal of a number is within the exponents that are read without a table. -/
theorem exactDecimal_top {k : Nat} {q : Int} (h : x.Parts k q) :
    (exactDecimal k q).1 ≠ 0 ∧ ((digits (exactDecimal k q).1).length : Int) + (exactDecimal k q).2 ≤ 310 ∧
      -330 ≤ ((digits (exactDecimal k q).1).length : Int) + (exactDecimal k q).2 := by
  have hle := h.le
  have hge := h.ge
  unfold exactDecimal
  split
  · rename_i hq
    have hlen : (digits (k * 2 ^ q.toNat)).length ≤ 310 := length_digits_mul_two_pow h.lt (by omega)
    refine ⟨(Nat.mul_pos h.pos (Nat.two_pow_pos _)).ne', ?_, ?_⟩ <;> dsimp only <;> omega
  · rename_i hq
    obtain ⟨n, hn⟩ : ∃ n : Nat, q = -(n : Int) := ⟨(-q).toNat, by omega⟩
    subst hn
    have hneg : (- -(n : Int)).toNat = n := by omega
    rw [hneg]
    dsimp only
    have hupper := length_digits_mul_five_pow h.lt n
    have hlower := le_length_digits_mul_five_pow h.pos (n := n) (by omega)
    refine ⟨(Nat.mul_pos h.pos (by positivity)).ne', ?_, ?_⟩ <;> omega

theorem exactDecimal_reads (hfinite : x.isFinite = true) (hpos : x.magnitudeBits ≠ 0) (hsign : x.isNegative = false) :
    ofDecimal (exactDecimal x.significand x.exponent).1 (exactDecimal x.significand x.exponent).2 = x := by
  have hparts := x.parts hfinite hpos
  obtain ⟨hne, htop, hlow⟩ := exactDecimal_top hparts
  unfold ofDecimal ofFraction
  dsimp only
  rw [if_neg hne, if_neg (by omega), if_neg (by omega),
    nearestBits_congr (by positivity) (by positivity) (exactDecimal_value x.significand x.exponent),
    nearestBits_exact hparts hfinite, ← Double.eq_magnitude hsign]

theorem ofDecimal_zero (e : Int) : ofDecimal 0 e = default := rfl

/-- The shortest decimal of a number is read as the number. -/
theorem shortest_reads (ties : Ties) (hfinite : x.isFinite = true) (hpos : x.magnitudeBits ≠ 0)
    (hsign : x.isNegative = false) :
    (shortest ties x).1 ≠ 0 ∧ ofDecimal (shortest ties x).1 (shortest ties x).2 = x := by
  unfold shortest
  dsimp only
  split
  · rename_i p hp
    obtain ⟨n, -, hn⟩ := List.exists_of_findSome?_eq_some hp
    have hreads := atScale_reads hn
    have hne : p.1 ≠ 0 := by
      intro hzero
      rw [hzero, ofDecimal_zero] at hreads
      exact hpos (hreads ▸ rfl)
    obtain ⟨hne', hreads'⟩ := dropZeros_reads 20 (e := p.2) hne
    exact ⟨hne', hreads'.trans hreads⟩
  · exact ⟨(exactDecimal_top (x.parts hfinite hpos)).1, exactDecimal_reads hfinite hpos hsign⟩

end Decimal
end Concord
