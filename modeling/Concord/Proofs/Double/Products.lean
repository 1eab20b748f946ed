import Concord.Proofs.Decimal.RoundTrip
import Concord.Scalar

/-! Products and quotients of numbers. One is neutral, and numbers that are not negative have no negative
    products, quotients and roots, though these may be NaNs of either sign. -/

namespace Concord.Double

open Float.Model
open Float.Model.UnpackedFloat hiding unpack pack

variable {x y : Double} {b : BitVec 64} {f g : UnpackedFloat}

/-! ### Fields -/

theorem toNat_packComponents (s : Sign) (e : BitVec 11) (m : BitVec 52) :
    (packComponents Format.binary64 s e m).toNat = s.toBitVec.toNat * 2 ^ 63 + e.toNat * 2 ^ 52 + m.toNat := by
  unfold packComponents
  rw [BitVec.toNat_append, BitVec.toNat_append, ← Nat.shiftLeft_add_eq_or_of_lt m.isLt,
    ← Nat.shiftLeft_add_eq_or_of_lt e.isLt, Nat.shiftLeft_eq, Nat.shiftLeft_eq]
  omega

theorem toNat_unpackSign : (@unpackSign Format.binary64 b).toNat = b.toNat / 2 ^ 63 := by
  change (b.toNat >>> 63) % 2 = _
  rw [Nat.shiftRight_eq_div_pow, Nat.mod_eq_of_lt (by omega)]

theorem toNat_unpackExponent : (@unpackExponent Format.binary64 b).toNat = b.toNat / 2 ^ 52 % 2 ^ 11 := by
  change (b.toNat >>> 52) % 2 ^ 11 = _
  rw [Nat.shiftRight_eq_div_pow]

theorem toNat_unpackMantissa : (@unpackMantissa Format.binary64 b).toNat = b.toNat % 2 ^ 52 := rfl

theorem packComponents_unpacked :
    packComponents Format.binary64 (Sign.ofBitVec (@unpackSign Format.binary64 b)) (@unpackExponent Format.binary64 b)
      (@unpackMantissa Format.binary64 b) = b := by
  have hsign : ∀ s : BitVec 1, (Sign.ofBitVec s).toBitVec = s := by decide
  apply BitVec.eq_of_toNat_eq
  rw [toNat_packComponents, hsign, toNat_unpackSign, toNat_unpackExponent, toNat_unpackMantissa]
  omega

theorem toNat_one_append (m : BitVec 52) : (1#1 ++ m).toNat = 2 ^ 52 + m.toNat := by
  rw [BitVec.toNat_append, ← Nat.shiftLeft_add_eq_or_of_lt m.isLt]
  rfl

/-! ### Packed and unpacked numbers -/

/-- What the fields of a number say it is. -/
inductive Fields (b : BitVec 64) : UnpackedFloat → Prop
  | infinity : b.toNat / 2 ^ 52 % 2 ^ 11 = 2047 → b.toNat % 2 ^ 52 = 0 →
      Fields b (.infinity (.ofBitVec (@unpackSign Format.binary64 b)))
  | notANumber : b.toNat / 2 ^ 52 % 2 ^ 11 = 2047 → b.toNat % 2 ^ 52 ≠ 0 → Fields b .notANumber
  | zero : b.toNat / 2 ^ 52 % 2 ^ 11 = 0 → b.toNat % 2 ^ 52 = 0 →
      Fields b (.zero (.ofBitVec (@unpackSign Format.binary64 b)))
  | subnormal (hpos : 0 < b.toNat % 2 ^ 52) : b.toNat / 2 ^ 52 % 2 ^ 11 = 0 →
      Fields b (.finite (.ofBitVec (@unpackSign Format.binary64 b)) (b.toNat % 2 ^ 52) (-1074) hpos)
  | normal (hpos : 0 < 2 ^ 52 + b.toNat % 2 ^ 52) : b.toNat / 2 ^ 52 % 2 ^ 11 ≠ 0 → b.toNat / 2 ^ 52 % 2 ^ 11 ≠ 2047 →
      Fields b (.finite (.ofBitVec (@unpackSign Format.binary64 b)) (2 ^ 52 + b.toNat % 2 ^ 52)
        ((b.toNat / 2 ^ 52 % 2 ^ 11 : Nat) - 1075) hpos)

theorem Fields.congr {s : Sign} {m m' : Nat} {e e' : Int} {hm : 0 < m} {hm' : 0 < m'}
    (h : Fields b (.finite s m' e' hm')) (hmantissa : m = m') (hexponent : e = e') : Fields b (.finite s m e hm) := by
  subst hmantissa hexponent
  exact h

theorem fields_unpack (b : BitVec 64) : Fields b (UnpackedFloat.unpack Format.binary64 b) := by
  have hexponent := @toNat_unpackExponent b
  have hmantissa := @toNat_unpackMantissa b
  have happend := toNat_one_append (@unpackMantissa Format.binary64 b)
  have hbias : Format.binary64.exponentBias = 1023 := rfl
  unfold UnpackedFloat.unpack
  dsimp only
  by_cases hone : @unpackExponent Format.binary64 b = -1#11
  · rw [if_pos hone]
    rw [hone] at hexponent
    by_cases hzero : @unpackMantissa Format.binary64 b = 0#52
    · rw [if_pos hzero]
      rw [hzero] at hmantissa
      exact .infinity hexponent.symm hmantissa.symm
    · rw [if_neg hzero]
      exact .notANumber hexponent.symm fun h => hzero (BitVec.eq_of_toNat_eq (hmantissa.trans h))
  · rw [if_neg hone]
    have hmax : b.toNat / 2 ^ 52 % 2 ^ 11 ≠ 2047 := fun h => hone (BitVec.eq_of_toNat_eq (hexponent.trans h))
    by_cases hexp : @unpackExponent Format.binary64 b = 0#11
    · rw [if_pos hexp]
      rw [hexp] at hexponent
      by_cases hzero : @unpackMantissa Format.binary64 b = 0#52
      · rw [dif_pos hzero]
        rw [hzero] at hmantissa
        exact .zero hexponent.symm hmantissa.symm
      · rw [dif_neg hzero]
        have hpos : b.toNat % 2 ^ 52 ≠ 0 := fun h => hzero (BitVec.eq_of_toNat_eq (hmantissa.trans h))
        refine (Fields.subnormal (Nat.pos_of_ne_zero hpos) hexponent.symm).congr hmantissa ?_
        rw [hexp, hbias]
        rfl
    · rw [if_neg hexp]
      have hmin : b.toNat / 2 ^ 52 % 2 ^ 11 ≠ 0 := fun h => hexp (BitVec.eq_of_toNat_eq (hexponent.trans h))
      refine (Fields.normal (by omega) hmin hmax).congr (happend.trans (by rw [hmantissa])) ?_
      rw [hexponent, hbias]
      rfl

theorem Fields.isNaN_iff (h : Fields b f) :
    f.isNaN = true ↔ b.toNat / 2 ^ 52 % 2 ^ 11 = 2047 ∧ b.toNat % 2 ^ 52 ≠ 0 := by
  cases h with
  | notANumber hmax hm => exact ⟨fun _ => ⟨hmax, hm⟩, fun _ => rfl⟩
  | infinity _ hm => exact ⟨fun h => (by cases h), fun h => absurd hm h.2⟩
  | zero _ hm => exact ⟨fun h => (by cases h), fun h => absurd hm h.2⟩
  | subnormal _ hmin => exact ⟨fun h => (by cases h), fun h => by omega⟩
  | normal _ _ hmax => exact ⟨fun h => (by cases h), fun h => absurd h.1 hmax⟩

theorem log2_normal {m : Nat} (hm : m < 2 ^ 52) : (2 ^ 52 + m).log2 = 52 :=
  (Nat.log2_eq_iff (by omega)).mpr ⟨by omega, by omega⟩

/-- A number that is no NaN is packed as it was. -/
theorem Fields.pack (h : Fields b f) (hnan : f.isNaN = false) : UnpackedFloat.pack Format.binary64 f = b := by
  have hlt : b.toNat % 2 ^ 52 < 2 ^ 52 := Nat.mod_lt _ (by decide)
  have hexplt : b.toNat / 2 ^ 52 % 2 ^ 11 < 2 ^ 11 := Nat.mod_lt _ (by decide)
  have hb : ∀ (e : BitVec 11) (m : BitVec 52), b.toNat / 2 ^ 52 % 2 ^ 11 = e.toNat → b.toNat % 2 ^ 52 = m.toNat →
      packComponents Format.binary64 (.ofBitVec (@unpackSign Format.binary64 b)) e m = b := by
    intro e m he hm
    rw [← toNat_unpackExponent] at he
    rw [← toNat_unpackMantissa] at hm
    rw [← BitVec.eq_of_toNat_eq he, ← BitVec.eq_of_toNat_eq hm, packComponents_unpacked]
  have hbias : Format.binary64.exponentBias = 1023 := rfl
  cases h with
  | infinity he hm => exact hb _ _ he hm
  | notANumber => cases hnan
  | zero he hm => exact hb _ _ he hm
  | subnormal hpos he =>
    have hlog : (b.toNat % 2 ^ 52).log2 < 52 := (Nat.log2_lt (by omega)).mpr hlt
    unfold UnpackedFloat.pack
    dsimp only
    rw [if_neg, if_neg]
    · exact hb _ _ he (BitVec.toNat_ofNat ..▸ (Nat.mod_eq_of_lt hlt).symm)
    · change ¬ _ + 1 = 53
      omega
    · rw [hbias]
      decide
  | normal hpos hmin hmax =>
    have hbiased : (((b.toNat / 2 ^ 52 % 2 ^ 11 : Nat) : Int) - 1075 + (1023 : Nat) + (52 : Nat)).toNat =
        b.toNat / 2 ^ 52 % 2 ^ 11 := by omega
    unfold UnpackedFloat.pack
    dsimp only
    have hfull : 52 + 1 = Format.binary64.mantissaBits := rfl
    rw [hbias, hbiased, log2_normal hlt, if_neg, if_pos hfull]
    · refine hb _ _ ?_ ?_
      · rw [BitVec.toNat_ofNat, Nat.mod_eq_of_lt hexplt]
      · rw [BitVec.toNat_ofNat, Nat.add_mod_left, Nat.mod_eq_of_lt hlt]
    · omega

/-! ### Operations -/

/-- A number as arithmetic takes it. -/
def unpacked (x : Double) : UnpackedFloat := UnpackedFloat.unpack Format.binary64 x.bits.toBitVec

/-- A number as arithmetic gives it. -/
def packed (f : UnpackedFloat) : Float := .ofModel (.pack f)

theorem fields (x : Double) : Fields x.bits.toBitVec x.unpacked := fields_unpack _

theorem isNaN_unpacked (x : Double) : x.unpacked.isNaN = x.isNaN := by
  rw [Bool.eq_iff_iff, x.fields.isNaN_iff, isNaN, decide_eq_true_iff, magnitudeBits, infinityBits]
  change x.bits.toNat / 2 ^ 52 % 2 ^ 11 = 2047 ∧ x.bits.toNat % 2 ^ 52 ≠ 0 ↔ _
  omega

theorem isNaN_packed_unpacked (x : Double) : (packed x.unpacked).isNaN = x.isNaN := by
  change (UnpackedFloat.unpack Format.binary64 (UnpackedFloat.pack Format.binary64 x.unpacked)).isNaN = _
  cases h : x.isNaN with
  | true =>
    have hnan := isNaN_unpacked x
    rw [h] at hnan
    cases hx : x.unpacked with
    | notANumber => rfl
    | _ => rw [hx] at hnan; cases hnan
  | false =>
    have hnan := isNaN_unpacked x
    rw [h] at hnan
    rw [x.fields.pack hnan]
    exact hnan

theorem toBits_packed_unpacked (h : x.isNaN = false) : (packed x.unpacked).toBits = x.bits := by
  rw [← isNaN_unpacked] at h
  exact UInt64.toBitVec_inj.mp (x.fields.pack h)

theorem unpack_toFloat (x : Double) : x.toFloat.toModel.unpack = x.unpacked := by
  change UnpackedFloat.unpack Format.binary64 (UnpackedFloat.pack Format.binary64 x.unpacked) = _
  cases h : x.unpacked.isNaN with
  | true =>
    cases hx : x.unpacked with
    | notANumber => rfl
    | _ => rw [hx] at h; cases h
  | false =>
    rw [x.fields.pack h]
    rfl

theorem mul_eq (x y : Double) :
    x * y = resultOf [x, y] (packed (UnpackedFloat.mul Format.binary64 x.unpacked y.unpacked)) := by
  rw [← unpack_toFloat x, ← unpack_toFloat y]
  rfl

theorem div_eq (x y : Double) :
    x / y = resultOf [x, y] (packed (UnpackedFloat.div Format.binary64 x.unpacked y.unpacked)) := by
  rw [← unpack_toFloat x, ← unpack_toFloat y]
  rfl

/-! ### One -/

theorem log2_pow_mul {m : Nat} (hm : m ≠ 0) : ∀ n : Nat, (2 ^ n * m).log2 = n + m.log2
  | 0 => by simp
  | n + 1 => by
    have hne : 2 ^ n * m ≠ 0 := Nat.mul_ne_zero (Nat.two_pow_pos n).ne' hm
    rw [Nat.pow_succ', Nat.mul_assoc, Nat.log2_two_mul hne, log2_pow_mul hm n]
    omega

theorem shiftRight_exact : ∀ n m : Nat,
    ExtendedMantissa.ofMantissaAndAccuracy (2 ^ n * m) .exact >>> n = ⟨m, false, false⟩
  | 0, m => by simp [HShiftRight.hShiftRight, Nat.repeat, ExtendedMantissa.ofMantissaAndAccuracy]
  | n + 1, m => by
    have ih := shiftRight_exact n (2 * m)
    rw [Nat.pow_succ, Nat.mul_assoc]
    change ExtendedMantissa.shiftRightOne (ExtendedMantissa.ofMantissaAndAccuracy (2 ^ n * (2 * m)) .exact >>> n) = _
    rw [ih, ExtendedMantissa.shiftRightOne]
    simp

/-- The exponent is the one that the format has for the mantissa. -/
theorem Fields.targetExponent {s : Sign} {m : Nat} {e : Int} {hm : 0 < m} (h : Fields b (.finite s m e hm)) :
    Format.binary64.targetExponent (totalExponent m e) = e := by
  have hlt : b.toNat % 2 ^ 52 < 2 ^ 52 := Nat.mod_lt _ (by decide)
  have htarget : ∀ t, Format.binary64.targetExponent t = max (t - 53) (-1074) := fun _ => rfl
  rw [htarget, totalExponent]
  cases h with
  | subnormal hpos he =>
    have hlog : (b.toNat % 2 ^ 52).log2 < 52 := (Nat.log2_lt (by omega)).mpr hlt
    omega
  | normal hpos hmin hmax =>
    rw [log2_normal hlt]
    omega

/-- A mantissa that has its exponent stays as it is, also with zeros behind it. -/
theorem roundWithAccuracy_pow_mul {s : Sign} {m : Nat} {e : Int} (hm : 0 < m)
    (h : Format.binary64.targetExponent (totalExponent m e) = e) (n : Nat) :
    roundWithAccuracy Format.binary64 s (2 ^ n * m) (-n + e) .exact = .finite s m e hm := by
  have htotal : totalExponent (2 ^ n * m) (-n + e) = totalExponent m e := by
    rw [totalExponent, totalExponent, log2_pow_mul hm.ne']
    omega
  have hfirst : shiftToTargetExponent Format.binary64 (2 ^ n * m) (-n + e) .exact = (⟨m, false, false⟩, e) := by
    have hshift : (e - (-n + e)).toNat = n := by omega
    have hsum : -(n : Int) + e + n = e := by omega
    simp only [shiftToTargetExponent, shiftToExponent, htotal, h, hshift, hsum, shiftRight_exact]
  have hsecond : shiftToTargetExponent Format.binary64 m e .exact = (⟨m, false, false⟩, e) := by
    have hexact := shiftRight_exact 0 m
    simp only [Nat.pow_zero, Nat.one_mul] at hexact
    simp [shiftToTargetExponent, shiftToExponent, h, hexact]
  have hrounded : (⟨m, false, false⟩ : ExtendedMantissa).roundedMantissa = m := rfl
  unfold roundWithAccuracy
  rw [hfirst]
  dsimp only
  rw [hrounded, hsecond]
  exact dif_neg hm.ne'

theorem one_eq : (Scalar.one : Double) = ⟨0x3ff0000000000000⟩ := by decide +kernel

theorem unpacked_one : (Scalar.one : Double).unpacked = .finite .positive (2 ^ 52) (-52) (by decide) := by
  rw [one_eq]
  rfl

theorem mul_unpacked_one (x : Double) :
    UnpackedFloat.mul Format.binary64 (Scalar.one : Double).unpacked x.unpacked = x.unpacked := by
  have hsign : ∀ s : Sign, .positive * s = s := fun s => by cases s <;> rfl
  have hx := x.fields
  rw [unpacked_one]
  cases h : x.unpacked with
  | notANumber => rfl
  | infinity s => exact congrArg _ (hsign s)
  | zero s => exact congrArg _ (hsign s)
  | finite s m e hm =>
    rw [h] at hx
    unfold UnpackedFloat.mul
    dsimp only
    rw [hsign]
    -- The mantissa of one is a power of two, so the product has the mantissa of `x` and zeros behind it.
    exact roundWithAccuracy_pow_mul hm hx.targetExponent 52

/-- One is neutral, also for NaNs. -/
theorem one_mul (x : Double) : Scalar.one * x = x := by
  rw [mul_eq, mul_unpacked_one, resultOf, isNaN_packed_unpacked]
  cases h : x.isNaN with
  | true =>
    have hone : (Scalar.one : Double).isNaN = false := by decide +kernel
    simp [hone, h]
  | false =>
    rw [toBits_packed_unpacked h]
    rfl

/-! ### Numbers that are not negative -/

/-- The number is not negative; a NaN has no sign. -/
def Unsigned (x : Double) : Prop := x.isNaN = true ∨ x.isNegative = false

/-- The sign is positive, if there is one. -/
def Positive : UnpackedFloat → Prop
  | .notANumber => True
  | .infinity s => s = .positive
  | .zero s => s = .positive
  | .finite s .. => s = .positive

theorem Unsigned.positive (h : x.Unsigned) : Positive x.unpacked := by
  rcases h with hnan | hsign
  · rw [← isNaN_unpacked] at hnan
    cases hx : x.unpacked with
    | notANumber => trivial
    | _ => rw [hx] at hnan; cases hnan
  · have hzero : @unpackSign Format.binary64 x.bits.toBitVec = 0 := by
      refine BitVec.eq_of_toNat_eq (toNat_unpackSign.trans ?_)
      have hlt : x.bits.toNat < 2 ^ 63 := by simpa [isNegative] using hsign
      exact Nat.div_eq_of_lt hlt
    have hpositive : Sign.ofBitVec (@unpackSign Format.binary64 x.bits.toBitVec) = .positive := by
      rw [hzero]
      rfl
    have hx := x.fields
    cases hf : x.unpacked with
    | notANumber => trivial
    | _ => rw [hf] at hx; cases hx <;> exact hpositive

theorem Positive.pack (h : Positive f) : (UnpackedFloat.pack Format.binary64 f).toNat < 2 ^ 63 := by
  have hcomponents : ∀ (e : BitVec 11) (m : BitVec 52),
      (packComponents Format.binary64 .positive e m).toNat < 2 ^ 63 := by
    intro e m
    have he := e.isLt
    have hm := m.isLt
    have hsign : Sign.positive.toBitVec.toNat = 0 := rfl
    rw [toNat_packComponents, hsign]
    omega
  unfold UnpackedFloat.pack
  split
  · exact hcomponents _ _
  · cases h
    exact hcomponents _ _
  · cases h
    exact hcomponents _ _
  · cases h
    dsimp only
    split
    · exact hcomponents _ _
    · split <;> exact hcomponents _ _

theorem unsigned_resultOf (h : Positive f) (operands : List Double) : (resultOf operands (packed f)).Unsigned := by
  rw [resultOf]
  split
  · left
    cases hfind : operands.find? isNaN with
    | none => rfl
    | some x => exact List.find?_some hfind
  · exact .inr (decide_eq_false (Nat.not_le_of_lt h.pack))

theorem positive_roundWithAccuracy (m : Nat) (e : Int) (a : Accuracy) :
    Positive (roundWithAccuracy Format.binary64 .positive m e a) := by
  unfold roundWithAccuracy
  dsimp only
  rw [apply_dite Positive, dite_prop_iff_and]
  exact ⟨fun _ => rfl, fun _ => rfl⟩

theorem Positive.mul (hf : Positive f) (hg : Positive g) : Positive (UnpackedFloat.mul Format.binary64 f g) := by
  cases f <;> cases g <;> cases hf <;> cases hg <;> first | trivial | exact positive_roundWithAccuracy ..

theorem Positive.div (hf : Positive f) (hg : Positive g) : Positive (UnpackedFloat.div Format.binary64 f g) := by
  cases f <;> cases g <;> cases hf <;> cases hg <;> first | trivial | exact positive_roundWithAccuracy ..

theorem Unsigned.mul (hx : x.Unsigned) (hy : y.Unsigned) : (x * y).Unsigned :=
  mul_eq x y ▸ unsigned_resultOf (hx.positive.mul hy.positive) _

theorem Unsigned.div (hx : x.Unsigned) (hy : y.Unsigned) : (x / y).Unsigned :=
  div_eq x y ▸ unsigned_resultOf (hx.positive.div hy.positive) _

theorem Positive.sqrt (hf : Positive f) : Positive (UnpackedFloat.sqrt Format.binary64 f) := by
  cases f <;> cases hf <;> first | trivial | exact positive_roundWithAccuracy ..

theorem Unsigned.sqrt (hx : x.Unsigned) : x.sqrt.Unsigned := by
  have hsqrt : x.sqrt = resultOf [x] (packed (UnpackedFloat.sqrt Format.binary64 x.unpacked)) := by
    rw [← unpack_toFloat x]
    rfl
  exact hsqrt ▸ unsigned_resultOf hx.positive.sqrt _

theorem unsigned_one : (Scalar.one : Double).Unsigned := .inr (by decide +kernel)

theorem unsigned_powerLoop : ∀ (fuel n : Nat) {x r : Double}, x.Unsigned → r.Unsigned →
    (Scalar.powerLoop fuel n x r).Unsigned
  | 0, _, _, _, _, hr => hr
  | fuel + 1, n, x, r, hx, hr => by
    rw [Scalar.powerLoop]
    have hstep : (if n % 2 = 1 then r * x else r).Unsigned := by
      split
      · exact hr.mul hx
      · exact hr
    split
    · exact hstep
    · exact unsigned_powerLoop fuel (n / 2) (hx.mul hx) hstep

theorem Unsigned.power (hx : x.Unsigned) (n : Int) : (Scalar.power x n).Unsigned := by
  have hloop := unsigned_powerLoop (n.natAbs + 1) n.natAbs hx unsigned_one
  rw [Scalar.power]
  split
  · exact unsigned_one.div hloop
  · exact hloop

end Concord.Double
