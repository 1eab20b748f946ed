import Mathlib.Data.List.TakeWhile
import Concord.Proofs.Decimal.RoundTrip

/-! The text of a number. It has digits and at most one point behind a sign, and what follows the sign is read as the
    magnitude of the number. -/

namespace Concord.Decimal

variable {x : Double} {m : Nat} {e : Int} {whole fraction cs : List Char}

/-! ### Runs of digits -/

theorem ofDigits_eq (cs : List Char) : ofDigits cs = Nat.ofDigitChars 10 cs 0 := by
  rw [Nat.ofDigitChars_eq_foldl]
  rfl

theorem ofDigits_digits (m : Nat) : ofDigits (digits m) = m := by
  rw [ofDigits_eq]
  exact Nat.ofDigitChars_ten_toDigits

theorem ofDigits_append_zeros (cs : List Char) (n : Nat) : ofDigits (cs ++ List.replicate n '0') = ofDigits cs * 10 ^ n := by
  rw [ofDigits_eq, Nat.ofDigitChars_append, Nat.ofDigitChars_replicate_zero, ofDigits_eq, Nat.mul_comm]

theorem ofDigits_zeros_append (n : Nat) (cs : List Char) : ofDigits (List.replicate n '0' ++ cs) = ofDigits cs := by
  rw [ofDigits_eq, Nat.ofDigitChars_append, Nat.ofDigitChars_replicate_zero, Nat.mul_zero, ofDigits_eq]

theorem isDigit_digits {c : Char} (h : c ∈ digits m) : c.isDigit = true :=
  Nat.isDigit_of_mem_toDigits (by decide) (by decide) h

theorem digits_ne_nil (m : Nat) : digits m ≠ [] := Nat.toDigits_ne_nil

/-! ### Literals -/

theorem takeWhile_digits (hwhole : ∀ c ∈ whole, c.isDigit = true) (cs : List Char) :
    (whole ++ '.' :: cs).takeWhile Char.isDigit = whole ∧ (whole ++ '.' :: cs).dropWhile Char.isDigit = '.' :: cs := by
  rw [List.takeWhile_append_of_pos hwhole, List.dropWhile_append_of_pos hwhole]
  exact ⟨by simp [Char.isDigit], rfl⟩

theorem read_whole (hwhole : ∀ c ∈ whole, c.isDigit = true) (hne : whole ≠ []) :
    read whole = some (ofDecimal (ofDigits whole) 0) := by
  have htake : whole.takeWhile Char.isDigit = whole := List.takeWhile_eq_self_iff.mpr hwhole
  have hdrop : whole.dropWhile Char.isDigit = [] := List.dropWhile_eq_nil_iff.mpr hwhole
  unfold read
  rw [htake, hdrop]
  simp [splitFraction, readExponent, hne]

theorem read_point (hwhole : ∀ c ∈ whole, c.isDigit = true) (hfraction : ∀ c ∈ fraction, c.isDigit = true)
    (hne : whole ≠ []) :
    read (whole ++ '.' :: fraction) = some (ofDecimal (ofDigits (whole ++ fraction)) (-fraction.length)) := by
  obtain ⟨htake, hdrop⟩ := takeWhile_digits hwhole fraction
  have htake' : fraction.takeWhile Char.isDigit = fraction := List.takeWhile_eq_self_iff.mpr hfraction
  have hdrop' : fraction.dropWhile Char.isDigit = [] := List.dropWhile_eq_nil_iff.mpr hfraction
  unfold read
  rw [htake, hdrop]
  simp [splitFraction, htake', hdrop', readExponent, hne]

/-! ### All places -/

/-- A text of digits and points that is read as a number. -/
structure Literal (cs : List Char) (x : Double) : Prop where
  ne_nil : cs ≠ []
  places : ∀ c ∈ cs, c.isDigit = true ∨ c = '.'
  read : Decimal.read cs = some x

theorem literal_whole (hwhole : ∀ c ∈ whole, c.isDigit = true) (hne : whole ≠ [])
    (hx : ofDecimal (ofDigits whole) 0 = x) : Literal whole x :=
  ⟨hne, fun c hc => .inl (hwhole c hc), hx ▸ read_whole hwhole hne⟩

theorem literal_point (hwhole : ∀ c ∈ whole, c.isDigit = true) (hfraction : ∀ c ∈ fraction, c.isDigit = true)
    (hne : whole ≠ []) (hx : ofDecimal (ofDigits (whole ++ fraction)) (-fraction.length) = x) :
    Literal (whole ++ '.' :: fraction) x := by
  refine ⟨by simp, fun c hc => ?_, hx ▸ read_point hwhole hfraction hne⟩
  rcases List.mem_append.mp hc with hc | hc
  · exact .inl (hwhole c hc)
  · exact (List.mem_cons.mp hc).elim .inr fun hc => .inl (hfraction c hc)

/-- A decimal with all its places is read as its value. -/
theorem literal_positional (hm : m ≠ 0) : Literal (positional "" (digits m) e).toList (ofDecimal m e) := by
  have hdigits : ∀ c ∈ digits m, c.isDigit = true := fun _ => isDigit_digits
  have hzeros : ∀ n, ∀ c ∈ List.replicate n '0', c.isDigit = true := by
    intro n c hc
    rw [List.eq_of_mem_replicate hc]
    rfl
  unfold positional
  split
  · rename_i he
    obtain ⟨n, rfl⟩ := Int.eq_ofNat_of_zero_le he
    rw [String.append_empty, String.toList_ofList, Int.toNat_natCast]
    refine literal_whole (fun c hc => ?_) (by simp [digits_ne_nil]) ?_
    · exact (List.mem_append.mp hc).elim (hdigits c) (hzeros n c)
    · rw [ofDigits_append_zeros, ofDigits_digits, ofDecimal_mul_pow hm, Int.zero_add]
  · rename_i he
    obtain ⟨n, rfl⟩ : ∃ n : Nat, e = -(n : Int) := ⟨(-e).toNat, by omega⟩
    have hneg : (- -(n : Int)).toNat = n := by omega
    rw [hneg]
    dsimp only
    split
    · rename_i hlt
      rw [String.toList_ofList]
      refine literal_point (fun c hc => hdigits c (List.mem_of_mem_take hc))
        (fun c hc => hdigits c (List.mem_of_mem_drop hc)) ?_ ?_
      · rw [← List.length_pos_iff, List.length_take]
        omega
      · rw [List.take_append_drop, ofDigits_digits, List.length_drop]
        congr 1
        omega
    · rename_i hle
      have hsplit : ∀ zeros : List Char, '0' :: '.' :: zeros ++ digits m = ['0'] ++ '.' :: (zeros ++ digits m) := fun _ => rfl
      rw [String.toList_ofList, hsplit]
      refine literal_point (by simp [Char.isDigit]) (fun c hc => ?_) (by simp) ?_
      · exact (List.mem_append.mp hc).elim (hzeros _ c) (hdigits c)
      · have hzero : ofDigits (['0'] ++ (List.replicate (n - (digits m).length) '0' ++ digits m)) = m := by
          rw [← List.append_assoc, ← List.replicate_one, List.replicate_append_replicate, ofDigits_zeros_append,
            ofDigits_digits]
        rw [hzero, List.length_append, List.length_replicate]
        congr 1
        omega

/-! ### Numbers -/

theorem plain_of_isFinite (hfinite : x.isFinite = true) : plain x = layOut plainLayout x := by
  have hlt : x.magnitudeBits < Double.infinityBits := of_decide_eq_true hfinite
  have hnan : x.isNaN = false := decide_eq_false (by omega)
  have hinf : x.isInfinite = false := decide_eq_false (by omega)
  unfold plain
  rw [hnan, hinf]
  rfl

/-- The text of a finite number of positive sign. -/
theorem literal_plain (hfinite : x.isFinite = true) (hsign : x.isNegative = false) : Literal (plain x).toList x := by
  rw [plain_of_isFinite hfinite, layOut, hsign]
  simp only [Bool.false_eq_true, if_false]
  split
  · rename_i hzero
    have hx : x = default := by
      rw [Double.eq_magnitude hsign, hzero]
      rfl
    have htext : ("" ++ ("0" ++ plainLayout.wholeEnd)).toList = ['0'] := by simp [plainLayout]
    rw [hx, String.append_assoc, htext]
    exact literal_whole (by simp [Char.isDigit]) (by simp) rfl
  · rename_i hpos
    rw [Double.abs_of_not_isNegative hsign]
    obtain ⟨hm, hreads⟩ := shortest_reads plainLayout.ties hfinite hpos hsign
    have hliteral := literal_positional (e := (shortest plainLayout.ties x).2) hm
    rw [hreads] at hliteral
    simpa [plainLayout] using hliteral

/-- The text of a number of negative sign is that of the other sign behind a minus. -/
theorem plain_neg (hfinite : x.isFinite = true) (hsign : x.isNegative = true) : (plain x).toList = '-' :: (plain (-x)).toList := by
  have hmag := Double.magnitudeBits_neg x
  have hfinite' : (-x).isFinite = true := by rw [Double.isFinite, hmag]; exact hfinite
  have hsign' : (-x).isNegative = false := by rw [Double.isNegative_neg, hsign]; rfl
  rw [plain_of_isFinite hfinite, plain_of_isFinite hfinite', layOut, layOut, hsign, hsign', hmag, Double.abs_neg]
  simp only [Bool.false_eq_true, if_false, if_true]
  split <;> simp

end Concord.Decimal
