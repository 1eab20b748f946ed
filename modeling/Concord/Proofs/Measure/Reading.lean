import Concord.Proofs.Double.Products
import Concord.Proofs.Measure.Factors

/-! What holds of every unit that is read, by an induction on the factors: the symbols are proper, and plain if the
    text has no caret. -/

namespace Concord

namespace Decimal

theorem isNegative_ofDecimal (m : Nat) (e : Int) : (ofDecimal m e).isNegative = false := by
  have hsmall : ∀ n : Nat, n < 2 ^ 63 → Double.isNegative ⟨n.toUInt64⟩ = false := by
    intro n hn
    refine decide_eq_false ?_
    rw [Nat.toUInt64_eq, UInt64.toNat_ofNat']
    omega
  unfold ofDecimal
  split
  · rfl
  · dsimp only
    split
    · rfl
    · split
      · rfl
      · refine hsmall _ ?_
        unfold nearestBits Double.infinityBits
        dsimp only
        split <;> omega

theorem isNegative_read {cs : List Char} {x : Double} (h : read cs = some x) : x.isNegative = false := by
  unfold read at h
  dsimp only at h
  split at h
  · cases h
  · obtain ⟨e, -, rfl⟩ := Option.map_eq_some_iff.mp h
    exact isNegative_ofDecimal _ _

end Decimal

namespace Measure

variable {s : String} {sign : Int} {u v : Measure Double} {factor : List Char}

/-! ### Steps of reading -/

/-- What a factor does to a unit. -/
inductive Applied (sign : Int) (u : Measure Double) (factor : List Char) : Measure Double → Prop
  | nothing : Applied sign u factor u
  | number {x : Double} : readScale factor = .ok x → Applied sign u factor ⟨u.terms, u.scale * Scalar.power x sign⟩
  | symbol {symbol : String} {e : Int} : readSymbol factor = .ok (symbol, e) →
      Applied sign u factor ⟨raise u.terms symbol (e * sign), u.scale⟩

theorem applied (h : applyFactor sign u factor = .ok v) : Applied sign u factor v := by
  unfold applyFactor at h
  split at h
  · cases h
    exact .nothing
  · split at h
    · obtain ⟨x, hx, rfl⟩ := map_eq_ok.mp h
      exact .number hx
    · obtain ⟨⟨symbol, e⟩, hp, rfl⟩ := map_eq_ok.mp h
      exact .symbol hp

/-- What one is and each factor keeps holds in the end, but for symbols without exponent. -/
theorem read_induction {I : Measure Double → Prop} (hone : I unity)
    (hstep : ∀ sign factor u v, IsFactor s factor → I u → Applied sign u factor v → I v) (h : read s = .ok u) :
    ∃ w, I w ∧ u = ⟨normalize w.terms, w.scale⟩ := by
  have hproduct : ∀ part ∈ Text.split (· == '/') s.toList, ∀ sign u v, I u →
      applyProduct sign u part = .ok v → I v := by
    intro part hpart sign u v hu hv
    refine foldlM_induction (P := fun _ w => I w) (factors ' ' (caretForStars part)) ?_ (List.nil_append _).symm hu hv
    intro done factor rest w w' hall hw hw'
    exact hstep sign factor w w' ⟨part, hpart, hall ▸ by simp⟩ hw (applied hw')
  unfold read at h
  split at h
  · cases h
  · obtain ⟨w, hw, rfl⟩ := map_eq_ok.mp h
    refine ⟨w, ?_, rfl⟩
    revert hproduct hw
    cases Text.split (· == '/') s.toList with
    | nil =>
      intro _ hw
      cases hw
      exact hone
    | cons numerator rest =>
      intro hproduct hw
      have hnumerator := hproduct numerator List.mem_cons_self 1 unity
      cases rest with
      | nil => exact hnumerator w hone hw
      | cons denominator rest =>
        obtain ⟨u, hu, hw⟩ := bind_eq_ok.mp hw
        obtain ⟨v, hv, hw⟩ := bind_eq_ok.mp hw
        have hdenominator := hproduct denominator (List.mem_cons_of_mem _ List.mem_cons_self) (-1) u v
        split at hw
        · cases hw
          exact hdenominator (hnumerator u hone hu) hv
        · cases hw

/-! ### Units that are read -/

/-- The symbols can stand in a text, exponents are not zero, and the factor is not negative. -/
structure Sound (u : Measure Double) : Prop where
  proper : Symbols (fun symbol => Proper symbol.toList) u.terms
  normal : Normal u.terms
  unsigned : u.scale.Unsigned

theorem symbols_empty {P : String → Prop} : Symbols P .empty := fun _ h => absurd rfl h

theorem sound_unity : Sound unity := ⟨symbols_empty, normal_empty, Double.unsigned_one⟩

theorem Sound.multiply (hu : Sound u) (hv : Sound v) : Sound (u.multiply v) :=
  ⟨hu.proper.combine hv.proper, normal_combine, hu.unsigned.mul hv.unsigned⟩

theorem Sound.divide (hu : Sound u) (hv : Sound v) : Sound (u.divide v) :=
  ⟨hu.proper.combine hv.proper, normal_combine, hu.unsigned.div hv.unsigned⟩

theorem readScale_eq_ok {x : Double} (h : readScale factor = .ok x) :
    Decimal.read factor = some x ∧ x ≠ 0 ∧ x.isFinite = true := by
  unfold readScale at h
  split at h
  · cases h
  · rename_i y hy
    split at h
    · cases h
    · rename_i hcond
      cases h
      rw [Bool.or_eq_true, not_or] at hcond
      exact ⟨hy, by simpa using hcond⟩

/-- What holds of a unit while a text is read. -/
structure Readable (s : String) (u : Measure Double) : Prop where
  proper : Symbols (fun symbol => Proper symbol.toList) u.terms
  plain : '^' ∉ s.toList → '*' ∉ s.toList → Symbols (fun symbol => Plain symbol.toList) u.terms
  unsigned : u.scale.Unsigned

theorem Readable.applied (hu : Readable s u) (hfactor : IsFactor s factor) (h : Applied sign u factor v) :
    Readable s v := by
  cases h with
  | nothing => exact hu
  | number hx =>
    have hpositive := Decimal.isNegative_read (readScale_eq_ok hx).1
    exact ⟨hu.proper, hu.plain, hu.unsigned.mul (Double.Unsigned.power (.inr hpositive) sign)⟩
  | symbol hsymbol =>
    obtain ⟨hproper, hplain⟩ := hfactor.symbol hsymbol
    exact ⟨hu.proper.raise hproper, fun hcaret hstar => (hu.plain hcaret hstar).raise (hplain hcaret hstar),
      hu.unsigned⟩

/-- A unit that is read is sound, and its symbols are plain if the text has no caret and no star. -/
theorem sound_read (h : read s = .ok u) :
    Sound u ∧ ('^' ∉ s.toList → '*' ∉ s.toList → Symbols (fun symbol => Plain symbol.toList) u.terms) := by
  have hone : Readable s unity := ⟨symbols_empty, fun _ _ => symbols_empty, Double.unsigned_one⟩
  obtain ⟨w, hw, rfl⟩ := read_induction hone (fun sign factor u v hfactor hu h => hu.applied hfactor h) h
  exact ⟨⟨hw.proper.normalize, normal_normalize _, hw.unsigned⟩,
    fun hcaret hstar => (hw.plain hcaret hstar).normalize⟩

end Measure
end Concord
