import Concord.Proofs.Measure.Printed

/-! Units between nodes are texts. Each unit that can be computed is read again from its text, unless a symbol has a
    digit or a sign behind its first character, as only a caret lets it have. -/

namespace Concord.Measure

variable {power : Double → Double → Double} {u v : Measure Double}

/-- The `n`-th root of a unit, where `power` gives the powers of numbers. -/
def rootBy (power : Double → Double → Double) (u : Measure Double) (n : Int) : Option (Measure Double) :=
  (divided? n u.terms).map fun terms => ⟨terms, power u.scale (1 / .ofInt n)⟩

theorem root?_eq (u : Measure Double) (n : Int) : root? u n = rootBy Double.pow u n := rfl

/-- The units that texts are, and what can be computed from them. -/
inductive Reachable (power : Double → Double → Double) : Measure Double → Prop
  | parsed {s : String} {u : Measure Double} : read s = .ok u → Reachable power u
  | multiply {u v : Measure Double} : Reachable power u → Reachable power v → Reachable power (u.multiply v)
  | divide {u v : Measure Double} : Reachable power u → Reachable power v → Reachable power (u.divide v)
  | pow {u : Measure Double} (k : Int) : Reachable power u → Reachable power (u.pow k)
  | root {u v : Measure Double} {n : Int} : Reachable power u → rootBy power u n = some v → Reachable power v

theorem Sound.pow (hu : Sound u) (k : Int) : Sound (u.pow k) :=
  ⟨hu.proper.multiplied, normal_multiplied, hu.unsigned.power k⟩

theorem Sound.root (hpower : ∀ x y : Double, x.Unsigned → (power x y).Unsigned) {n : Int} (hu : Sound u)
    (h : rootBy power u n = some v) : Sound v := by
  obtain ⟨terms, hterms, rfl⟩ := Option.map_eq_some_iff.mp h
  exact ⟨hu.proper.divided hterms, (divided_eq_some hterms).2.2 hu.normal, hpower _ _ hu.unsigned⟩

theorem Reachable.sound (hpower : ∀ x y : Double, x.Unsigned → (power x y).Unsigned) (h : Reachable power u) :
    Sound u := by
  induction h with
  | parsed h => exact (sound_read h).1
  | multiply _ _ hu hv => exact hu.multiply hv
  | divide _ _ hu hv => exact hu.divide hv
  | pow k _ hu => exact hu.pow k
  | root _ h hu => exact hu.root hpower h

/-- Square roots, for the exponent one half. -/
def halfPower (x y : Double) : Double := if y = 1 / .ofInt 2 then x.sqrt else Scalar.one

theorem unsigned_halfPower (x y : Double) (h : x.Unsigned) : (halfPower x y).Unsigned := by
  unfold halfPower
  split
  · exact h.sqrt
  · exact Double.unsigned_one

/-- One symbol to some power, with a factor. -/
def single (scale : Double) (symbol : String) (e : Int) : Measure Double := ⟨.ofList [(symbol, e)], scale⟩

theorem exponentOf_single (scale : Double) (symbol key : String) (e : Int) :
    exponentOf (single scale symbol e).terms key = if key = symbol then e else 0 := by
  unfold single exponentOf NameMap.ofList
  rw [List.foldl_cons, List.foldl_nil, NameMap.get?_insert]
  split <;> rfl

theorem fits_single (scale : Double) (symbol : String) {e : Int} (he : Fits e) (key : String) :
    Fits (exponentOf (single scale symbol e).terms key) := by
  rw [exponentOf_single]
  split
  · exact he
  · decide

/-- A unit that can be computed is read again from its text, with the bits of its factor, if and only if no symbol
    has a digit or a sign behind its first character. -/
theorem reachable_read_text (hpower : ∀ x y : Double, x.Unsigned → (power x y).Unsigned)
    (h : Reachable power u) (hfits : ∀ symbol, Fits (exponentOf u.terms symbol)) (hfinite : u.scale.isFinite = true)
    (hzero : u.scale ≠ 0) :
    read (text u) = .ok u ↔ ∀ symbol, exponentOf u.terms symbol ≠ 0 → Plain symbol.toList :=
  read_text_iff (h.sound hpower) hfits hfinite hzero

/-- The root of `4 m2` is read again from `2 m`, but `m2` to the third from `m23` is not: that is a power of `m`. -/
theorem reachable_read_text_caret :
    Reachable halfPower (single 2 "m" 1) ∧ read (text (single 2 "m" 1)) = .ok (single 2 "m" 1) ∧
    Reachable halfPower (single 1 "m2" 3) ∧ text (single 1 "m2" 3) = "m23" ∧ read "m23" ≠ .ok (single 1 "m2" 3) := by
  have hroot : Reachable halfPower (single 2 "m" 1) :=
    .root (n := 2) (.parsed (s := "4 m2") (u := single 4 "m" 2) (by decide +kernel)) (by decide +kernel)
  have hcubed : Reachable halfPower (single 1 "m2" 3) := .parsed (s := "m2^3") (by decide +kernel)
  have htext : text (single 1 "m2" 3) = "m23" := by decide +kernel
  refine ⟨hroot, ?_, hcubed, htext, ?_⟩
  · refine (reachable_read_text unsigned_halfPower hroot (fits_single 2 "m" (by decide)) (by decide +kernel)
      (by decide +kernel)).mpr fun symbol h => ?_
    rw [exponentOf_single] at h
    split at h
    · rename_i heq
      subst heq
      decide
    · exact absurd rfl h
  · intro hread
    have hplain := (reachable_read_text unsigned_halfPower hcubed (fits_single 1 "m2" (by decide)) (by decide +kernel)
      (by decide +kernel)).mp (htext ▸ hread) "m2" (by rw [exponentOf_single, if_pos rfl]; decide)
    revert hplain
    decide

end Concord.Measure
