import Mathlib.Data.Finsupp.SMul
import Mathlib.Data.Set.Function
import Concord.Proofs.Measure.RoundTrip

/-! Exponents as a free abelian group. A map without zeros is a function from symbols to whole numbers that is zero but
    for finitely many of them. Products add such functions and powers multiply them, so the laws of units are those of
    the functions. -/

namespace Concord.Measure

variable {t t' : NameMap Int} {u v w : Measure Double} {k n : Int}

/-- The exponents of all symbols. -/
noncomputable def exponents (t : NameMap Int) : String →₀ ℤ :=
  Finsupp.onFinset t.keys.toFinset (exponentOf t) fun symbol h => by
    rw [List.mem_toFinset, NameMap.mem_keys, NameMap.contains]
    unfold exponentOf at h
    cases hget : t.get? symbol with
    | none => exact absurd (by rw [hget]; rfl) h
    | some e => rfl

@[simp] theorem exponents_apply (t : NameMap Int) (symbol : String) : exponents t symbol = exponentOf t symbol := rfl

/-! ### Maps as functions -/

theorem Normal.eq_of_exponents (ht : Normal t) (ht' : Normal t') (h : exponents t = exponents t') : t = t' :=
  ht.ext ht' fun symbol => DFunLike.congr_fun h symbol

theorem exponents_empty : exponents .empty = 0 := Finsupp.ext fun _ => rfl

/-- The map of a function. -/
noncomputable def ofExponents (f : String →₀ ℤ) : NameMap Int := .ofList (f.support.toList.map fun symbol => (symbol, f symbol))

theorem get?_ofExponents (f : String →₀ ℤ) (symbol : String) :
    (ofExponents f).get? symbol = if f symbol = 0 then none else some (f symbol) := by
  rw [ofExponents, NameMap.get?_ofList_map]
  by_cases h : f symbol = 0 <;> simp [h]

theorem normal_ofExponents (f : String →₀ ℤ) : Normal (ofExponents f) := by
  intro symbol h
  rw [get?_ofExponents] at h
  split at h
  · cases h
  · rename_i hne
    exact hne (Option.some.inj h)

theorem exponents_ofExponents (f : String →₀ ℤ) : exponents (ofExponents f) = f := by
  ext symbol
  rw [exponents_apply, exponentOf, get?_ofExponents]
  split
  · rename_i h
    exact h.symm
  · rfl

/-- Maps without zeros are the functions that are zero but for finitely many symbols. -/
theorem bijOn_exponents : Set.BijOn exponents {t | Normal t} Set.univ :=
  ⟨fun _ _ => trivial, fun _ ht _ ht' h => Normal.eq_of_exponents ht ht' h,
    fun f _ => ⟨ofExponents f, normal_ofExponents f, exponents_ofExponents f⟩⟩

/-! ### Operations -/

theorem exponents_combine (k : Int) (t t' : NameMap Int) :
    exponents (combine k t t') = exponents t + k • exponents t' :=
  Finsupp.ext fun symbol => by simp [exponentOf_combine]

theorem exponents_multiply (u v : Measure Double) :
    exponents (u.multiply v).terms = exponents u.terms + exponents v.terms := by
  rw [multiply, exponents_combine, one_smul]

theorem exponents_divide (u v : Measure Double) :
    exponents (u.divide v).terms = exponents u.terms - exponents v.terms := by
  rw [divide, exponents_combine, neg_one_smul, sub_eq_add_neg]

theorem exponents_pow (u : Measure Double) (k : Int) : exponents (u.pow k).terms = k • exponents u.terms :=
  Finsupp.ext fun symbol => by simp [pow, exponentOf_multiplied, mul_comm]

theorem isDimensionless_iff (h : Normal u.terms) : u.isDimensionless = true ↔ exponents u.terms = 0 := by
  rw [isDimensionless, List.isEmpty_iff]
  constructor
  · intro hnil
    have hempty : u.terms = .empty := NameMap.ext hnil
    rw [hempty, exponents_empty]
  · intro hzero
    rw [h.eq_of_exponents normal_empty (hzero.trans exponents_empty.symm)]
    rfl

/-! ### Roots -/

/-- The exponents are divided if there is a number to divide by and it divides all of them. -/
theorem divided_isSome (hn : n ≠ 0) (h : ∀ symbol, n ∣ exponentOf t symbol) : ∃ t', divided? n t = some t' := by
  refine ⟨_, if_neg ?_⟩
  rw [not_or, List.any_eq_true]
  refine ⟨hn, fun ⟨e, he, hmod⟩ => ?_⟩
  obtain ⟨p, hp, rfl⟩ := List.mem_map.mp he
  have hdvd := h p.1
  rw [exponentOf_of_get? (NameMap.mem_entries.mp hp)] at hdvd
  exact of_decide_eq_true hmod (Int.tmod_eq_zero_of_dvd hdvd)

theorem exponents_root (h : u.root? n = some v) : n ≠ 0 ∧ n • exponents v.terms = exponents u.terms := by
  obtain ⟨t, ht, rfl⟩ := Option.map_eq_some_iff.mp h
  obtain ⟨hn, hexponent, -⟩ := divided_eq_some ht
  exact ⟨hn, Finsupp.ext fun symbol => by simp [← hexponent symbol, mul_comm]⟩

/-- The roots that there are: those of powers. -/
theorem exists_root (hn : n ≠ 0) {f : String →₀ ℤ} (h : exponents u.terms = n • f) :
    ∃ v, u.root? n = some v ∧ exponents v.terms = f := by
  have hdvd : ∀ symbol, n ∣ exponentOf u.terms symbol := fun symbol => ⟨f symbol, DFunLike.congr_fun h symbol⟩
  obtain ⟨t, ht⟩ := divided_isSome hn hdvd
  have hroot : u.root? n = some ⟨t, u.scale.pow (1 / .ofInt n)⟩ := by rw [root?, ht]; rfl
  exact ⟨_, hroot, smul_right_injective _ hn ((exponents_root hroot).2.trans h)⟩

/-! ### Units -/

/-- No unit that can be computed has a symbol with exponent zero. -/
theorem Reachable.normal {power : Double → Double → Double} (h : Reachable power u) : Normal u.terms := by
  induction h with
  | parsed h => exact (sound_read h).1.normal
  | multiply _ _ _ _ => exact normal_combine
  | divide _ _ _ _ => exact normal_combine
  | pow k _ _ => exact normal_multiplied
  | root _ h hu =>
    obtain ⟨t, ht, rfl⟩ := Option.map_eq_some_iff.mp h
    exact (divided_eq_some ht).2.2 hu

/-- The exponents of units are a free abelian group over the symbols. They are the functions that are zero but for
    finitely many symbols, and a product adds them. So products commute, associate and can be undone, and a unit
    without symbols changes nothing; powers go into products and are multiplied; a root is there, for an order that is
    not zero, just of the powers of that order, is told by it and undoes it; and the exponents of two units are equal
    just if those of the quotient are none. -/
theorem terms_freeAbelian (hu : Reachable Double.pow u) (hv : Reachable Double.pow v) (hw : Reachable Double.pow w)
    (j k n : Int) :
    Normal u.terms ∧
    (Set.BijOn exponents {t | Normal t} Set.univ ∧
      exponents (u.multiply v).terms = exponents u.terms + exponents v.terms) ∧
    (u.multiply v).terms = (v.multiply u).terms ∧
    ((u.multiply v).multiply w).terms = (u.multiply (v.multiply w)).terms ∧
    ((u.multiply v).terms = u.terms ↔ v.isDimensionless = true) ∧
    ((u.multiply v).divide v).terms = u.terms ∧
    ((u.multiply v).pow k).terms = ((u.pow k).multiply (v.pow k)).terms ∧
    ((u.pow k).pow j).terms = (u.pow (j * k)).terms ∧
    ((u.root? n).isSome = true ↔ n ≠ 0 ∧ ∃ r, Reachable Double.pow r ∧ (r.pow n).terms = u.terms) ∧
    (∀ r, u.root? n = some r → ∀ r', Reachable Double.pow r' → ((r'.pow n).terms = u.terms ↔ r'.terms = r.terms)) ∧
    (n ≠ 0 → ∃ r, (u.pow n).root? n = some r ∧ r.terms = u.terms) ∧
    (u.terms = v.terms ↔ (u.divide v).isDimensionless = true) := by
  have hnormal := hu.normal
  -- Terms without zeros are equal as soon as they are so as functions, and there the laws are known.
  have heq : ∀ {a b : Measure Double}, Reachable Double.pow a → Reachable Double.pow b →
      exponents a.terms = exponents b.terms → a.terms = b.terms := fun ha hb => ha.normal.eq_of_exponents hb.normal
  have hmultiply := exponents_multiply
  have hpow := exponents_pow
  refine ⟨hnormal, ⟨bijOn_exponents, hmultiply u v⟩, heq (hu.multiply hv) (hv.multiply hu) ?_,
    heq ((hu.multiply hv).multiply hw) (hu.multiply (hv.multiply hw)) ?_, ?_, heq ((hu.multiply hv).divide hv) hu ?_,
    heq ((hu.multiply hv).pow k) ((hu.pow k).multiply (hv.pow k)) ?_, heq ((hu.pow k).pow j) (hu.pow (j * k)) ?_,
    ⟨fun h => ?_, fun ⟨hn, r, _, hr⟩ => ?_⟩, fun r h r' hr' => ⟨fun hpower => ?_, fun hsame => ?_⟩, fun hn => ?_, ?_⟩
  · rw [hmultiply, hmultiply, add_comm]
  · rw [hmultiply, hmultiply, hmultiply, hmultiply, add_assoc]
  · rw [isDimensionless_iff hv.normal]
    constructor
    · intro h
      have hsum := hmultiply u v
      rw [h] at hsum
      exact left_eq_add.mp hsum
    · intro h
      exact heq (hu.multiply hv) hu (by rw [hmultiply, h, add_zero])
  · rw [exponents_divide, hmultiply, add_sub_cancel_right]
  · rw [hpow, hmultiply, hmultiply, hpow, hpow, smul_add]
  · rw [hpow, hpow, hpow, mul_smul]
  · obtain ⟨r, hr⟩ := Option.isSome_iff_exists.mp h
    obtain ⟨hn, hexponents⟩ := exponents_root hr
    have hreachable : Reachable Double.pow r := .root hu hr
    exact ⟨hn, r, hreachable, heq (hreachable.pow n) hu ((hpow r n).trans hexponents)⟩
  · obtain ⟨r', hr', -⟩ := exists_root hn (hr ▸ hpow r n)
    rw [hr']
    rfl
  · obtain ⟨hn, hexponents⟩ := exponents_root h
    refine heq hr' (.root hu h) (smul_right_injective _ hn ?_)
    exact (hpower ▸ (hpow r' n).symm).trans hexponents.symm
  · obtain ⟨-, hexponents⟩ := exponents_root h
    exact heq (hr'.pow n) hu (by rw [hpow, hsame, hexponents])
  · obtain ⟨r, hr, hexponents⟩ := exists_root hn (hpow u n)
    exact ⟨r, hr, heq (.root (hu.pow n) hr) hu hexponents⟩
  · rw [isDimensionless_iff (hu.divide hv).normal, exponents_divide, sub_eq_zero]
    exact ⟨fun h => h ▸ rfl, heq hu hv⟩

/-- The square of an acceleration has a root of order minus two, a metre has none. -/
theorem terms_freeAbelian_acceleration :
    let square : Measure Double := ⟨.ofList [("m", 2), ("s", -4)], 1⟩
    let inverse : Measure Double := ⟨.ofList [("m", -1), ("s", 2)], 1⟩
    Reachable Double.pow square ∧ Reachable Double.pow inverse ∧ Reachable Double.pow (single 1 "m" 1) ∧
    ((square.multiply inverse).divide inverse).terms = square.terms ∧
    ((square.multiply inverse).pow (-3)).terms = ((square.pow (-3)).multiply (inverse.pow (-3))).terms ∧
    (∃ r, square.root? (-2) = some r ∧ inverse.terms = r.terms) ∧ (single 1 "m" 1).root? (-2) = none := by
  intro square inverse
  have hsquare : Reachable Double.pow square := .parsed (s := "m2/s4") (by decide +kernel)
  have hinverse : Reachable Double.pow inverse := .parsed (s := "s2 m-1") (by decide +kernel)
  have hmetre : Reachable Double.pow (single 1 "m" 1) := .parsed (s := "m") (by decide +kernel)
  have hpower : (inverse.pow (-2)).terms = square.terms := by decide +kernel
  obtain ⟨-, -, -, -, -, hcancel, hpow, -, hroot, hunique, -, -⟩ := terms_freeAbelian hsquare hinverse hmetre 1 (-3) (-2)
  obtain ⟨r, hr⟩ := Option.isSome_iff_exists.mp (hroot.mpr ⟨by decide, inverse, hinverse, hpower⟩)
  exact ⟨hsquare, hinverse, hmetre, hcancel, hpow, ⟨r, hr, (hunique r hr inverse hinverse).mp hpower⟩, by decide +kernel⟩

end Concord.Measure
