import Concord.Proofs.Measure.Exact

/-! Units as they are written: the exponents of the symbols, and the numeric factors as decimals. Whether a text is a
    unit and which symbols it has does not depend on the numbers that the factors are multiplied in; in numbers of
    64 bits this is the reading of units, in rational numbers nothing is rounded. -/

namespace Concord

namespace Decimal

/-- A numeric literal without a sign is `m · 10 ^ e`. -/
def parts (cs : List Char) : Option (Nat × Int) :=
  let whole := cs.takeWhile Char.isDigit
  let (fraction, rest) := splitFraction (cs.dropWhile Char.isDigit)
  if whole.isEmpty && fraction.isEmpty then none
  else (readExponent rest).map fun e => (ofDigits (whole ++ fraction), e - fraction.length)

theorem read_eq_parts (cs : List Char) : read cs = (parts cs).map fun p => ofDecimal p.1 p.2 := by
  unfold read parts
  dsimp only
  split
  · rfl
  · rw [Option.map_map]
    rfl

end Decimal

namespace Measure

/-- A numeric factor, `significand · 10 ^ exponent`. It is not zero. -/
structure Numeral where
  significand : Nat
  exponent : Int
  nonzero : significand ≠ 0

/-- A unit as it is written: exponents under symbols, and numbers with the powers they are taken to. -/
structure Written where
  terms : NameMap Int
  numbers : List (Numeral × Int)

/-! ### Reading -/

/-- The decimal that a factor is. It is neither zero nor infinite in 64 bits. -/
def readNumeral (factor : List Char) : Except Fault Numeral :=
  match Decimal.parts factor with
  | none => .error (.badFactor (String.ofList factor))
  | some (m, e) =>
    if h : (Decimal.ofDecimal m e = 0 || !(Decimal.ofDecimal m e).isFinite) = true then
      .error (.badScale (String.ofList factor))
    else .ok ⟨m, e, fun hm => h (by rw [hm, Decimal.ofDecimal_zero]; decide +kernel)⟩

namespace Written

/-- Adds a factor to the power `sign`. -/
def factor (sign : Int) (w : Written) (factor : List Char) : Except Fault Written :=
  if factor = [] ∨ factor = ['1'] then .ok w
  else if isNumeric factor then (readNumeral factor).map fun n => ⟨w.terms, w.numbers ++ [(n, sign)]⟩
  else (readSymbol factor).map fun p => ⟨raise w.terms p.1 (p.2 * sign), w.numbers⟩

/-- Adds a product to the power `sign`. -/
def product (sign : Int) (w : Written) (cs : List Char) : Except Fault Written :=
  (factors ' ' (caretForStars cs)).foldlM (factor sign) w

/-- Adds what stands around at most one slash. -/
def parts (s : String) (w : Written) : List (List Char) → Except Fault Written
  | [] => .ok w
  | [numerator] => product 1 w numerator
  | numerator :: denominator :: rest => do
    let w ← product (-1) (← product 1 w numerator) denominator
    if rest.isEmpty then .ok w else .error (.manySlashes s)

/-- The unit that a text is, as it is written. -/
def read (s : String) : Except Fault Written :=
  if (Text.trim s.toList).isEmpty then .error .empty
  else (parts s ⟨.empty, []⟩ (Text.split (· == '/') s.toList)).map fun w => ⟨normalize w.terms, w.numbers⟩

end Written

/-! ### Values -/

section
variable (α : Type) [Scalar α]

def Numeral.value (n : Numeral) : α := Scalar.ofDecimal n.significand n.exponent

/-- The product of numbers to their powers. -/
def factorOf (numbers : List (Numeral × Int)) : α :=
  numbers.foldl (fun x n => x * Scalar.power (n.1.value α) n.2) Scalar.one

/-- The unit with its factor multiplied out. -/
def Written.value (w : Written) : Measure α := ⟨w.terms, factorOf α w.numbers⟩

/-- The unit that a text is, its factor multiplied out. -/
def readAs (s : String) : Except Fault (Measure α) := (Written.read s).map (·.value α)

end

theorem readScale_eq (factor : List Char) : readScale factor = (readNumeral factor).map (·.value Double) := by
  unfold readScale readNumeral
  rw [Decimal.read_eq_parts]
  cases Decimal.parts factor with
  | none => rfl
  | some p =>
    dsimp only [Option.map_some]
    split <;> rfl

theorem factorOf_concat {α : Type} [Scalar α] (numbers : List (Numeral × Int)) (n : Numeral) (k : Int) :
    factorOf α (numbers ++ [(n, k)]) = factorOf α numbers * Scalar.power (n.value α) k := by
  rw [factorOf, List.foldl_append]
  rfl

theorem applyFactor_value (sign : Int) (w : Written) (factor : List Char) :
    applyFactor sign (w.value Double) factor = (w.factor sign factor).map (·.value Double) := by
  unfold applyFactor Written.factor
  split
  · rfl
  · split
    · rw [readScale_eq, map_map, map_map]
      refine congrArg (Except.map · _) (funext fun n => ?_)
      exact congrArg (Measure.mk w.terms) (factorOf_concat w.numbers n sign).symm
    · rw [map_map]
      rfl

/-- A run of steps on the written form is the run on the values. -/
theorem foldlM_value {f : Written → List Char → Except Fault Written}
    {g : Measure Double → List Char → Except Fault (Measure Double)}
    (h : ∀ w cs, g (w.value Double) cs = (f w cs).map (·.value Double)) :
    ∀ (l : List (List Char)) (w : Written), l.foldlM g (w.value Double) = (l.foldlM f w).map (·.value Double)
  | [], _ => rfl
  | cs :: l, w => by
    rw [List.foldlM_cons, List.foldlM_cons, h]
    cases f w cs with
    | error e => rfl
    | ok w' => exact foldlM_value h l w'

theorem applyProduct_value (sign : Int) (w : Written) (cs : List Char) :
    applyProduct sign (w.value Double) cs = (w.product sign cs).map (·.value Double) :=
  foldlM_value (applyFactor_value sign) _ w

theorem applyParts_value (s : String) (w : Written) (parts : List (List Char)) :
    applyParts s (w.value Double) parts = (w.parts s parts).map (·.value Double) := by
  cases parts with
  | nil => rfl
  | cons numerator rest =>
    cases rest with
    | nil => exact applyProduct_value 1 w numerator
    | cons denominator rest =>
      rw [applyParts, Written.parts, applyProduct_value]
      cases w.product 1 numerator with
      | error e => rfl
      | ok w =>
        dsimp only [Except.map, bind, Except.bind]
        rw [applyProduct_value]
        cases w.product (-1) denominator with
        | error e => rfl
        | ok w =>
          dsimp only [Except.map]
          split <;> rfl

/-- In numbers of 64 bits this is the reading of units. -/
theorem readAs_double : readAs Double = read := by
  funext s
  unfold readAs read Written.read
  split
  · rfl
  · have hparts := applyParts_value s ⟨.empty, []⟩ (Text.split (· == '/') s.toList)
    change applyParts s unity _ = _ at hparts
    rw [hparts, map_map, map_map]
    rfl

/-- A text is a unit in all numbers or in none, and its symbols are the same. -/
theorem readAs_terms (α β : Type) [Scalar α] [Scalar β] (s : String) :
    (readAs α s).map (·.terms) = (readAs β s).map (·.terms) := by
  unfold readAs
  rw [map_map, map_map]
  rfl

/-! ### Exact factors -/

theorem Numeral.value_ne_zero (n : Numeral) : n.value ℚ ≠ 0 := by
  have hten : (10 : ℚ) ≠ 0 := by norm_num
  exact mul_ne_zero (Nat.cast_ne_zero.mpr n.nonzero) (zpow_ne_zero n.exponent hten)

theorem factorOf_ne_zero (numbers : List (Numeral × Int)) : factorOf ℚ numbers ≠ 0 := by
  induction numbers using List.reverseRecOn with
  | nil =>
    have hone : factorOf ℚ [] = 1 := Scalar.one_rat
    exact hone ▸ one_ne_zero
  | append_singleton numbers n ih =>
    rw [factorOf_concat, Scalar.power_rat]
    exact mul_ne_zero ih (zpow_ne_zero _ n.1.value_ne_zero)

/-- The exact factor of a unit in text is not zero: the conversion can be undone. -/
theorem scale_ne_zero_of_readAs {s : String} {u : Measure ℚ} (h : readAs ℚ s = .ok u) : u.scale ≠ 0 := by
  obtain ⟨w, -, rfl⟩ := map_eq_ok.mp h
  exact factorOf_ne_zero w.numbers

end Measure
end Concord
