import Concord.Expr.Basic

/-! The parts of expressions: the names that an expression refers to are its operands, and every part has fewer
    levels than the call that it is an argument of. -/

namespace Concord.Expr

/-- An expression is another one, or an argument within it. -/
inductive Within (e : Expr) : Expr → Prop where
  | self : Within e e
  | argument {name : String} {args : List Expr} {kwargs : List (String × Expr)} {a : Expr} :
      a ∈ args → Within e a → Within e (.call name args kwargs)
  | keyword {name : String} {args : List Expr} {kwargs : List (String × Expr)} {p : String × Expr} :
      p ∈ kwargs → Within e p.2 → Within e (.call name args kwargs)

variable {d name : String} {names : List String} {args : List Expr} {kwargs : List (String × Expr)}

@[simp] theorem within_number {e : Expr} {x : Double} : e.Within (.number x) ↔ e = .number x := by
  constructor
  · rintro ⟨⟩
    rfl
  · rintro rfl
    exact .self

@[simp] theorem within_text {e : Expr} {s : String} : e.Within (.text s) ↔ e = .text s := by
  constructor
  · rintro ⟨⟩
    rfl
  · rintro rfl
    exact .self

@[simp] theorem within_operand {e : Expr} : e.Within (.operand name) ↔ e = .operand name := by
  constructor
  · rintro ⟨⟩
    rfl
  · rintro rfl
    exact .self

theorem within_call {e : Expr} : e.Within (.call name args kwargs) ↔
    e = .call name args kwargs ∨ (∃ a ∈ args, e.Within a) ∨ ∃ p ∈ kwargs, e.Within p.2 := by
  constructor
  · intro h
    cases h with
    | self => exact .inl rfl
    | argument ha h => exact .inr (.inl ⟨_, ha, h⟩)
    | keyword hp h => exact .inr (.inr ⟨_, hp, h⟩)
  · rintro (rfl | ⟨a, ha, h⟩ | ⟨p, hp, h⟩)
    · exact .self
    · exact .argument ha h
    · exact .keyword hp h

theorem Within.trans {a b c : Expr} (h : a.Within b) (h' : b.Within c) : a.Within c := by
  induction h' with
  | self => exact h
  | argument ha _ ih => exact .argument ha ih
  | keyword hp _ ih => exact .keyword hp ih

/-! ### Operands -/

theorem mem_note : d ∈ note names name ↔ d ∈ names ∨ d = name := by
  unfold note
  split
  · rename_i hmem
    exact ⟨.inl, fun h => h.elim id fun heq => heq ▸ hmem⟩
  · simp

mutual

theorem mem_notedIn : ∀ (names : List String) (e : Expr), d ∈ notedIn names e ↔ d ∈ names ∨ (operand d).Within e
  | names, .number x => by simp [notedIn]
  | names, .text s => by simp [notedIn]
  | names, .operand name => by simp [notedIn, mem_note]
  | names, .call name args kwargs => by
    rw [notedIn, mem_notedInKeywords, mem_notedInArguments, within_call, or_assoc]
    simp

theorem mem_notedInArguments : ∀ (names : List String) (es : List Expr),
    d ∈ notedInArguments names es ↔ d ∈ names ∨ ∃ e ∈ es, (operand d).Within e
  | names, [] => by simp [notedInArguments]
  | names, e :: es => by
    rw [notedInArguments, mem_notedInArguments, mem_notedIn, or_assoc]
    simp

theorem mem_notedInKeywords : ∀ (names : List String) (ps : List (String × Expr)),
    d ∈ notedInKeywords names ps ↔ d ∈ names ∨ ∃ p ∈ ps, (operand d).Within p.2
  | names, [] => by simp [notedInKeywords]
  | names, (k, e) :: ps => by
    rw [notedInKeywords, mem_notedInKeywords, mem_notedIn, or_assoc]
    simp

end

/-- An expression refers to the operands within it. -/
theorem mem_operandNames {e : Expr} : d ∈ e.operandNames ↔ (operand d).Within e := by
  rw [operandNames, mem_notedIn]
  simp

/-! ### Levels -/

theorem one_le_height : ∀ e : Expr, 1 ≤ e.height
  | .number _ => Nat.le_refl 1
  | .text _ => Nat.le_refl 1
  | .operand _ => Nat.le_refl 1
  | .call _ _ _ => Nat.le_add_left 1 _

theorem height_le_arguments {a : Expr} : ∀ {es : List Expr}, a ∈ es → a.height ≤ heightOfArguments es
  | e :: es, h => by
    rw [heightOfArguments]
    rcases List.mem_cons.mp h with rfl | h
    · exact Nat.le_max_left _ _
    · exact Nat.le_trans (height_le_arguments h) (Nat.le_max_right _ _)

theorem height_le_keywords {p : String × Expr} : ∀ {ps : List (String × Expr)}, p ∈ ps → p.2.height ≤ heightOfKeywords ps
  | (k, e) :: ps, h => by
    rw [heightOfKeywords]
    rcases List.mem_cons.mp h with rfl | h
    · exact Nat.le_max_left _ _
    · exact Nat.le_trans (height_le_keywords h) (Nat.le_max_right _ _)

theorem height_argument {a : Expr} (h : a ∈ args) : a.height < (call name args kwargs).height :=
  Nat.lt_succ_of_le (Nat.le_trans (height_le_arguments h) (Nat.le_max_left _ _))

theorem height_keyword {p : String × Expr} (h : p ∈ kwargs) : p.2.height < (call name args kwargs).height :=
  Nat.lt_succ_of_le (Nat.le_trans (height_le_keywords h) (Nat.le_max_right _ _))

end Concord.Expr
