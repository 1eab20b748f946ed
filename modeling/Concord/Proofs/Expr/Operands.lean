import Concord.Proofs.Expr.Nesting

/-! Reading atoms and operations from their tokens, and how deep the operands are nested there. -/

namespace Concord

namespace Expr

variable {e left right : Expr} {name op : String} {args : List Expr} {kwargs : List (String × Expr)}

/-! ### Depth -/

/-- The greatest of some depths. -/
def deepest (depths : List Nat) : Nat := depths.foldr max 0

/-- The depth of a call, given those of its arguments. -/
def callDepth (name : String) (args kwargs : List Nat) : Nat :=
  match isOperator name && kwargs.isEmpty, args with
  | true, [only] => only + 2
  | true, [left, right] => if name = "^" then max left (right + 1) + 1 else max left right + 1
  | _, _ => deepest (args ++ kwargs) + 1

mutual

/-- How deep signed operands are nested in the canonical text of an expression. -/
def depth : Expr → Nat
  | .number x => if x.isNegative then 2 else 1
  | .text _ => 1
  | .operand _ => 1
  | .call name args kwargs => callDepth name (depthsOfArguments args) (depthsOfKeywords kwargs)

def depthsOfArguments : List Expr → List Nat
  | [] => []
  | e :: es => depth e :: depthsOfArguments es

def depthsOfKeywords : List (String × Expr) → List Nat
  | [] => []
  | (_, e) :: rest => depth e :: depthsOfKeywords rest

end

theorem depthsOfArguments_eq : ∀ es : List Expr, depthsOfArguments es = es.map depth
  | [] => rfl
  | e :: es => by rw [depthsOfArguments, depthsOfArguments_eq es, List.map_cons]

theorem depthsOfKeywords_eq : ∀ ps : List (String × Expr), depthsOfKeywords ps = ps.map fun p => p.2.depth
  | [] => rfl
  | (k, e) :: ps => by rw [depthsOfKeywords, depthsOfKeywords_eq ps, List.map_cons]

theorem depth_negative : (apply "-" [e]).depth = e.depth + 2 := by
  rw [apply, depth, depthsOfArguments_eq, depthsOfKeywords_eq]
  rfl

theorem depth_power : (apply "^" [left, right]).depth = max left.depth (right.depth + 1) + 1 := by
  rw [apply, depth, depthsOfArguments_eq, depthsOfKeywords_eq]
  rfl

theorem depth_binary (hop : isOperator op = true) (hne : op ≠ "^") :
    (apply op [left, right]).depth = max left.depth right.depth + 1 := by
  rw [apply, depth, depthsOfArguments_eq, depthsOfKeywords_eq]
  unfold callDepth
  rw [hop]
  exact if_neg hne

theorem depth_call (h : isOperator name = false) :
    (Expr.call name args kwargs).depth = deepest (args.map depth ++ kwargs.map fun p => p.2.depth) + 1 := by
  rw [depth, depthsOfArguments_eq, depthsOfKeywords_eq]
  unfold callDepth
  rw [h]
  rfl

/-! ### First tokens -/

/-- A number of negative sign, which is written with a sign. -/
def IsSigned (e : Expr) : Prop := ∃ x, e = .number x ∧ x.isNegative = true

theorem not_isSigned_call : ¬(call name args kwargs).IsSigned := by
  rintro ⟨x, heq, -⟩
  cases heq

theorem spell_head (h : e.Formed) :
    ∃ t ts, e.spell = t :: ts ∧ t ≠ .rightParen ∧ t ≠ .stop ∧ (¬e.IsSigned → Parser.isSign t = false) := by
  cases h with
  | @number x _ =>
    rw [spell]
    split
    · rename_i hsign
      exact ⟨_, _, rfl, by simp, by simp, fun hnot => absurd ⟨x, rfl, hsign⟩ hnot⟩
    · exact ⟨_, _, rfl, by simp, by simp, fun _ => rfl⟩
  | text s => exact ⟨_, _, by rw [spell], by simp, by simp, fun _ => rfl⟩
  | operand _ => exact ⟨_, _, by rw [spell], by simp, by simp, fun _ => rfl⟩
  | negative _ _ => exact ⟨_, _, spell_negative, by simp, by simp, fun _ => rfl⟩
  | binary hop _ _ => exact ⟨_, _, spell_binary hop, by simp, by simp, fun _ => rfl⟩
  | call hname _ _ _ _ => exact ⟨_, _, spell_call (not_isOperator hname), by simp, by simp, fun _ => rfl⟩

end Expr

namespace Parser

open Concord.Expr

variable {last fuel depth : Nat} {e left right : Expr} {front rest : List Spanned}

/-! ### One expression -/

/-- What may follow an operand. -/
structure Follows (rest : List Spanned) : Prop where
  paren : peek rest ≠ .leftParen
  caret : peek rest ≠ .caret

/-- An expression is read from its tokens, as an operand and, unless it has a sign, as an atom. -/
structure Reparses (e : Expr) : Prop where
  unary : ∀ {last fuel depth : Nat} {front rest : List Spanned}, front.map (·.token) = e.spell → 8 * front.length ≤ fuel →
    depth ≤ depthLimit → Follows rest → Yields (depth + e.depth) e rest (unary last fuel depth (front ++ rest))
  primary : ¬e.IsSigned → ∀ {last fuel depth : Nat} {front rest : List Spanned}, front.map (·.token) = e.spell →
    8 * front.length ≤ fuel + 2 → depth ≤ depthLimit → peek rest ≠ .leftParen →
    Yields (depth + e.depth - 1) e rest (primary last fuel depth (front ++ rest))

theorem one_le_depth (h : e.Formed) : 1 ≤ e.depth := by
  cases h with
  | number _ =>
    rw [Expr.depth]
    split <;> decide
  | text s => rw [Expr.depth]
  | operand _ => rw [Expr.depth]
  | negative _ _ =>
    rw [depth_negative]
    omega
  | @binary op _ _ hop _ _ =>
    by_cases hne : op = "^"
    · subst hne
      rw [depth_power]
      omega
    · rw [depth_binary hop hne]
      omega
  | call hname _ _ _ _ =>
    rw [depth_call (not_isOperator hname)]
    omega

/-- An atom is an operand. -/
theorem reparses_atom (h : e.Formed) (hsigned : ¬e.IsSigned)
    (hprimary : ∀ {last fuel depth : Nat} {front rest : List Spanned}, front.map (·.token) = e.spell →
      8 * front.length ≤ fuel + 2 → depth ≤ depthLimit → peek rest ≠ .leftParen →
      Yields (depth + e.depth - 1) e rest (primary last fuel depth (front ++ rest))) : Reparses e where
  primary _ := hprimary
  unary := by
    intro last fuel depth front rest hfront hfuel hdepth hfollows
    obtain ⟨t, ts, hspell, -, -, hsign⟩ := spell_head h
    have hpos := one_le_depth h
    cases front with
    | nil =>
      rw [hspell] at hfront
      cases hfront
    | cons s front =>
      have hpeek : peek (s :: front ++ rest) = t := by
        rw [hspell] at hfront
        exact (List.cons.inj hfront).1
      obtain ⟨f, rfl⟩ : ∃ f, fuel = f + 2 := ⟨fuel - 2, by simp at hfuel; omega⟩
      refine unary_plain hdepth (hpeek ▸ hsign hsigned) (by omega) fun hlt => power_single hfollows.caret ?_
      rw [show depth + e.depth = depth + 1 + e.depth - 1 by omega]
      exact hprimary hfront hfuel hlt hfollows.paren

theorem reparses_number {x : Double} (h : x.isNaN = false) : Reparses (.number x) := by
  by_cases hsign : x.isNegative = true
  · have hspell : (Expr.number x).spell = [.minus, .number (-x)] := by rw [spell, if_pos hsign]
    have hdepth : (Expr.number x).depth = 2 := by rw [Expr.depth, if_pos hsign]
    have hnegated : negated (.number (-x)) = .number x := by rw [negated, Double.neg_neg]
    refine ⟨?_, fun hnot => absurd ⟨x, rfl, hsign⟩ hnot⟩
    intro last fuel depth front rest hfront hfuel hle hfollows
    rw [hspell] at hfront
    obtain ⟨minus, front, rfl, hminus, hfront⟩ := List.map_eq_cons_iff.mp hfront
    obtain ⟨number, rfl, hnumber⟩ := List.map_eq_singleton_iff.mp hfront
    obtain ⟨f, rfl⟩ : ∃ f, fuel = f + 4 := ⟨fuel - 4, by simp at hfuel; omega⟩
    rw [hdepth, ← hnegated, List.cons_append, List.singleton_append]
    refine unary_minus hle hminus (by omega) fun hlt => ?_
    refine unary_plain hlt ?_ (by omega) fun hlt' => power_single hfollows.caret ?_
    · rw [peek_cons, hnumber]
      rfl
    · rw [primary_number hnumber]
      exact yields_ok hlt'
  · have hspell : (Expr.number x).spell = [.number x] := by rw [spell, if_neg hsign]
    have hdepth : (Expr.number x).depth = 1 := by rw [Expr.depth, if_neg hsign]
    have hplain : ¬(Expr.number x).IsSigned := by
      rintro ⟨y, heq, hy⟩
      cases heq
      exact hsign hy
    refine reparses_atom (.number h) hplain ?_
    intro last fuel depth front rest hfront hfuel hle _
    rw [hspell] at hfront
    obtain ⟨t, rfl, ht⟩ := List.map_eq_singleton_iff.mp hfront
    obtain ⟨f, rfl⟩ : ∃ f, fuel = f + 1 := ⟨fuel - 1, by simp at hfuel; omega⟩
    rw [hdepth, List.singleton_append, primary_number ht]
    exact yields_ok hle

theorem reparses_text (s : String) : Reparses (.text s) := by
  refine reparses_atom (.text s) (fun ⟨y, heq, _⟩ => by cases heq) ?_
  intro last fuel depth front rest hfront hfuel hle _
  rw [spell] at hfront
  obtain ⟨t, rfl, ht⟩ := List.map_eq_singleton_iff.mp hfront
  obtain ⟨f, rfl⟩ : ∃ f, fuel = f + 1 := ⟨fuel - 1, by simp at hfuel; omega⟩
  rw [Expr.depth, List.singleton_append, primary_text ht]
  exact yields_ok hle

theorem reparses_operand {name : String} (hname : IsName name) : Reparses (.operand name) := by
  refine reparses_atom (.operand hname) (fun ⟨y, heq, _⟩ => by cases heq) ?_
  intro last fuel depth front rest hfront hfuel hle hnext
  rw [spell] at hfront
  obtain ⟨t, rfl, ht⟩ := List.map_eq_singleton_iff.mp hfront
  obtain ⟨f, rfl⟩ : ∃ f, fuel = f + 1 := ⟨fuel - 1, by simp at hfuel; omega⟩
  rw [Expr.depth, List.singleton_append, primary_operand ht hnext]
  exact yields_ok hle

/-! ### Operations -/

/-- Tokens in parentheses. -/
theorem split_parenthesized {tokens : List Token} (h : front.map (·.token) = .leftParen :: tokens ++ [.rightParen]) :
    ∃ first inner final, front = first :: (inner ++ [final]) ∧ first.token = .leftParen ∧
      inner.map (·.token) = tokens ∧ final.token = .rightParen := by
  obtain ⟨first, rest, rfl, hfirst, hrest⟩ := List.map_eq_cons_iff.mp h
  obtain ⟨inner, final, rfl, hinner, hfinal⟩ := List.map_eq_append_iff.mp hrest
  obtain ⟨t, rfl, ht⟩ := List.map_eq_singleton_iff.mp hfinal
  exact ⟨first, inner, t, rfl, hfirst, hinner, ht⟩

/-- The end of an expression, by a closing parenthesis, a comma or the end of the text. -/
structure Ends (rest : List Spanned) : Prop where
  follows : Follows rest
  sum : additiveOperator (peek rest) = none
  product : multiplicativeOperator (peek rest) = none

theorem ends_of_token {t : Spanned} (h : t.token = .rightParen ∨ t.token = .comma ∨ t.token = .stop) : Ends (t :: rest) := by
  rcases h with h | h | h <;> exact ⟨⟨by simp [h], by simp [h]⟩, by rw [peek_cons, h]; rfl, by rw [peek_cons, h]; rfl⟩

theorem reparses_negative (he : e.Formed) (hnot : ∀ x, e ≠ .number x) (ih : Reparses e) : Reparses (apply "-" [e]) := by
  refine reparses_atom (.negative he hnot) not_isSigned_call ?_
  intro last fuel depth front rest hfront hfuel hle _
  rw [spell_negative] at hfront
  obtain ⟨first, inner, final, rfl, hfirst, hinner, hfinal⟩ := split_parenthesized hfront
  obtain ⟨minus, inner, rfl, hminus, hinner⟩ := List.map_eq_cons_iff.mp hinner
  simp only [List.length_cons, List.length_append, List.length_nil] at hfuel
  obtain ⟨f, rfl⟩ : ∃ f, fuel = f + 5 := ⟨fuel - 5, by omega⟩
  have hnegated : negated e = apply "-" [e] := by
    cases e with
    | number x => exact absurd rfl (hnot x)
    | _ => rfl
  have hends : Ends (final :: rest) := ends_of_token (.inl hfinal)
  rw [depth_negative, ← hnegated, show depth + (e.depth + 2) - 1 = depth + 1 + e.depth by omega]
  simp only [List.cons_append, List.append_assoc, List.nil_append]
  refine primary_parenthesized hfirst hfinal (additive_single hends.sum hends.product ?_)
  exact unary_minus hle hminus (by omega) fun hlt => ih.unary hinner (by omega) hlt hends.follows

/-- The tokens of two operands and what is between them, in parentheses. -/
theorem split_operation {between : Token} {tokens tokens' : List Token}
    (h : front.map (·.token) = .leftParen :: tokens ++ between :: tokens' ++ [.rightParen]) :
    ∃ first inner mid inner' final, front = first :: (inner ++ mid :: (inner' ++ [final])) ∧
      first.token = .leftParen ∧ inner.map (·.token) = tokens ∧ mid.token = between ∧ inner'.map (·.token) = tokens' ∧
      final.token = .rightParen := by
  rw [List.cons_append] at h
  obtain ⟨first, inner, final, rfl, hfirst, hinner, hfinal⟩ := split_parenthesized h
  obtain ⟨left, right, rfl, hleft, hright⟩ := List.map_eq_append_iff.mp hinner
  obtain ⟨mid, right, rfl, hmid, hright⟩ := List.map_eq_cons_iff.mp hright
  exact ⟨first, left, mid, right, final, by simp, hfirst, hleft, hmid, hright, hfinal⟩

theorem reparses_power (hl : left.Formed) (hr : right.Formed) (hsigned : ¬left.IsSigned) (ihl : Reparses left)
    (ihr : Reparses right) : Reparses (apply "^" [left, right]) := by
  refine reparses_atom (.binary rfl hl hr) not_isSigned_call ?_
  intro last fuel depth front rest hfront hfuel hle _
  rw [spell_binary rfl] at hfront
  obtain ⟨first, inner, mid, inner', final, rfl, hfirst, hinner, hmid, hinner', hfinal⟩ := split_operation hfront
  simp only [List.length_cons, List.length_append, List.length_nil] at hfuel
  obtain ⟨f, rfl⟩ : ∃ f, fuel = f + 6 := ⟨fuel - 6, by omega⟩
  have hends : Ends (final :: rest) := ends_of_token (.inl hfinal)
  have hpos := one_le_depth hl
  obtain ⟨t, ts, hspell, -, -, hsign⟩ := spell_head hl
  have hpeek : ∀ ts, peek (inner ++ ts) = t := by
    intro ts'
    rw [hspell] at hinner
    obtain ⟨s, inner, rfl, hs, -⟩ := List.map_eq_cons_iff.mp hinner
    exact hs
  rw [depth_power, show depth + (max left.depth (right.depth + 1) + 1) - 1 =
    max (depth + 1 + left.depth - 1) (depth + 1 + right.depth) by omega]
  simp only [List.cons_append, List.append_assoc, List.nil_append]
  refine primary_parenthesized hfirst hfinal (additive_single hends.sum hends.product ?_)
  refine unary_plain hle (by rw [hpeek]; exact hsign hsigned) (by omega) fun hlt => ?_
  refine power_pair hmid ?_ (ihr.unary hinner' (by omega) hlt hends.follows)
  exact ihl.primary hsigned hinner (by omega) hlt (by rw [peek_cons, hmid]; decide)

/-- An operator other than a power stands in a sum or in a product. -/
theorem operatorToken_class {op : String} (hop : isOperator op = true) (hne : op ≠ "^") :
    operatorToken op ≠ .leftParen ∧ operatorToken op ≠ .caret ∧
      (additiveOperator (operatorToken op) = some op ∧ multiplicativeOperator (operatorToken op) = none ∨
        multiplicativeOperator (operatorToken op) = some op) := by
  rcases isOperator_iff.mp hop with rfl | rfl | rfl | rfl | rfl
  · exact ⟨by decide, by decide, .inl ⟨rfl, rfl⟩⟩
  · exact ⟨by decide, by decide, .inl ⟨rfl, rfl⟩⟩
  · exact ⟨by decide, by decide, .inr rfl⟩
  · exact ⟨by decide, by decide, .inr rfl⟩
  · exact absurd rfl hne

theorem reparses_binary {op : String} (hop : isOperator op = true) (hne : op ≠ "^") (hl : left.Formed) (hr : right.Formed)
    (ihl : Reparses left) (ihr : Reparses right) : Reparses (apply op [left, right]) := by
  refine reparses_atom (.binary hop hl hr) not_isSigned_call ?_
  intro last fuel depth front rest hfront hfuel hle _
  rw [spell_binary hop] at hfront
  obtain ⟨first, inner, mid, inner', final, rfl, hfirst, hinner, hmid, hinner', hfinal⟩ := split_operation hfront
  simp only [List.length_cons, List.length_append, List.length_nil] at hfuel
  obtain ⟨f, rfl⟩ : ∃ f, fuel = f + 5 := ⟨fuel - 5, by omega⟩
  have hends : Ends (final :: rest) := ends_of_token (.inl hfinal)
  rw [depth_binary hop hne, show depth + (max left.depth right.depth + 1) - 1 =
    max (depth + left.depth) (depth + right.depth) by omega]
  simp only [List.cons_append, List.append_assoc, List.nil_append]
  refine primary_parenthesized hfirst hfinal ?_
  have hright : Yields (depth + right.depth) right (final :: rest) (unary last (f + 1) depth (inner' ++ final :: rest)) :=
    ihr.unary hinner' (by omega) hle hends.follows
  obtain ⟨hparen, hcaret, hclass⟩ := operatorToken_class hop hne
  rw [← hmid] at hparen hcaret hclass
  have hleft : Yields (depth + left.depth) left (mid :: (inner' ++ final :: rest))
      (unary last (f + 2) depth (inner ++ mid :: (inner' ++ final :: rest))) :=
    ihl.unary hinner (by omega) hle ⟨hparen, hcaret⟩
  rcases hclass with ⟨hadd, hmul⟩ | hmul
  · exact additive_sum hadd hmul hends.sum hends.product hleft hright
  · exact additive_product hmul hends.sum hends.product hleft hright

end Parser
end Concord
