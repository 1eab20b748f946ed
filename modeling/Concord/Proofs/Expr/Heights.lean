import Concord.Proofs.Expr.Accepted
import Concord.Proofs.Expr.Lexemes

/-! How high expressions are that are read from texts. The bound on the nesting of operands bounds the levels of an
    expression, except for those down the left of sums and products: each of their operators adds a level without
    nesting its operands, so there are as many as the text has operators. -/

namespace Concord

namespace Expr

variable {name : String} {args : List Expr} {kwargs : List (String × Expr)} {e left right : Expr}

/-! ### Rungs -/

/-- The operators of sums and products, which go on from the left. -/
def chaining : List String := ["+", "-", "*", "/"]

/-- A sum or a product, which may go on from another one on its left. -/
def chains (name : String) (args : List Expr) : Bool := args.length == 2 && chaining.contains name

mutual

/-- The number of levels of an expression, where a sum or a product is on one level with its left operand. -/
def rungs : Expr → Nat
  | .call name args kwargs => max (rungsOfOperands (chains name args) args) (rungsOfKeywords kwargs + 1)
  | _ => 1

/-- The levels of a call from its operands on, of which the first may be on the level of the call. -/
def rungsOfOperands (level : Bool) : List Expr → Nat
  | [] => 0
  | e :: es => max (rungs e + if level then 0 else 1) (rungsOfArguments es + 1)

def rungsOfArguments : List Expr → Nat
  | [] => 0
  | e :: es => max (rungs e) (rungsOfArguments es)

def rungsOfKeywords : List (String × Expr) → Nat
  | [] => 0
  | (_, e) :: rest => max (rungs e) (rungsOfKeywords rest)

end

theorem one_le_rungs : ∀ e : Expr, 1 ≤ e.rungs
  | .number _ => Nat.le_refl 1
  | .text _ => Nat.le_refl 1
  | .operand _ => Nat.le_refl 1
  | .call _ _ _ => by
    rw [rungs]
    omega

/-- No operand is more than one level below a call. -/
theorem rungs_call_le (name : String) (args : List Expr) (kwargs : List (String × Expr)) :
    (call name args kwargs).rungs ≤ max (rungsOfArguments args) (rungsOfKeywords kwargs) + 1 := by
  rw [rungs]
  cases args with
  | nil =>
    rw [rungsOfOperands]
    omega
  | cons e es =>
    rw [rungsOfOperands, rungsOfArguments]
    split <;> omega

theorem rungs_apply_one (name : String) (e : Expr) : (apply name [e]).rungs = e.rungs + 1 := by
  have hchains : chains name [e] = false := rfl
  rw [apply, rungs, hchains, rungsOfOperands, rungsOfArguments, rungsOfKeywords, if_neg Bool.false_ne_true]
  omega

theorem rungs_apply_two (h : name ∉ chaining) (left right : Expr) :
    (apply name [left, right]).rungs = max left.rungs right.rungs + 1 := by
  have hchains : chains name [left, right] = false := by
    rw [chains, Bool.and_eq_false_iff]
    exact .inr (Bool.eq_false_iff.mpr fun hcontains => h (List.contains_iff_mem.mp hcontains))
  rw [apply, rungs, hchains, rungsOfOperands, rungsOfArguments, rungsOfArguments, rungsOfKeywords,
    if_neg Bool.false_ne_true]
  omega

theorem rungs_chain (h : name ∈ chaining) (left right : Expr) :
    (apply name [left, right]).rungs = max left.rungs (right.rungs + 1) := by
  have hleft := one_le_rungs left
  have hchains : chains name [left, right] = true := List.contains_iff_mem.mpr h
  rw [apply, rungs, hchains, rungsOfOperands, rungsOfArguments, rungsOfArguments, rungsOfKeywords, if_pos rfl]
  omega

theorem height_apply_one (name : String) (e : Expr) : (apply name [e]).height = e.height + 1 := by
  simp [apply, height, heightOfArguments, heightOfKeywords]

theorem height_apply_two (name : String) (left right : Expr) :
    (apply name [left, right]).height = max left.height right.height + 1 := by
  simp [apply, height, heightOfArguments, heightOfKeywords]

end Expr

namespace Grammar

open Concord.Expr

theorem Sign.symbol_mem : ∀ sign : Sign, sign.symbol ∈ chaining
  | .plus => by decide
  | .minus => by decide

theorem Scale.symbol_mem : ∀ scale : Scale, scale.symbol ∈ chaining
  | .times => by decide
  | .divided => by decide

/-- A sign in front changes a number, or puts an operation on top, or does nothing. -/
theorem Sign.before_cases (sign : Sign) (e : Expr) :
    sign.before e = e ∨ (∃ x y, e = .number x ∧ sign.before e = .number y) ∨ sign.before e = .apply "-" [e] := by
  cases sign with
  | plus => exact .inl rfl
  | minus =>
    cases e with
    | number x => exact .inr (.inl ⟨x, -x, rfl, rfl⟩)
    | _ => exact .inr (.inr rfl)

theorem Sign.rungs_before_le (sign : Sign) (e : Expr) : (sign.before e).rungs ≤ e.rungs + 1 := by
  rcases sign.before_cases e with heq | ⟨x, y, rfl, heq⟩ | heq <;> rw [heq]
  · exact Nat.le_succ _
  · exact Nat.le_succ _
  · exact (rungs_apply_one "-" e).le

theorem Sign.height_before_le (sign : Sign) (e : Expr) : (sign.before e).height ≤ e.height + 1 := by
  rcases sign.before_cases e with heq | ⟨x, y, rfl, heq⟩ | heq <;> rw [heq]
  · exact Nat.le_succ _
  · exact Nat.le_succ _
  · exact (height_apply_one "-" e).le

theorem Operand.one_le_nesting (u : Operand) : 1 ≤ u.nesting := by
  cases u <;> exact Nat.le_add_left 1 _

/-! ### Rungs of derivations -/

mutual

/-- Each nested operand has at most four levels: a term on the right of a sum, a factor on the right of a product, a
    power, and a call. -/
theorem Sum.rungs_le : ∀ s : Sum, s.expr.rungs + 1 ≤ 4 * s.nesting
  | .mk first rest => by
    have hfirst := first.rungs_le
    rw [Sum.expr, Sum.nesting]
    exact rest.rungs_after_le (by omega) (by omega)

theorem Terms.rungs_after_le : ∀ (ts : Terms) {left : Expr} {bound : Nat}, left.rungs + 1 ≤ bound →
    4 * ts.nesting ≤ bound → (ts.after left).rungs + 1 ≤ bound
  | .nil, _, _, hleft, _ => by
    rw [Terms.after]
    exact hleft
  | .cons sign term rest, left, bound, hleft, hbound => by
    have hterm := term.rungs_le
    rw [Terms.nesting] at hbound
    rw [Terms.after]
    refine rest.rungs_after_le ?_ (by omega)
    rw [rungs_chain sign.symbol_mem]
    omega

theorem Product.rungs_le : ∀ p : Product, p.expr.rungs + 2 ≤ 4 * p.nesting
  | .mk first rest => by
    have hfirst := first.rungs_le
    rw [Product.expr, Product.nesting]
    exact rest.rungs_after_le (by omega) (by omega)

theorem Factors.rungs_after_le : ∀ (fs : Factors) {left : Expr} {bound : Nat}, left.rungs + 2 ≤ bound →
    4 * fs.nesting ≤ bound → (fs.after left).rungs + 2 ≤ bound
  | .nil, _, _, hleft, _ => by
    rw [Factors.after]
    exact hleft
  | .cons scale factor rest, left, bound, hleft, hbound => by
    have hfactor := factor.rungs_le
    rw [Factors.nesting] at hbound
    rw [Factors.after]
    refine rest.rungs_after_le ?_ (by omega)
    rw [rungs_chain scale.symbol_mem]
    omega

theorem Operand.rungs_le : ∀ u : Operand, u.expr.rungs + 3 ≤ 4 * u.nesting
  | .signed sign u => by
    have hu := u.rungs_le
    have hsign := sign.rungs_before_le u.expr
    rw [Operand.expr, Operand.nesting]
    omega
  | .power p => by
    have hp := p.rungs_le
    rw [Operand.expr, Operand.nesting]
    omega

theorem Power.rungs_le : ∀ p : Power, p.expr.rungs ≤ 4 * p.nesting + 1
  | .atom base => by
    have hbase := base.rungs_le
    rw [Power.expr, Power.nesting]
    omega
  | .raised base exponent => by
    have hbase := base.rungs_le
    have hexponent := exponent.rungs_le
    rw [Power.expr, Power.nesting, rungs_apply_two (by decide)]
    omega

theorem Atom.rungs_le : ∀ a : Atom, a.expr.rungs ≤ max 1 (4 * a.nesting)
  | .number _ => Nat.le_max_left _ _
  | .text _ => Nat.le_max_left _ _
  | .name _ => Nat.le_max_left _ _
  | .call name args => by
    obtain ⟨hargs, hkwargs⟩ := args.rungs_le
    have hcall := rungs_call_le name args.args args.kwargs
    rw [Atom.expr, Atom.nesting]
    omega
  | .parens s => by
    have hs := s.rungs_le
    rw [Atom.expr, Atom.nesting]
    omega

theorem Arguments.rungs_le : ∀ a : Arguments,
    rungsOfArguments a.args ≤ 4 * a.nesting - 1 ∧ rungsOfKeywords a.kwargs ≤ 4 * a.nesting - 1
  | .positional value rest => by
    have hvalue := value.rungs_le
    obtain ⟨hargs, hkwargs⟩ := rest.rungs_le
    rw [Arguments.args, Arguments.kwargs, Arguments.nesting, rungsOfArguments]
    omega
  | .keywords rest => by
    have hrest := rest.rungs_le
    rw [Arguments.args, Arguments.kwargs, Arguments.nesting, rungsOfArguments]
    exact ⟨Nat.zero_le _, hrest⟩

theorem Keywords.rungs_le {keys : List String} : ∀ ks : Keywords keys, rungsOfKeywords ks.kwargs ≤ 4 * ks.nesting - 1
  | .nil => Nat.zero_le _
  | .cons key value rest _ => by
    have hvalue := value.rungs_le
    have hrest := rest.rungs_le
    rw [Keywords.kwargs, Keywords.nesting, rungsOfKeywords]
    omega

end

/-! ### Heights of derivations -/

/-- The tokens of signs, and of the operators of sums and products. -/
def isChaining : Token → Bool
  | .plus => true
  | .minus => true
  | .star => true
  | .slash => true
  | _ => false

/-- How many signs and operators of sums and products there are among some tokens. -/
def operators (tokens : List Token) : Nat := tokens.countP isChaining

@[simp] theorem operators_nil : operators [] = 0 := rfl

@[simp] theorem operators_append (tokens tokens' : List Token) :
    operators (tokens ++ tokens') = operators tokens + operators tokens' := List.countP_append

@[simp] theorem operators_sign (sign : Sign) (tokens : List Token) :
    operators (sign.token :: tokens) = operators tokens + 1 := by
  cases sign <;> exact List.countP_cons_of_pos rfl

@[simp] theorem operators_scale (scale : Scale) (tokens : List Token) :
    operators (scale.token :: tokens) = operators tokens + 1 := by
  cases scale <;> exact List.countP_cons_of_pos rfl

theorem operators_other {token : Token} (h : isChaining token = false) (tokens : List Token) :
    operators (token :: tokens) = operators tokens := List.countP_cons_of_neg (by simp [h])

theorem operators_intercalate : ∀ parts : List (List Token),
    operators ([Token.comma].intercalate parts) = (parts.map operators).sum
  | [] => rfl
  | [part] => by rw [List.intercalate_singleton, List.map_singleton, List.sum_singleton]
  | part :: next :: parts => by
    rw [List.intercalate_cons_cons, operators_append, operators_append, operators_other rfl, operators_nil,
      operators_intercalate (next :: parts), Nat.add_zero]
    exact List.sum_cons.symm

mutual

/-- Each nested operand has at most two levels, a power and a call, besides one for each operator in it. -/
theorem Sum.height_le : ∀ s : Sum, s.expr.height + 1 ≤ 2 * s.nesting + operators s.tokens
  | .mk first rest => by
    have hfirst := first.height_le
    have hrest := rest.height_after_le first.expr (2 * max first.nesting rest.nesting + operators first.tokens)
      (by omega) (by omega)
    rw [Sum.expr, Sum.nesting, Sum.tokens, operators_append]
    omega

theorem Terms.height_after_le : ∀ (ts : Terms) (left : Expr) (bound : Nat), left.height + 1 ≤ bound →
    2 * ts.nesting ≤ bound → (ts.after left).height + 1 ≤ bound + operators ts.tokens
  | .nil, _, _, hleft, _ => by
    rw [Terms.after, Terms.tokens]
    exact hleft
  | .cons sign term rest, left, bound, hleft, hbound => by
    have hterm := term.height_le
    have happly := height_apply_two sign.symbol left term.expr
    rw [Terms.nesting] at hbound
    have hrest := rest.height_after_le (.apply sign.symbol [left, term.expr]) (bound + operators term.tokens + 1)
      (by omega) (by omega)
    rw [Terms.after, Terms.tokens, operators_sign, operators_append]
    omega

theorem Product.height_le : ∀ p : Product, p.expr.height + 1 ≤ 2 * p.nesting + operators p.tokens
  | .mk first rest => by
    have hfirst := first.height_le
    have hrest := rest.height_after_le first.expr (2 * max first.nesting rest.nesting + operators first.tokens)
      (by omega) (by omega)
    rw [Product.expr, Product.nesting, Product.tokens, operators_append]
    omega

theorem Factors.height_after_le : ∀ (fs : Factors) (left : Expr) (bound : Nat), left.height + 1 ≤ bound →
    2 * fs.nesting ≤ bound → (fs.after left).height + 1 ≤ bound + operators fs.tokens
  | .nil, _, _, hleft, _ => by
    rw [Factors.after, Factors.tokens]
    exact hleft
  | .cons scale factor rest, left, bound, hleft, hbound => by
    have hfactor := factor.height_le
    have happly := height_apply_two scale.symbol left factor.expr
    rw [Factors.nesting] at hbound
    have hrest := rest.height_after_le (.apply scale.symbol [left, factor.expr]) (bound + operators factor.tokens + 1)
      (by omega) (by omega)
    rw [Factors.after, Factors.tokens, operators_scale, operators_append]
    omega

theorem Operand.height_le : ∀ u : Operand, u.expr.height + 1 ≤ 2 * u.nesting + operators u.tokens
  | .signed sign u => by
    have hu := u.height_le
    have hsign := sign.height_before_le u.expr
    rw [Operand.expr, Operand.nesting, Operand.tokens, operators_sign]
    omega
  | .power p => by
    have hp := p.height_le
    rw [Operand.expr, Operand.nesting, Operand.tokens]
    omega

theorem Power.height_le : ∀ p : Power, p.expr.height ≤ 2 * p.nesting + 1 + operators p.tokens
  | .atom base => by
    have hbase := base.height_le
    rw [Power.expr, Power.nesting, Power.tokens]
    omega
  | .raised base exponent => by
    have hbase := base.height_le
    have hexponent := exponent.height_le
    have hnesting : 1 ≤ exponent.nesting := exponent.one_le_nesting
    rw [Power.expr, Power.nesting, Power.tokens, height_apply_two, operators_append, operators_other rfl]
    omega

theorem Atom.height_le : ∀ a : Atom, a.expr.height ≤ max 1 (2 * a.nesting + operators a.tokens)
  | .number _ => Nat.le_max_left _ _
  | .text _ => Nat.le_max_left _ _
  | .name _ => Nat.le_max_left _ _
  | .call name args => by
    obtain ⟨hargs, hkwargs⟩ := args.height_le
    rw [Atom.expr, Atom.nesting, Atom.tokens, height, operators_other rfl, operators_other rfl, operators_append,
      operators_intercalate]
    omega
  | .parens s => by
    have hs := s.height_le
    rw [Atom.expr, Atom.nesting, Atom.tokens, operators_other rfl, operators_append]
    omega

theorem Arguments.height_le : ∀ a : Arguments,
    heightOfArguments a.args + 1 ≤ max 1 (2 * a.nesting + (a.parts.map operators).sum) ∧
      heightOfKeywords a.kwargs + 1 ≤ max 1 (2 * a.nesting + (a.parts.map operators).sum)
  | .positional value rest => by
    have hvalue := value.height_le
    obtain ⟨hargs, hkwargs⟩ := rest.height_le
    rw [Arguments.args, Arguments.kwargs, Arguments.nesting, Arguments.parts, heightOfArguments, List.map_cons,
      List.sum_cons]
    omega
  | .keywords rest => by
    have hrest := rest.height_le
    rw [Arguments.args, Arguments.kwargs, Arguments.nesting, Arguments.parts, heightOfArguments]
    exact ⟨Nat.le_max_left _ _, hrest⟩

theorem Keywords.height_le {keys : List String} : ∀ ks : Keywords keys,
    heightOfKeywords ks.kwargs + 1 ≤ max 1 (2 * ks.nesting + (ks.parts.map operators).sum)
  | .nil => Nat.le_max_left _ _
  | .cons key value rest _ => by
    have hvalue := value.height_le
    have hrest := rest.height_le
    rw [Keywords.kwargs, Keywords.nesting, Keywords.parts, heightOfKeywords, List.map_cons, List.sum_cons,
      operators_other rfl, operators_other rfl]
    omega

end

end Grammar

namespace Parser

open Concord.Expr

variable {text : String} {e : Expr}

/-- What is read from a text is what a derivation of its tokens stands for, with no more operands nested than allowed. -/
theorem parse_derivation (h : parse text = .ok e) : ∃ (ts : List Spanned) (d : Grammar.Sum), Lexer.tokens text = .ok ts ∧
    bare ts = d.tokens ++ [.stop] ∧ d.nesting ≤ depthLimit ∧ d.expr = e := by
  obtain ⟨ts, hts, hparse⟩ := bind_eq_ok.mp h
  obtain ⟨w, hbare, hstop⟩ := (Lexer.tokensFrom_cut (Nat.lt_succ_self _) hts).stop_last
  obtain ⟨d, rfl⟩ := exists_derivation hbare hstop hparse
  obtain ⟨hok, hdeep⟩ := parseTokens_derivation hbare
  refine ⟨ts, d, hts, hbare, ?_⟩
  rcases Nat.lt_or_ge depthLimit d.nesting with hlt | hle
  · obtain ⟨last, ts', hfail⟩ := hdeep hlt
    rw [hparse] at hfail
    cases hfail
  · rw [hok hle] at hparse
    exact ⟨hle, Except.ok.inj hparse⟩

/-- An expression that is read from a text has a bounded number of levels other than those down the left of sums and
    products, of which there are no more than the text has signs and operators of sums and products. -/
theorem parse_levels (h : parse text = .ok e) :
    e.rungs ≤ 4 * depthLimit - 1 ∧
    ∃ ts, Lexer.tokens text = .ok ts ∧ e.height ≤ 2 * depthLimit - 1 + Grammar.operators (bare ts) := by
  obtain ⟨ts, d, hts, hbare, hnesting, rfl⟩ := parse_derivation h
  have hrungs := d.rungs_le
  have hheight := d.height_le
  refine ⟨by omega, ts, hts, ?_⟩
  rw [hbare, Grammar.operators_append, Grammar.operators_other rfl, Grammar.operators_nil]
  omega

theorem parse_levels_call :
    ∃ e, parse "f(a + b * -c, k='t') ^ x - y" = .ok e ∧ e.rungs ≤ 4 * depthLimit - 1 ∧
      ∃ ts, Lexer.tokens "f(a + b * -c, k='t') ^ x - y" = .ok ts ∧
        e.height ≤ 2 * depthLimit - 1 + Grammar.operators (bare ts) := by
  have hparse : parse "f(a + b * -c, k='t') ^ x - y" = .ok (.apply "-" [.apply "^" [.call "f"
      [.apply "+" [.operand "a", .apply "*" [.operand "b", .apply "-" [.operand "c"]]]] [("k", .text "t")], .operand "x"],
      .operand "y"]) := by cbv
  exact ⟨_, hparse, parse_levels hparse⟩

/-! ### Long sums -/

/-- The name that texts are built from here. -/
def lone : Grammar.Operand := .power (.atom (.name "x"))

/-- As many times `x` more. -/
def moreTerms : Nat → Grammar.Terms
  | 0 => .nil
  | n + 1 => .cons .plus (.mk lone .nil) (moreTerms n)

/-- One `x` and as many more. -/
def longSum (n : Nat) : Grammar.Sum := .mk (.mk lone .nil) (moreTerms n)

/-- The text of the further terms. -/
def moreText : Nat → List Char
  | 0 => []
  | n + 1 => ' ' :: '+' :: ' ' :: 'x' :: moreText n

theorem lexed_lone {rest : List Char} {tokens : List Token} (h : Lexer.Lexed rest tokens) (hrest : Lexer.Delimited rest) :
    Lexer.Lexed ('x' :: rest) (.identifier "x" :: tokens) := h.name hrest rfl

theorem delimited_moreText : ∀ n, Lexer.Delimited (moreText n)
  | 0 => trivial
  | _ + 1 => Lexer.delimited_cons (by decide)

theorem lexed_moreText : ∀ n, Lexer.Lexed (moreText n) ((moreTerms n).tokens ++ [.stop])
  | 0 => Lexer.lexed_nil
  | n + 1 => (((lexed_lone (lexed_moreText n) (delimited_moreText n)).blank).symbol rfl).blank

/-- The tokens of a derivation, once spelled, are read as its expression. -/
theorem parse_lexed {cs : List Char} {d : Grammar.Sum} (h : Lexer.Lexed cs (d.tokens ++ [.stop]))
    (hnesting : d.nesting ≤ depthLimit) : ∃ ts, Lexer.tokens (String.ofList cs) = .ok ts ∧
      bare ts = d.tokens ++ [.stop] ∧ parse (String.ofList cs) = .ok d.expr := by
  have h' : Lexer.Lexed (String.ofList cs).toList (d.tokens ++ [.stop]) := by rwa [String.toList_ofList]
  obtain ⟨ts, hbare, hts⟩ := h'.tokens_eq
  refine ⟨ts, hts, hbare, ?_⟩
  unfold parse
  rw [hts]
  exact (parseTokens_derivation hbare).1 hnesting

theorem nesting_moreTerms : ∀ n, (moreTerms n).nesting ≤ 1
  | 0 => Nat.zero_le 1
  | n + 1 => Nat.max_le.mpr ⟨Nat.le_refl 1, nesting_moreTerms n⟩

theorem height_moreTerms : ∀ (n : Nat) (left : Expr), ((moreTerms n).after left).height = left.height + n
  | 0, _ => rfl
  | n + 1, left => by
    have hleft := one_le_height left
    have hlone : lone.expr.height = 1 := rfl
    show ((moreTerms n).after (.apply "+" [left, lone.expr])).height = _
    rw [height_moreTerms, height_apply_two, hlone]
    omega

/-- A sum is accepted however long it is, since its terms are not nested, and has a level for each of them. -/
theorem exists_parse_height (n : Nat) : ∃ text e, parse text = .ok e ∧ e.height = n + 1 := by
  have hlexed : Lexer.Lexed ('x' :: moreText n) ((longSum n).tokens ++ [.stop]) :=
    lexed_lone (lexed_moreText n) (delimited_moreText n)
  have hnesting : (longSum n).nesting ≤ depthLimit :=
    Nat.le_trans (Nat.max_le.mpr ⟨Nat.le_refl 1, nesting_moreTerms n⟩) (by decide)
  obtain ⟨ts, -, -, hparse⟩ := parse_lexed hlexed hnesting
  exact ⟨_, _, hparse, (height_moreTerms n _).trans (Nat.add_comm 1 n)⟩

/-- The levels of accepted expressions are not bounded. -/
theorem height_unbounded : ¬∃ bound, ∀ (text : String) (e : Expr), parse text = .ok e → e.height ≤ bound := by
  rintro ⟨bound, hbound⟩
  obtain ⟨text, e, hparse, hheight⟩ := exists_parse_height bound
  have hle := hbound text e hparse
  omega

/-! ### Towers -/

/-- A sum in whose last term there is a power of a call of another such sum. -/
def tower : Nat → Grammar.Sum
  | 0 => .mk (.mk lone .nil) (.cons .plus (.mk lone (.cons .times lone .nil)) .nil)
  | n + 1 => .mk (.mk lone .nil) (.cons .plus (.mk lone (.cons .times
      (.power (.raised (.call "f" (.positional (tower n) (.keywords .nil))) lone)) .nil)) .nil)

/-- The text of a tower, in front of another. -/
def towerText : Nat → List Char → List Char
  | 0, rest => 'x' :: ' ' :: '+' :: ' ' :: 'x' :: ' ' :: '*' :: ' ' :: 'x' :: rest
  | n + 1, rest => 'x' :: ' ' :: '+' :: ' ' :: 'x' :: ' ' :: '*' :: ' ' :: 'f' :: '(' ::
      towerText n (')' :: ' ' :: '^' :: ' ' :: 'x' :: rest)

theorem tokens_tower (n : Nat) : (tower (n + 1)).tokens = .identifier "x" :: .plus :: .identifier "x" :: .star ::
    .identifier "f" :: .leftParen :: ((tower n).tokens ++ [.rightParen, .caret, .identifier "x"]) := by
  simp [tower, lone, Grammar.Sum.tokens, Grammar.Terms.tokens, Grammar.Product.tokens, Grammar.Factors.tokens,
    Grammar.Operand.tokens, Grammar.Power.tokens, Grammar.Atom.tokens, Grammar.Arguments.parts, Grammar.Keywords.parts,
    Grammar.Sign.token, Grammar.Scale.token]

theorem expr_tower (n : Nat) : (tower (n + 1)).expr = .apply "+" [.operand "x", .apply "*" [.operand "x",
    .apply "^" [.apply "f" [(tower n).expr], .operand "x"]]] := rfl

/-- All towers start alike. -/
theorem lexed_before {rest : List Char} {tokens : List Token} (h : Lexer.Lexed rest tokens) :
    Lexer.Lexed ('x' :: ' ' :: '+' :: ' ' :: 'x' :: ' ' :: '*' :: ' ' :: rest)
      (.identifier "x" :: .plus :: .identifier "x" :: .star :: tokens) := by
  have hfactor := lexed_lone (h.blank.star (by simp)).blank (Lexer.delimited_cons (by decide))
  exact lexed_lone (hfactor.blank.symbol rfl).blank (Lexer.delimited_cons (by decide))

theorem lexed_towerText : ∀ (n : Nat) {rest : List Char} {tokens : List Token}, Lexer.Lexed rest tokens →
    Lexer.Delimited rest → Lexer.Lexed (towerText n rest) ((tower n).tokens ++ tokens)
  | 0, _, _, h, hrest => lexed_before (lexed_lone h hrest)
  | n + 1, rest, tokens, h, hrest => by
    have hexponent := ((lexed_lone h hrest).blank.symbol (c := '^') rfl).blank
    have hargument := lexed_towerText n (hexponent.symbol (c := ')') rfl) (Lexer.delimited_cons (by decide))
    have hname : IsName "f" := rfl
    have hcall : Lexer.Lexed ('f' :: '(' :: _) (.identifier "f" :: .leftParen :: _) :=
      (hargument.symbol (c := '(') rfl).name (Lexer.delimited_cons (by decide)) hname
    have htokens : (tower (n + 1)).tokens ++ tokens = .identifier "x" :: .plus :: .identifier "x" :: .star ::
        .identifier "f" :: .leftParen :: ((tower n).tokens ++ .rightParen :: .caret :: .identifier "x" :: tokens) := by
      simp [tokens_tower]
    rw [htokens]
    exact lexed_before hcall

theorem nesting_tower : ∀ n, (tower n).nesting = n + 1
  | 0 => rfl
  | n + 1 => by
    have ih := nesting_tower n
    simp [tower, lone, Grammar.Sum.nesting, Grammar.Terms.nesting, Grammar.Product.nesting, Grammar.Factors.nesting,
      Grammar.Operand.nesting, Grammar.Power.nesting, Grammar.Atom.nesting, Grammar.Arguments.nesting,
      Grammar.Keywords.nesting, ih]

theorem rungs_tower : ∀ n, (tower n).expr.rungs = 4 * n + 3
  | 0 => rfl
  | n + 1 => by
    have ih := rungs_tower n
    have hx : (Expr.operand "x").rungs = 1 := rfl
    rw [expr_tower, rungs_chain (by decide), rungs_chain (by decide), rungs_apply_two (by decide), rungs_apply_one, ih, hx]
    omega

theorem height_tower : ∀ n, (tower n).expr.height = 4 * n + 3
  | 0 => rfl
  | n + 1 => by
    have ih := height_tower n
    have hx : (Expr.operand "x").height = 1 := rfl
    rw [expr_tower, height_apply_two, height_apply_two, height_apply_two, height_apply_one, ih, hx]
    omega

theorem operators_tower : ∀ n, Grammar.operators (tower n).tokens = 2 * n + 2
  | 0 => rfl
  | n + 1 => by
    have hplus : ∀ tokens, Grammar.operators (.plus :: tokens) = Grammar.operators tokens + 1 := Grammar.operators_sign .plus
    have hstar : ∀ tokens, Grammar.operators (.star :: tokens) = Grammar.operators tokens + 1 := Grammar.operators_scale .times
    have hend : Grammar.operators [.rightParen, .caret, .identifier "x"] = 0 := rfl
    rw [tokens_tower, Grammar.operators_other rfl, hplus, Grammar.operators_other rfl, hstar, Grammar.operators_other rfl,
      Grammar.operators_other rfl, Grammar.operators_append, operators_tower n, hend]
    omega

/-- Both bounds on the levels are attained. -/
theorem exists_parse_levels : ∃ text e ts, parse text = .ok e ∧ Lexer.tokens text = .ok ts ∧
    e.rungs = 4 * depthLimit - 1 ∧ e.height = 2 * depthLimit - 1 + Grammar.operators (bare ts) := by
  have hlexed := lexed_towerText 127 Lexer.lexed_nil trivial
  obtain ⟨ts, hts, hbare, hparse⟩ := parse_lexed hlexed (nesting_tower 127).le
  refine ⟨_, _, ts, hparse, hts, rungs_tower 127, ?_⟩
  rw [hbare, Grammar.operators_append, Grammar.operators_other rfl, Grammar.operators_nil, operators_tower, height_tower]
  rfl

end Parser

end Concord
