import Mathlib
import Concord.Proofs.Expr.Derived
import Concord.Proofs.Expr.Nesting

/-! The parser accepts its grammar. From the tokens of a derivation it reads the expression that this stands for, as long
    as no more operands are nested than the bound allows, and from other tokens it reads nothing. -/

namespace Concord.Parser

open Grammar (Stops level further)

variable {last fuel depth n m : Nat} {e : Expr} {a b c : Arguments} {ts front mid rest : List Spanned} {t : Spanned}

/-! ### What follows -/

theorem additiveOperator_none (h : Stops 4 (bare rest)) : additiveOperator (peek rest) = none := by
  refine Option.eq_none_iff_forall_ne_some.mpr fun op hop => ?_
  obtain ⟨sign, hsign⟩ := sign_of_additiveOperator hop
  rw [peek_eq] at hsign
  rw [Stops, hsign, Grammar.level_sign] at h
  exact absurd h (by decide)

theorem multiplicativeOperator_none (h : Stops 3 (bare rest)) : multiplicativeOperator (peek rest) = none := by
  refine Option.eq_none_iff_forall_ne_some.mpr fun op hop => ?_
  obtain ⟨scale, hscale⟩ := scale_of_multiplicativeOperator hop
  rw [peek_eq] at hscale
  rw [Stops, hscale, Grammar.level_scale] at h
  exact absurd h (by decide)

theorem peek_ne (h : Stops n (bare rest)) {token : Token} (hlt : level token < n) : peek rest ≠ token := by
  intro heq
  rw [peek_eq] at heq
  rw [Stops, heq] at h
  exact absurd h (Nat.not_le.mpr hlt)

theorem isSign_of_startsAtom {token : Token} (h : Grammar.startsAtom token = true) : isSign token = false := by
  unfold isSign
  split
  · cases h
  · cases h
  · rfl

/-! ### Signs and operators -/

theorem negated_eq (e : Expr) : negated e = Grammar.Sign.minus.before e := by
  cases e <;> rfl

theorem additiveOperator_sign : ∀ sign : Grammar.Sign, additiveOperator sign.token = some sign.symbol
  | .plus => rfl
  | .minus => rfl

theorem multiplicativeOperator_scale : ∀ scale : Grammar.Scale, multiplicativeOperator scale.token = some scale.symbol
  | .times => rfl
  | .divided => rfl

theorem unary_plus (hdepth : depth ≤ depthLimit) (hplus : t.token = .plus) (hn : depth < n)
    (h : depth < depthLimit → Yields n e rest (unary last fuel (depth + 1) ts)) :
    Yields n e rest (unary last (fuel + 1) depth (t :: ts)) := by
  rcases Nat.eq_or_lt_of_le hdepth with rfl | hlt
  · exact ⟨fun hle => absurd hle (Nat.not_le.mpr hn), fun _ => unary_limit⟩
  · rw [unary, if_neg hlt.ne, peek_cons, hplus]
    exact h hlt

/-! ### Arguments -/

theorem argument_positional (hnil : a.kwargs = []) (hname : ∀ key, peek ts = .identifier key → peek ts.tail ≠ .assign)
    (h : Yields n e rest (additive last fuel depth ts)) :
    Yields n ⟨a.args ++ [e], a.kwargs⟩ rest (argument last (fuel + 1) depth a ts) := by
  rw [argument]
  split
  · rename_i key hkey hassign
    exact absurd hassign (hname key hkey)
  · rw [if_pos (List.isEmpty_iff.mpr hnil)]
    exact h.then rfl

theorem argument_keyword {key : String} {name assign : Spanned} (hname : name.token = .identifier key)
    (hassign : assign.token = .assign) (hnew : key ∉ a.kwargs.map (·.1))
    (h : Yields n e rest (additive last fuel depth ts)) :
    Yields n ⟨a.args, a.kwargs ++ [(key, e)]⟩ rest (argument last (fuel + 1) depth a (name :: assign :: ts)) := by
  have hfree : ¬(a.kwargs.any fun k => k.1 == key) = true := by
    rw [List.any_eq_true]
    rintro ⟨p, hp, heq⟩
    exact hnew (List.mem_map.mpr ⟨p, hp, beq_iff_eq.mp heq⟩)
  rw [argument]
  simp only [List.tail_cons, peek_cons, hname, hassign]
  rw [if_neg hfree]
  exact h.then rfl

/-- One argument, and after a comma those behind it. -/
theorem arguments_step {part : List Token} {parts : List (List Token)}
    (hfront : bare front = [Token.comma].intercalate (part :: parts) ++ [.rightParen])
    (hfirst : ∀ {inner} rest', bare inner = part → inner.length < front.length → bare rest' = further parts (bare rest) →
      Yields n b rest' (argument last fuel depth a (inner ++ rest')))
    (hlast : parts = [] → c = b ∧ m ≤ n)
    (hmore : parts ≠ [] → ∀ {more}, bare more = [Token.comma].intercalate parts ++ [.rightParen] →
      more.length < front.length → Yields m c rest (arguments last fuel depth b (more ++ rest))) :
    Yields (max n m) c rest (arguments last (fuel + 1) depth a (front ++ rest)) := by
  rw [arguments]
  cases parts with
  | nil =>
    obtain ⟨rfl, hle⟩ := hlast rfl
    rw [List.intercalate_singleton] at hfront
    obtain ⟨inner, closing, rfl, hinner, hclosing⟩ := bare_eq_append.mp hfront
    obtain ⟨closing, rfl, hclose⟩ := bare_eq_singleton.mp hclosing
    have hread := hfirst (closing :: rest) hinner (by simp) (by rw [bare_cons, hclose]; rfl)
    rw [Nat.max_eq_left hle, List.append_assoc, List.singleton_append]
    refine hread.then ?_
    dsimp only
    rw [peek_cons, hclose]
    rfl
  | cons next parts =>
    rw [List.intercalate_cons_cons, List.append_assoc, List.append_assoc, List.singleton_append] at hfront
    obtain ⟨inner, more, rfl, hinner, hmore'⟩ := bare_eq_append.mp hfront
    obtain ⟨comma, more, rfl, hcomma, hmore'⟩ := bare_eq_cons.mp hmore'
    have hread := hfirst (comma :: (more ++ rest)) hinner (by simp) (by
      rw [bare_cons, bare_append, hcomma, hmore', Grammar.further_cons, ← Grammar.intercalate_further,
        List.append_assoc, List.singleton_append])
    have htail := hmore (by simp) hmore' (by simp; omega)
    rw [List.append_assoc, List.cons_append]
    refine hread.bind fun _ => ?_
    dsimp only
    rw [peek_cons, hcomma]
    exact htail

end Concord.Parser

namespace Concord.Grammar

open Concord.Parser

/-! ### Derivations -/

/-- A part of the parser reads an expression from some tokens, where none follows that goes on with it more tightly than
    `level`, and with so much of the fuel to spare. -/
def ReadBy (part : Nat → Nat → Nat → List Spanned → Except SyntaxError (Front Expr)) (slack level : Nat)
    (tokens : List Token) (nesting : Nat) (e : Expr) : Prop :=
  ∀ {last fuel depth : Nat} {front rest : List Spanned}, bare front = tokens → 8 * front.length + 2 ≤ fuel + slack →
    depth ≤ depthLimit → Stops level (bare rest) → Yields (depth + nesting) e rest (part last fuel depth (front ++ rest))

theorem length_pos_of_starts {front : List Spanned} {tokens : List Token} {p : Token → Bool} (hfront : bare front = tokens)
    (h : ∃ t ts, tokens = t :: ts ∧ p t = true) : 0 < front.length := by
  obtain ⟨t, ts, rfl, -⟩ := h
  rw [← length_bare, hfront]
  exact Nat.succ_pos _

/-- No argument without a keyword starts like one under a keyword. -/
theorem Sum.not_keyword {s : Sum} {front rest : List Spanned} {parts : List (List Token)} {after : List Token}
    (hfront : bare front = s.tokens) (hrest : bare rest = further parts after) {key : String}
    (hkey : peek (front ++ rest) = .identifier key) : peek (front ++ rest).tail ≠ .assign := by
  intro hassign
  have htokens : s.tokens ++ further parts after = .identifier key :: .assign :: bare (front ++ rest).tail.tail := by
    rw [← bare_of_peek hassign (by simp), ← bare_of_peek hkey (by simp), bare_append, hfront, hrest]
  exact further_ne_assign (assign_behind htokens)

theorem Keywords.parts_eq_nil {keys : List String} : ∀ {ks : Keywords keys}, ks.parts = [] → ks.kwargs = [] ∧ ks.nesting = 0
  | .nil, _ => ⟨rfl, rfl⟩
  | .cons _ _ _ _, h => by
    rw [Keywords.parts] at h
    cases h

theorem Arguments.parts_eq_nil : ∀ {a : Arguments}, a.parts = [] → a.args = [] ∧ a.kwargs = [] ∧ a.nesting = 0
  | .positional _ _, h => by
    rw [Arguments.parts] at h
    cases h
  | .keywords ks, h => by
    rw [Arguments.parts] at h
    exact ⟨by rw [Arguments.args], by rw [Arguments.kwargs]; exact (Keywords.parts_eq_nil h).1,
      by rw [Arguments.nesting]; exact (Keywords.parts_eq_nil h).2⟩

mutual

/-- A sum is read from its tokens. -/
theorem Sum.read : ∀ s : Sum, ReadBy additive 0 4 s.tokens s.nesting s.expr
  | .mk first ts, last, fuel, depth, front, rest, hfront, hfuel, hdepth, hstops => by
    rw [Sum.tokens] at hfront
    obtain ⟨left, right, rfl, hleft, hright⟩ := bare_eq_append.mp hfront
    have hpos := length_pos_of_starts hleft first.starts
    rw [List.length_append] at hfuel
    obtain ⟨f, rfl⟩ : ∃ f, fuel = f + 1 := ⟨fuel - 1, by omega⟩
    have hstops' : Stops 3 (bare (right ++ rest)) := by
      rw [bare_append, hright]
      exact ts.stops hstops
    rw [Sum.nesting, Sum.expr, additive, List.append_assoc, ← Nat.add_max_add_left]
    exact (first.read hleft (by omega) hdepth hstops').bind fun _ => ts.read hright (by omega) hdepth hstops

/-- Terms are read behind those in front of them. -/
theorem Terms.read : ∀ (ts : Terms) {last fuel depth : Nat} {left : Expr} {front rest : List Spanned},
    bare front = ts.tokens → 8 * front.length + 1 ≤ fuel → depth ≤ depthLimit → Stops 4 (bare rest) →
    Yields (depth + ts.nesting) (ts.after left) rest (additiveRest last fuel depth left (front ++ rest))
  | .nil, last, fuel, depth, left, front, rest, hfront, hfuel, hdepth, hstops => by
    rw [Terms.tokens] at hfront
    obtain rfl := bare_eq_nil.mp hfront
    obtain ⟨f, rfl⟩ : ∃ f, fuel = f + 1 := ⟨fuel - 1, by omega⟩
    rw [Terms.nesting, Terms.after, List.nil_append, additiveRest_none (additiveOperator_none hstops)]
    exact yields_ok hdepth
  | .cons sign term ts, last, fuel, depth, left, front, rest, hfront, hfuel, hdepth, hstops => by
    rw [Terms.tokens] at hfront
    obtain ⟨op, front, rfl, hop, hfront⟩ := bare_eq_cons.mp hfront
    obtain ⟨inner, more, rfl, hinner, hmore⟩ := bare_eq_append.mp hfront
    rw [List.length_cons, List.length_append] at hfuel
    obtain ⟨f, rfl⟩ : ∃ f, fuel = f + 1 := ⟨fuel - 1, by omega⟩
    have hstops' : Stops 3 (bare (more ++ rest)) := by
      rw [bare_append, hmore]
      exact ts.stops hstops
    rw [Terms.nesting, Terms.after, List.cons_append, List.append_assoc, additiveRest, peek_cons, hop,
      additiveOperator_sign, ← Nat.add_max_add_left]
    exact (term.read hinner (by omega) hdepth hstops').bind fun _ => ts.read hmore (by omega) hdepth hstops

theorem Product.read : ∀ p : Product, ReadBy multiplicative 1 3 p.tokens p.nesting p.expr
  | .mk first fs, last, fuel, depth, front, rest, hfront, hfuel, hdepth, hstops => by
    rw [Product.tokens] at hfront
    obtain ⟨left, right, rfl, hleft, hright⟩ := bare_eq_append.mp hfront
    have hpos := length_pos_of_starts hleft first.starts
    rw [List.length_append] at hfuel
    obtain ⟨f, rfl⟩ : ∃ f, fuel = f + 1 := ⟨fuel - 1, by omega⟩
    have hstops' : Stops 2 (bare (right ++ rest)) := by
      rw [bare_append, hright]
      exact fs.stops hstops
    rw [Product.nesting, Product.expr, multiplicative, List.append_assoc, ← Nat.add_max_add_left]
    exact (first.read hleft (by omega) hdepth hstops').bind fun _ => fs.read hright (by omega) hdepth hstops

theorem Factors.read : ∀ (fs : Factors) {last fuel depth : Nat} {left : Expr} {front rest : List Spanned},
    bare front = fs.tokens → 8 * front.length + 1 ≤ fuel → depth ≤ depthLimit → Stops 3 (bare rest) →
    Yields (depth + fs.nesting) (fs.after left) rest (multiplicativeRest last fuel depth left (front ++ rest))
  | .nil, last, fuel, depth, left, front, rest, hfront, hfuel, hdepth, hstops => by
    rw [Factors.tokens] at hfront
    obtain rfl := bare_eq_nil.mp hfront
    obtain ⟨f, rfl⟩ : ∃ f, fuel = f + 1 := ⟨fuel - 1, by omega⟩
    rw [Factors.nesting, Factors.after, List.nil_append, multiplicativeRest_none (multiplicativeOperator_none hstops)]
    exact yields_ok hdepth
  | .cons scale factor fs, last, fuel, depth, left, front, rest, hfront, hfuel, hdepth, hstops => by
    rw [Factors.tokens] at hfront
    obtain ⟨op, front, rfl, hop, hfront⟩ := bare_eq_cons.mp hfront
    obtain ⟨inner, more, rfl, hinner, hmore⟩ := bare_eq_append.mp hfront
    rw [List.length_cons, List.length_append] at hfuel
    obtain ⟨f, rfl⟩ : ∃ f, fuel = f + 1 := ⟨fuel - 1, by omega⟩
    have hstops' : Stops 2 (bare (more ++ rest)) := by
      rw [bare_append, hmore]
      exact fs.stops hstops
    rw [Factors.nesting, Factors.after, List.cons_append, List.append_assoc, multiplicativeRest, peek_cons, hop,
      multiplicativeOperator_scale, ← Nat.add_max_add_left]
    exact (factor.read hinner (by omega) hdepth hstops').bind fun _ => fs.read hmore (by omega) hdepth hstops

theorem Operand.read : ∀ u : Operand, ReadBy unary 2 2 u.tokens u.nesting u.expr
  | .signed sign u, last, fuel, depth, front, rest, hfront, hfuel, hdepth, hstops => by
    rw [Operand.tokens] at hfront
    obtain ⟨op, front, rfl, hop, hfront⟩ := bare_eq_cons.mp hfront
    rw [List.length_cons] at hfuel
    obtain ⟨f, rfl⟩ : ∃ f, fuel = f + 1 := ⟨fuel - 1, by omega⟩
    have hread : depth < depthLimit →
        Yields (depth + (u.nesting + 1)) u.expr rest (unary last f (depth + 1) (front ++ rest)) := by
      intro hlt
      rw [show depth + (u.nesting + 1) = depth + 1 + u.nesting by omega]
      exact u.read hfront (by omega) hlt hstops
    rw [Operand.nesting, Operand.expr, List.cons_append]
    cases sign with
    | plus => exact unary_plus hdepth hop (by omega) hread
    | minus =>
      rw [← negated_eq]
      exact unary_minus hdepth hop (by omega) hread
  | .power p, last, fuel, depth, front, rest, hfront, hfuel, hdepth, hstops => by
    rw [Operand.tokens] at hfront
    have hpos := length_pos_of_starts hfront p.starts
    obtain ⟨f, rfl⟩ : ∃ f, fuel = f + 1 := ⟨fuel - 1, by omega⟩
    have hsign : isSign (peek (front ++ rest)) = false := by
      obtain ⟨t, ts, htokens, ht⟩ := p.starts
      rw [peek_eq, bare_append, hfront, htokens]
      exact isSign_of_startsAtom ht
    rw [Operand.nesting, Operand.expr]
    refine unary_plain hdepth hsign (by omega) fun hlt => ?_
    rw [show depth + (p.nesting + 1) = depth + 1 + p.nesting by omega]
    exact p.read hfront (by omega) hlt hstops

theorem Power.read : ∀ p : Power, ReadBy power 3 2 p.tokens p.nesting p.expr
  | .atom base, last, fuel, depth, front, rest, hfront, hfuel, hdepth, hstops => by
    rw [Power.tokens] at hfront
    have hpos := length_pos_of_starts hfront base.starts
    obtain ⟨f, rfl⟩ : ∃ f, fuel = f + 1 := ⟨fuel - 1, by omega⟩
    rw [Power.nesting, Power.expr]
    exact power_single (peek_ne hstops (by decide)) (base.read hfront (by omega) hdepth (hstops.mono (by decide)))
  | .raised base exponent, last, fuel, depth, front, rest, hfront, hfuel, hdepth, hstops => by
    rw [Power.tokens] at hfront
    obtain ⟨left, right, rfl, hleft, hright⟩ := bare_eq_append.mp hfront
    obtain ⟨caret, right, rfl, hcaret, hright⟩ := bare_eq_cons.mp hright
    rw [List.length_append, List.length_cons] at hfuel
    obtain ⟨f, rfl⟩ : ∃ f, fuel = f + 1 := ⟨fuel - 1, by omega⟩
    have hstops' : Stops 1 (bare (caret :: (right ++ rest))) := by
      rw [bare_cons, hcaret]
      exact stops_caret
    rw [Power.nesting, Power.expr, List.append_assoc, List.cons_append, ← Nat.add_max_add_left]
    exact power_pair hcaret (base.read hleft (by omega) hdepth hstops') (exponent.read hright (by omega) hdepth hstops)

theorem Atom.read : ∀ a : Atom, ReadBy primary 4 1 a.tokens a.nesting a.expr
  | .number x, last, fuel, depth, front, rest, hfront, hfuel, hdepth, _ => by
    rw [Atom.tokens] at hfront
    obtain ⟨t, rfl, ht⟩ := bare_eq_singleton.mp hfront
    rw [List.length_singleton] at hfuel
    obtain ⟨f, rfl⟩ : ∃ f, fuel = f + 1 := ⟨fuel - 1, by omega⟩
    rw [Atom.nesting, Atom.expr, List.singleton_append, primary_number ht]
    exact yields_ok hdepth
  | .text s, last, fuel, depth, front, rest, hfront, hfuel, hdepth, _ => by
    rw [Atom.tokens] at hfront
    obtain ⟨t, rfl, ht⟩ := bare_eq_singleton.mp hfront
    rw [List.length_singleton] at hfuel
    obtain ⟨f, rfl⟩ : ∃ f, fuel = f + 1 := ⟨fuel - 1, by omega⟩
    rw [Atom.nesting, Atom.expr, List.singleton_append, primary_text ht]
    exact yields_ok hdepth
  | .name name, last, fuel, depth, front, rest, hfront, hfuel, hdepth, hstops => by
    rw [Atom.tokens] at hfront
    obtain ⟨t, rfl, ht⟩ := bare_eq_singleton.mp hfront
    rw [List.length_singleton] at hfuel
    obtain ⟨f, rfl⟩ : ∃ f, fuel = f + 1 := ⟨fuel - 1, by omega⟩
    rw [Atom.nesting, Atom.expr, List.singleton_append, primary_operand ht (peek_ne hstops (by decide))]
    exact yields_ok hdepth
  | .call name args, last, fuel, depth, front, rest, hfront, hfuel, hdepth, _ => by
    rw [Atom.tokens] at hfront
    obtain ⟨t, front, rfl, ht, hfront⟩ := bare_eq_cons.mp hfront
    obtain ⟨opening, inner, rfl, hopen, hinner⟩ := bare_eq_cons.mp hfront
    rw [List.length_cons, List.length_cons] at hfuel
    obtain ⟨f, rfl⟩ : ∃ f, fuel = f + 1 := ⟨fuel - 1, by omega⟩
    rw [Atom.nesting, Atom.expr, List.cons_append, List.cons_append]
    cases hparts : args.parts with
    | nil =>
      obtain ⟨hargs, hkwargs, hnesting⟩ := Arguments.parts_eq_nil hparts
      rw [hparts] at hinner
      obtain ⟨closing, rfl, hclose⟩ := bare_eq_singleton.mp hinner
      rw [hargs, hkwargs, hnesting, List.singleton_append, primary_call_nil ht hopen hclose]
      exact yields_ok hdepth
    | cons part parts =>
      obtain ⟨token, tokens, hpart, htoken⟩ := Arguments.part_starts hparts
      have hclose : peek (inner ++ rest) ≠ .rightParen := by
        rw [peek_eq, bare_append, hinner, hparts, hpart, intercalate_cons]
        rintro heq
        simp only [List.cons_append, List.headD_cons] at heq
        rw [heq] at htoken
        cases htoken
      have hne : args.parts ≠ [] := by
        rw [hparts]
        exact List.cons_ne_nil _ _
      exact primary_call ht hopen hclose (args.read (a := ⟨[], []⟩) hne rfl hinner (by omega) hdepth)
  | .parens s, last, fuel, depth, front, rest, hfront, hfuel, hdepth, _ => by
    rw [Atom.tokens] at hfront
    obtain ⟨opening, inner, rfl, hopen, hinner⟩ := bare_eq_cons.mp hfront
    obtain ⟨inner, closing, rfl, hs, hclosing⟩ := bare_eq_append.mp hinner
    obtain ⟨closing, rfl, hclose⟩ := bare_eq_singleton.mp hclosing
    rw [List.length_cons, List.length_append, List.length_singleton] at hfuel
    obtain ⟨f, rfl⟩ : ∃ f, fuel = f + 1 := ⟨fuel - 1, by omega⟩
    have hstops : Stops 4 (bare (closing :: rest)) := by
      rw [bare_cons, hclose]
      exact stops_rightParen
    rw [Atom.nesting, Atom.expr, List.cons_append, List.append_assoc, List.singleton_append]
    exact primary_parenthesized hopen hclose (s.read hs (by omega) hdepth hstops)

/-- Arguments are read up to the end of the call, behind those that it has already. -/
theorem Arguments.read : ∀ (d : Arguments) {last fuel depth : Nat} {a : Parser.Arguments} {front rest : List Spanned},
    d.parts ≠ [] → a.kwargs = [] → bare front = [Token.comma].intercalate d.parts ++ [.rightParen] →
    8 * front.length ≤ fuel → depth ≤ depthLimit →
    Yields (depth + d.nesting) ⟨a.args ++ d.args, a.kwargs ++ d.kwargs⟩ rest (arguments last fuel depth a (front ++ rest))
  | .positional value d, last, fuel, depth, a, front, rest, _, hnil, hfront, hfuel, hdepth => by
    rw [Arguments.parts] at hfront
    have hpos : 0 < front.length := by
      rw [← length_bare, hfront]
      simp
    obtain ⟨f, rfl⟩ : ∃ f, fuel = f + 2 := ⟨fuel - 2, by omega⟩
    rw [Arguments.nesting, Arguments.args, Arguments.kwargs, ← Nat.add_max_add_left]
    refine arguments_step (b := ⟨a.args ++ [value.expr], a.kwargs⟩) hfront ?_ ?_ ?_
    · intro inner rest' hinner hlt hrest
      have hstops : Stops 4 (bare rest') := by
        rw [hrest]
        exact further_stops _ _
      exact argument_positional hnil (fun key => Sum.not_keyword hinner hrest)
        (value.read hinner (by omega) hdepth hstops)
    · intro hparts
      obtain ⟨hargs, hkwargs, hnesting⟩ := Arguments.parts_eq_nil hparts
      rw [hargs, hkwargs, hnesting, List.append_nil]
      exact ⟨rfl, Nat.add_le_add_left (Nat.zero_le _) _⟩
    · intro hne more hmore hlt
      have hread : Yields (depth + d.nesting) ⟨a.args ++ [value.expr] ++ d.args, a.kwargs ++ d.kwargs⟩ rest
          (arguments last (f + 1) depth ⟨a.args ++ [value.expr], a.kwargs⟩ (more ++ rest)) :=
        d.read (a := ⟨a.args ++ [value.expr], a.kwargs⟩) hne hnil hmore (by omega) hdepth
      rwa [List.append_assoc] at hread
  | .keywords ks, last, fuel, depth, a, front, rest, hne, hnil, hfront, hfuel, hdepth => by
    rw [Arguments.parts] at hne hfront
    rw [Arguments.nesting, Arguments.args, Arguments.kwargs, List.append_nil]
    exact ks.read hne (by rw [hnil]; simp) hfront hfuel hdepth

theorem Keywords.read : ∀ {keys : List String} (d : Keywords keys) {last fuel depth : Nat} {a : Parser.Arguments}
    {front rest : List Spanned}, d.parts ≠ [] → (∀ key ∈ keys, key ∉ a.kwargs.map (·.1)) →
    bare front = [Token.comma].intercalate d.parts ++ [.rightParen] → 8 * front.length ≤ fuel → depth ≤ depthLimit →
    Yields (depth + d.nesting) ⟨a.args, a.kwargs ++ d.kwargs⟩ rest (arguments last fuel depth a (front ++ rest))
  | _, .nil, _, _, _, _, _, _, hne, _, _, _, _ => by
    rw [Keywords.parts] at hne
    exact absurd rfl hne
  | _, @Keywords.cons keys key value d hkey, last, fuel, depth, a, front, rest, _, hfree, hfront, hfuel, hdepth => by
    rw [Keywords.parts] at hfront
    have hpos : 0 < front.length := by
      rw [← length_bare, hfront]
      simp
    obtain ⟨f, rfl⟩ : ∃ f, fuel = f + 2 := ⟨fuel - 2, by omega⟩
    rw [Keywords.nesting, Keywords.kwargs, ← Nat.add_max_add_left]
    refine arguments_step (b := ⟨a.args, a.kwargs ++ [(key, value.expr)]⟩) hfront ?_ ?_ ?_
    · intro inner rest' hinner hlt hrest
      obtain ⟨name, inner, rfl, hname, hinner⟩ := bare_eq_cons.mp hinner
      obtain ⟨assign, inner, rfl, hassign, hinner⟩ := bare_eq_cons.mp hinner
      rw [List.length_cons, List.length_cons] at hlt
      have hstops : Stops 4 (bare rest') := by
        rw [hrest]
        exact further_stops _ _
      exact argument_keyword hname hassign (hfree key List.mem_cons_self) (value.read hinner (by omega) hdepth hstops)
    · intro hparts
      obtain ⟨hkwargs, hnesting⟩ := Keywords.parts_eq_nil hparts
      rw [hkwargs, hnesting]
      exact ⟨rfl, Nat.add_le_add_left (Nat.zero_le _) _⟩
    · intro hne more hmore hlt
      have hnew : ∀ k ∈ keys, k ∉ (a.kwargs ++ [(key, value.expr)]).map (·.1) := by
        intro k hk hmem
        rw [List.map_append, List.mem_append] at hmem
        rcases hmem with hmem | hmem
        · exact hfree k (List.mem_cons_of_mem _ hk) hmem
        · obtain rfl : k = key := List.mem_singleton.mp hmem
          exact hkey hk
      have hread : Yields (depth + d.nesting) ⟨a.args, a.kwargs ++ [(key, value.expr)] ++ d.kwargs⟩ rest
          (arguments last (f + 1) depth ⟨a.args, a.kwargs ++ [(key, value.expr)]⟩ (more ++ rest)) :=
        d.read (a := ⟨a.args, a.kwargs ++ [(key, value.expr)]⟩) hne hnew hmore (by omega) hdepth
      rwa [List.append_assoc] at hread

end

end Concord.Grammar

namespace Concord.Parser

open Grammar (Stops)

/-! ### Whole lists of tokens -/

variable {ts : List Spanned} {w : List Token} {e : Expr}

/-- The tokens of a derivation are read as its expression, unless too many operands are nested in it. -/
theorem parseTokens_derivation {d : Grammar.Sum} (hts : bare ts = d.tokens ++ [.stop]) :
    (d.nesting ≤ depthLimit → parseTokens ts = .ok d.expr) ∧ (depthLimit < d.nesting → TooDeep (parseTokens ts)) := by
  obtain ⟨front, final, rfl, hfront, hfinal⟩ := bare_eq_append.mp hts
  obtain ⟨stop, rfl, hstop⟩ := bare_eq_singleton.mp hfinal
  have hstops : Stops 4 (bare [stop]) := by
    rw [bare_cons, hstop]
    exact Nat.le_refl 4
  have hfirst : peek (front ++ [stop]) ≠ .stop := by
    obtain ⟨t, tokens, htokens, ht⟩ := d.starts
    rw [peek_eq, bare_append, hfront, htokens]
    rintro heq
    simp only [List.cons_append, List.headD_cons] at heq
    rw [heq] at ht
    cases ht
  have hread : ∀ last, Yields (0 + d.nesting) d.expr [stop]
      (additive last (8 * (front ++ [stop]).length + 8) 0 (front ++ [stop])) :=
    fun last => d.read hfront (by rw [List.length_append]; omega) (Nat.zero_le _) hstops
  rw [Nat.zero_add] at hread
  have hends : peek [stop] = .stop := hstop
  exact parseTokens_yields hfirst hends hread

/-- What is read from a list of tokens has a derivation. -/
theorem exists_derivation (hts : bare ts = w ++ [.stop]) (hw : .stop ∉ w) (h : parseTokens ts = .ok e) :
    ∃ d : Grammar.Sum, d.tokens = w := by
  unfold parseTokens at h
  dsimp only at h
  split at h
  · cases h
  · obtain ⟨⟨e', rest⟩, he', h⟩ := bind_eq_ok.mp h
    dsimp only at h
    split at h
    · rename_i hend
      obtain ⟨d, hd⟩ := (derives _ _).additive he'
      cases rest with
      | nil =>
        rw [hts, bare_nil, List.append_nil] at hd
        exact absurd (hd ▸ List.mem_append_right w (List.mem_singleton_self _)) d.stop_not_mem
      | cons t rest =>
        rw [hts, bare_cons, show t.token = .stop from hend] at hd
        exact ⟨d, ((List.append_cons_inj_of_notMem hw List.not_mem_nil).mp hd).1.symm⟩
    · cases h

/-- The parser accepts exactly its grammar: it reads an expression from a list of tokens that ends in its only end mark
    if and only if what stands before has a derivation, then just one, in which no more operands are nested than the
    bound allows; and what it reads is the expression that the derivation stands for. -/
theorem parseTokens_eq_ok_iff (hts : ts.map (·.token) = w ++ [.stop]) (hw : .stop ∉ w) :
    parseTokens ts = .ok e ↔ ∃ d : Grammar.Sum, (d.tokens = w ∧ ∀ d' : Grammar.Sum, d'.tokens = w → d' = d) ∧
      d.nesting ≤ depthLimit ∧ d.expr = e := by
  constructor
  · intro h
    obtain ⟨d, rfl⟩ := exists_derivation hts hw h
    obtain ⟨hok, hdeep⟩ := parseTokens_derivation hts
    refine ⟨d, ⟨rfl, fun d' hd' => Grammar.Sum.tokens_inj hd'⟩, ?_⟩
    rcases Nat.lt_or_ge depthLimit d.nesting with hlt | hle
    · obtain ⟨last, ts', hfail⟩ := hdeep hlt
      rw [h] at hfail
      cases hfail
    · rw [hok hle] at h
      exact ⟨hle, Except.ok.inj h⟩
  · rintro ⟨d, ⟨rfl, -⟩, hle, rfl⟩
    exact (parseTokens_derivation hts).1 hle

/-- The tokens of `-a ^ 2 * f(b, dim='t') - +(1)`. -/
def signedTokens : List Token := [.minus, .identifier "a", .caret, .number ⟨0x4000000000000000⟩, .star, .identifier "f",
  .leftParen, .identifier "b", .comma, .identifier "dim", .assign, .text "t", .rightParen, .minus, .plus, .leftParen,
  .number ⟨0x3ff0000000000000⟩, .rightParen]

def signedExpr : Expr :=
  .apply "-" [.apply "*" [.apply "-" [.apply "^" [.operand "a", .number ⟨0x4000000000000000⟩]],
    .call "f" [.operand "b"] [("dim", .text "t")]], .number ⟨0x3ff0000000000000⟩]

/-- These tokens with their numbers as positions, and the end mark. -/
def signedText : List Spanned := (signedTokens ++ [Token.stop]).zipIdx.map fun p => ⟨p.1, p.2⟩

theorem parseTokens_eq_ok_iff_signed :
    signedText.map (·.token) = signedTokens ++ [.stop] ∧ .stop ∉ signedTokens ∧ parseTokens signedText = .ok signedExpr ∧
      ∃ d : Grammar.Sum, (d.tokens = signedTokens ∧ ∀ d' : Grammar.Sum, d'.tokens = signedTokens → d' = d) ∧
        d.nesting ≤ depthLimit ∧ d.expr = signedExpr :=
  have hts : signedText.map (·.token) = signedTokens ++ [.stop] := rfl
  have hw : .stop ∉ signedTokens := by decide
  have hparse : parseTokens signedText = .ok signedExpr := by cbv
  ⟨hts, hw, hparse, (parseTokens_eq_ok_iff hts hw).mp hparse⟩

end Concord.Parser
