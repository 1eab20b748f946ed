import Concord.Expr.Parser
import Concord.Proofs.Expr.Unambiguous
import Concord.Proofs.Outcome

/-! What the parser reads has a derivation: the tokens that it takes from the front of others are those of one. -/

namespace Concord.Parser

variable {last fuel depth : Nat} {e left : Expr} {a a' : Arguments} {ts rest : List Spanned}

/-- The tokens without their positions. -/
def bare (ts : List Spanned) : List Token := ts.map (·.token)

@[simp] theorem bare_nil : bare [] = [] := rfl

@[simp] theorem bare_cons (t : Spanned) (ts : List Spanned) : bare (t :: ts) = t.token :: bare ts := rfl

@[simp] theorem bare_append (ts ts' : List Spanned) : bare (ts ++ ts') = bare ts ++ bare ts' := List.map_append

@[simp] theorem length_bare (ts : List Spanned) : (bare ts).length = ts.length := List.length_map _

theorem bare_eq_nil : bare ts = [] ↔ ts = [] := List.map_eq_nil_iff

theorem bare_eq_cons {token : Token} {tokens : List Token} :
    bare ts = token :: tokens ↔ ∃ t ts', ts = t :: ts' ∧ t.token = token ∧ bare ts' = tokens := List.map_eq_cons_iff

theorem bare_eq_singleton {token : Token} : bare ts = [token] ↔ ∃ t, ts = [t] ∧ t.token = token := List.map_eq_singleton_iff

theorem bare_eq_append {tokens tokens' : List Token} :
    bare ts = tokens ++ tokens' ↔ ∃ ts₁ ts₂, ts = ts₁ ++ ts₂ ∧ bare ts₁ = tokens ∧ bare ts₂ = tokens' :=
  List.map_eq_append_iff

theorem peek_eq (ts : List Spanned) : peek ts = (bare ts).headD .stop := by
  cases ts <;> rfl

theorem bare_of_peek {token : Token} (h : peek ts = token) (hne : token ≠ .stop) : bare ts = token :: bare ts.tail := by
  cases ts with
  | nil => exact absurd h.symm hne
  | cons t ts => rw [← h]; rfl

/-! ### Arguments -/

/-- Arguments go on those that a call has already, of which positional ones must be first, and keywords new. -/
inductive Resumes (a : Arguments) : List (List Token) → Prop where
  | positional (d : Grammar.Arguments) : a.kwargs = [] → Resumes a d.parts
  | keywords {keys : List String} (d : Grammar.Keywords keys) : (∀ key ∈ keys, key ∉ a.kwargs.map (·.1)) →
      Resumes a d.parts

theorem Resumes.arguments {parts : List (List Token)} (h : Resumes a parts) : ∃ d : Grammar.Arguments, d.parts = parts := by
  cases h with
  | positional d _ => exact ⟨d, rfl⟩
  | keywords d _ => exact ⟨.keywords d, by rw [Grammar.Arguments.parts]⟩

/-- One argument goes on those that a call has already. -/
inductive Takes (a : Arguments) : List Token → Arguments → Prop where
  | positional (d : Grammar.Sum) (e : Expr) : a.kwargs = [] → Takes a d.tokens ⟨a.args ++ [e], a.kwargs⟩
  | keyword (key : String) (d : Grammar.Sum) (e : Expr) : key ∉ a.kwargs.map (·.1) →
      Takes a (.identifier key :: .assign :: d.tokens) ⟨a.args, a.kwargs ++ [(key, e)]⟩

/-- A call may have just the argument. -/
theorem Takes.only {part : List Token} (h : Takes a part a') : Resumes a [part] := by
  cases h with
  | positional d e hnil =>
    have hparts : (Grammar.Arguments.positional d (.keywords .nil)).parts = [d.tokens] := by
      simp [Grammar.Arguments.parts, Grammar.Keywords.parts]
    exact hparts ▸ .positional _ hnil
  | keyword key d e hnew =>
    have hparts : (Grammar.Keywords.cons key d .nil List.not_mem_nil).parts = [.identifier key :: .assign :: d.tokens] := by
      simp [Grammar.Keywords.parts]
    refine hparts ▸ .keywords _ fun key' hkey' => ?_
    rw [List.mem_singleton.mp hkey']
    exact hnew

/-- A call may have further arguments behind one. -/
theorem Takes.before {part : List Token} {parts : List (List Token)} (h : Takes a part a')
    (hmore : Resumes a' parts) : Resumes a (part :: parts) := by
  cases h with
  | positional d e hnil =>
    cases hmore with
    | positional args _ =>
      have hparts : (Grammar.Arguments.positional d args).parts = d.tokens :: args.parts := by rw [Grammar.Arguments.parts]
      exact hparts ▸ .positional _ hnil
    | keywords ks _ =>
      have hparts : (Grammar.Arguments.positional d (.keywords ks)).parts = d.tokens :: ks.parts := by
        rw [Grammar.Arguments.parts, Grammar.Arguments.parts]
      exact hparts ▸ .positional _ hnil
  | keyword key d e hnew =>
    cases hmore with
    | positional _ hnil => exact absurd hnil (by simp)
    | keywords ks hfresh =>
      have hkey : key ∉ _ := fun hmem => hfresh key hmem (by simp)
      have hparts : (Grammar.Keywords.cons key d ks hkey).parts = (.identifier key :: .assign :: d.tokens) :: ks.parts := by
        rw [Grammar.Keywords.parts]
      refine hparts ▸ .keywords _ fun key' hkey' => ?_
      rcases List.mem_cons.mp hkey' with rfl | hkey'
      · exact hnew
      · intro hmem
        refine hfresh key' hkey' ?_
        rw [List.map_append]
        exact List.mem_append_left _ hmem

/-- What the parts of the parser read has a derivation, as far as there is fuel. -/
structure Derives (last fuel : Nat) : Prop where
  additive : ∀ {depth ts e rest}, additive last fuel depth ts = .ok (e, rest) →
    ∃ d : Grammar.Sum, bare ts = d.tokens ++ bare rest
  additiveRest : ∀ {depth left ts e rest}, additiveRest last fuel depth left ts = .ok (e, rest) →
    ∃ d : Grammar.Terms, bare ts = d.tokens ++ bare rest
  multiplicative : ∀ {depth ts e rest}, multiplicative last fuel depth ts = .ok (e, rest) →
    ∃ d : Grammar.Product, bare ts = d.tokens ++ bare rest
  multiplicativeRest : ∀ {depth left ts e rest}, multiplicativeRest last fuel depth left ts = .ok (e, rest) →
    ∃ d : Grammar.Factors, bare ts = d.tokens ++ bare rest
  unary : ∀ {depth ts e rest}, unary last fuel depth ts = .ok (e, rest) →
    ∃ d : Grammar.Operand, bare ts = d.tokens ++ bare rest
  power : ∀ {depth ts e rest}, power last fuel depth ts = .ok (e, rest) →
    ∃ d : Grammar.Power, bare ts = d.tokens ++ bare rest
  primary : ∀ {depth ts e rest}, primary last fuel depth ts = .ok (e, rest) →
    ∃ d : Grammar.Atom, bare ts = d.tokens ++ bare rest
  arguments : ∀ {depth a ts a' rest}, arguments last fuel depth a ts = .ok (a', rest) →
    ∃ part parts, Resumes a (part :: parts) ∧
      bare ts = [Token.comma].intercalate (part :: parts) ++ .rightParen :: bare rest
  argument : ∀ {depth a ts a' rest}, argument last fuel depth a ts = .ok (a', rest) →
    ∃ part, Takes a part a' ∧ bare ts = part ++ bare rest

theorem derives_zero (last : Nat) : Derives last 0 := by
  constructor <;> intros <;> rename_i h <;> simp [Parser.additive, Parser.additiveRest, Parser.multiplicative,
    Parser.multiplicativeRest, Parser.unary, Parser.power, Parser.primary, Parser.arguments, Parser.argument] at h

/-! ### Operators -/

theorem sign_of_additiveOperator {token : Token} {op : String} (h : additiveOperator token = some op) :
    ∃ sign : Grammar.Sign, token = sign.token := by
  cases token <;> cases h
  · exact ⟨.plus, rfl⟩
  · exact ⟨.minus, rfl⟩

theorem scale_of_multiplicativeOperator {token : Token} {op : String} (h : multiplicativeOperator token = some op) :
    ∃ scale : Grammar.Scale, token = scale.token := by
  cases token <;> cases h
  · exact ⟨.times, rfl⟩
  · exact ⟨.divided, rfl⟩

theorem sign_ne_stop : ∀ sign : Grammar.Sign, sign.token ≠ .stop
  | .plus => by simp [Grammar.Sign.token]
  | .minus => by simp [Grammar.Sign.token]

theorem scale_ne_stop : ∀ scale : Grammar.Scale, scale.token ≠ .stop
  | .times => by simp [Grammar.Scale.token]
  | .divided => by simp [Grammar.Scale.token]

/-! ### One part after the other -/

section
variable (ih : Derives last fuel)
include ih

theorem additive_derives (h : additive last (fuel + 1) depth ts = .ok (e, rest)) :
    ∃ d : Grammar.Sum, bare ts = d.tokens ++ bare rest := by
  rw [additive] at h
  obtain ⟨⟨left, mid⟩, hleft, h⟩ := bind_eq_ok.mp h
  obtain ⟨first, hfirst⟩ := ih.multiplicative hleft
  obtain ⟨more, hmore⟩ := ih.additiveRest h
  exact ⟨.mk first more, by rw [hfirst, hmore, Grammar.Sum.tokens, List.append_assoc]⟩

theorem additiveRest_derives (h : additiveRest last (fuel + 1) depth left ts = .ok (e, rest)) :
    ∃ d : Grammar.Terms, bare ts = d.tokens ++ bare rest := by
  rw [additiveRest] at h
  split at h
  · rename_i op hop
    obtain ⟨⟨right, mid⟩, hright, h⟩ := bind_eq_ok.mp h
    obtain ⟨sign, hsign⟩ := sign_of_additiveOperator hop
    obtain ⟨term, hterm⟩ := ih.multiplicative hright
    obtain ⟨more, hmore⟩ := ih.additiveRest h
    refine ⟨.cons sign term more, ?_⟩
    rw [bare_of_peek hsign (sign_ne_stop sign), hterm, hmore, Grammar.Terms.tokens, List.cons_append, List.append_assoc]
  · cases h
    exact ⟨.nil, by rw [Grammar.Terms.tokens, List.nil_append]⟩

theorem multiplicative_derives (h : multiplicative last (fuel + 1) depth ts = .ok (e, rest)) :
    ∃ d : Grammar.Product, bare ts = d.tokens ++ bare rest := by
  rw [multiplicative] at h
  obtain ⟨⟨left, mid⟩, hleft, h⟩ := bind_eq_ok.mp h
  obtain ⟨first, hfirst⟩ := ih.unary hleft
  obtain ⟨more, hmore⟩ := ih.multiplicativeRest h
  exact ⟨.mk first more, by rw [hfirst, hmore, Grammar.Product.tokens, List.append_assoc]⟩

theorem multiplicativeRest_derives (h : multiplicativeRest last (fuel + 1) depth left ts = .ok (e, rest)) :
    ∃ d : Grammar.Factors, bare ts = d.tokens ++ bare rest := by
  rw [multiplicativeRest] at h
  split at h
  · rename_i op hop
    obtain ⟨⟨right, mid⟩, hright, h⟩ := bind_eq_ok.mp h
    obtain ⟨scale, hscale⟩ := scale_of_multiplicativeOperator hop
    obtain ⟨factor, hfactor⟩ := ih.unary hright
    obtain ⟨more, hmore⟩ := ih.multiplicativeRest h
    refine ⟨.cons scale factor more, ?_⟩
    rw [bare_of_peek hscale (scale_ne_stop scale), hfactor, hmore, Grammar.Factors.tokens, List.cons_append,
      List.append_assoc]
  · cases h
    exact ⟨.nil, by rw [Grammar.Factors.tokens, List.nil_append]⟩

theorem unary_derives (h : unary last (fuel + 1) depth ts = .ok (e, rest)) :
    ∃ d : Grammar.Operand, bare ts = d.tokens ++ bare rest := by
  rw [unary] at h
  split at h
  · cases h
  · split at h
    · rename_i hminus
      obtain ⟨⟨e', mid⟩, he', h⟩ := bind_eq_ok.mp h
      cases h
      obtain ⟨operand, hoperand⟩ := ih.unary he'
      refine ⟨.signed .minus operand, ?_⟩
      rw [bare_of_peek hminus (by simp), hoperand, Grammar.Operand.tokens, Grammar.Sign.token, List.cons_append]
    · rename_i hplus
      obtain ⟨operand, hoperand⟩ := ih.unary h
      refine ⟨.signed .plus operand, ?_⟩
      rw [bare_of_peek hplus (by simp), hoperand, Grammar.Operand.tokens, Grammar.Sign.token, List.cons_append]
    · obtain ⟨p, hp⟩ := ih.power h
      exact ⟨.power p, by rw [hp, Grammar.Operand.tokens]⟩

theorem power_derives (h : power last (fuel + 1) depth ts = .ok (e, rest)) :
    ∃ d : Grammar.Power, bare ts = d.tokens ++ bare rest := by
  rw [power] at h
  obtain ⟨⟨base, mid⟩, hbase, h⟩ := bind_eq_ok.mp h
  obtain ⟨atom, hatom⟩ := ih.primary hbase
  dsimp only at h
  split at h
  · rename_i hcaret
    obtain ⟨⟨e', mid'⟩, he', h⟩ := bind_eq_ok.mp h
    cases h
    obtain ⟨exponent, hexponent⟩ := ih.unary he'
    refine ⟨.raised atom exponent, ?_⟩
    rw [hatom, bare_of_peek hcaret (by simp), hexponent, Grammar.Power.tokens, List.append_assoc, List.cons_append]
  · cases h
    exact ⟨.atom atom, by rw [hatom, Grammar.Power.tokens]⟩

theorem arguments_derives (h : arguments last (fuel + 1) depth a ts = .ok (a', rest)) :
    ∃ part parts, Resumes a (part :: parts) ∧
      bare ts = [Token.comma].intercalate (part :: parts) ++ .rightParen :: bare rest := by
  rw [arguments] at h
  obtain ⟨⟨a'', mid⟩, ha'', h⟩ := bind_eq_ok.mp h
  obtain ⟨part, htakes, hpart⟩ := ih.argument ha''
  dsimp only at h
  split at h
  · rename_i hcomma
    obtain ⟨next, parts, hresumes, hparts⟩ := ih.arguments h
    refine ⟨part, next :: parts, htakes.before hresumes, ?_⟩
    rw [hpart, bare_of_peek hcomma (by simp), hparts, List.intercalate_cons_cons]
    simp
  · rename_i hclose
    cases h
    exact ⟨part, [], htakes.only, by rw [hpart, bare_of_peek hclose (by simp), List.intercalate_singleton]⟩
  · cases h

theorem argument_derives (h : argument last (fuel + 1) depth a ts = .ok (a', rest)) :
    ∃ part, Takes a part a' ∧ bare ts = part ++ bare rest := by
  rw [argument] at h
  split at h
  · rename_i key hkey hassign
    split at h
    · cases h
    · rename_i hnew
      obtain ⟨⟨e, mid⟩, he, h⟩ := bind_eq_ok.mp h
      cases h
      obtain ⟨value, hvalue⟩ := ih.additive he
      refine ⟨_, .keyword key value e fun hmem => hnew ?_, ?_⟩
      · obtain ⟨p, hp, rfl⟩ := List.mem_map.mp hmem
        exact List.any_eq_true.mpr ⟨p, hp, beq_self_eq_true _⟩
      · rw [bare_of_peek hkey (by simp), bare_of_peek hassign (by simp), hvalue, List.cons_append, List.cons_append]
  · split at h
    · rename_i hnil
      obtain ⟨⟨e, mid⟩, he, h⟩ := bind_eq_ok.mp h
      cases h
      obtain ⟨value, hvalue⟩ := ih.additive he
      exact ⟨_, .positional value e (List.isEmpty_iff.mp hnil), hvalue⟩
    · cases h

theorem primary_derives (h : primary last (fuel + 1) depth ts = .ok (e, rest)) :
    ∃ d : Grammar.Atom, bare ts = d.tokens ++ bare rest := by
  rw [primary] at h
  split at h
  · rename_i x hx
    cases h
    exact ⟨.number x, by rw [bare_of_peek hx (by simp), Grammar.Atom.tokens, List.singleton_append]⟩
  · rename_i s hs
    cases h
    exact ⟨.text s, by rw [bare_of_peek hs (by simp), Grammar.Atom.tokens, List.singleton_append]⟩
  · rename_i name hname
    split at h
    · rename_i hopen
      split at h
      · rename_i hclose
        cases h
        refine ⟨.call name (.keywords .nil), ?_⟩
        rw [bare_of_peek hname (by simp), bare_of_peek hopen (by simp), bare_of_peek hclose (by simp)]
        simp [Grammar.Atom.tokens, Grammar.Arguments.parts, Grammar.Keywords.parts]
      · obtain ⟨⟨a, mid⟩, ha, h⟩ := bind_eq_ok.mp h
        cases h
        obtain ⟨part, parts, hresumes, hparts⟩ := ih.arguments ha
        obtain ⟨args, hargs⟩ := hresumes.arguments
        refine ⟨.call name args, ?_⟩
        rw [bare_of_peek hname (by simp), bare_of_peek hopen (by simp), hparts, Grammar.Atom.tokens, hargs]
        simp
    · cases h
      exact ⟨.name name, by rw [bare_of_peek hname (by simp), Grammar.Atom.tokens, List.singleton_append]⟩
  · rename_i hopen
    obtain ⟨⟨e', mid⟩, he', h⟩ := bind_eq_ok.mp h
    obtain ⟨s, hs⟩ := ih.additive he'
    dsimp only at h
    split at h
    · rename_i hclose
      cases h
      refine ⟨.parens s, ?_⟩
      rw [bare_of_peek hopen (by simp), hs, bare_of_peek hclose (by simp), Grammar.Atom.tokens]
      simp
    · cases h
  · cases h

end

theorem derives (last : Nat) : ∀ fuel, Derives last fuel
  | 0 => derives_zero last
  | fuel + 1 => by
    -- Every part goes on to others with less fuel only, so they are all dealt with at once.
    have ih := derives last fuel
    exact ⟨additive_derives ih, additiveRest_derives ih, multiplicative_derives ih, multiplicativeRest_derives ih,
      unary_derives ih, power_derives ih, primary_derives ih, arguments_derives ih, argument_derives ih⟩

end Concord.Parser
