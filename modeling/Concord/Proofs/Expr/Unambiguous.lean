import Mathlib.Data.List.Basic
import Concord.Proofs.Expr.Grammar

/-! The grammar of expressions is unambiguous: what a derivation derives, and where it ends, is settled by the tokens,
    provided that the token behind it cannot go on with it. -/

namespace Concord.Grammar

/-! ### Ends -/

/-- How loosely a token goes on with what is in front of it: at once behind a name, then as an exponent, a factor or a
    term, or not at all. -/
def level : Token → Nat
  | .leftParen => 0
  | .caret => 1
  | .star => 2
  | .slash => 2
  | .plus => 3
  | .minus => 3
  | _ => 4

/-- Some tokens start with none that goes on more tightly. -/
def Stops (n : Nat) (ts : List Token) : Prop := n ≤ level (ts.headD .stop)

variable {n m : Nat} {t : Token} {ts rest rest' : List Token}

theorem Stops.mono (h : Stops n ts) (hle : m ≤ n) : Stops m ts := Nat.le_trans hle h

theorem stops_cons : Stops n (t :: ts) ↔ n ≤ level t := Iff.rfl

theorem stops_caret : Stops 1 (.caret :: ts) := Nat.le_refl 1

theorem not_stops_caret : ¬Stops 2 (.caret :: ts) := Nat.not_succ_le_self 1

theorem not_stops_leftParen : ¬Stops 1 (.leftParen :: ts) := Nat.not_succ_le_self 0

theorem stops_rightParen : Stops 4 (.rightParen :: ts) := Nat.le_refl 4

theorem level_sign : ∀ s : Sign, level s.token = 3
  | .plus => rfl
  | .minus => rfl

theorem level_scale : ∀ s : Scale, level s.token = 2
  | .times => rfl
  | .divided => rfl

theorem Sign.token_inj : ∀ {s s' : Sign}, s.token = s'.token → s = s'
  | .plus, .plus, _ => rfl
  | .minus, .minus, _ => rfl

theorem Scale.token_inj : ∀ {s s' : Scale}, s.token = s'.token → s = s'
  | .times, .times, _ => rfl
  | .divided, .divided, _ => rfl

theorem Terms.stops (ts : Terms) (h : Stops 4 rest) : Stops 3 (ts.tokens ++ rest) := by
  cases ts with
  | nil => exact h.mono (by decide)
  | cons sign _ _ => exact Nat.le_of_eq (level_sign sign).symm

theorem Factors.stops (fs : Factors) (h : Stops 3 rest) : Stops 2 (fs.tokens ++ rest) := by
  cases fs with
  | nil => exact h.mono (by decide)
  | cons scale _ _ => exact Nat.le_of_eq (level_scale scale).symm

/-! ### Starts -/

/-- The tokens that an atom may start with. -/
def startsAtom : Token → Bool
  | .number _ => true
  | .text _ => true
  | .identifier _ => true
  | .leftParen => true
  | _ => false

/-- The tokens that an operand may start with. -/
def startsOperand : Token → Bool
  | .plus => true
  | .minus => true
  | t => startsAtom t

theorem startsOperand_of_startsAtom (h : startsAtom t = true) : startsOperand t = true := by
  unfold startsOperand
  split
  · rfl
  · rfl
  · exact h

theorem startsOperand_sign : ∀ s : Sign, startsOperand s.token = true
  | .plus => rfl
  | .minus => rfl

theorem startsAtom_sign : ∀ s : Sign, startsAtom s.token = false
  | .plus => rfl
  | .minus => rfl

theorem Atom.starts : ∀ a : Atom, ∃ t ts, a.tokens = t :: ts ∧ startsAtom t = true
  | .number _ => ⟨_, _, by rw [Atom.tokens], rfl⟩
  | .text _ => ⟨_, _, by rw [Atom.tokens], rfl⟩
  | .name _ => ⟨_, _, by rw [Atom.tokens], rfl⟩
  | .call _ _ => ⟨_, _, by rw [Atom.tokens], rfl⟩
  | .parens _ => ⟨_, _, by rw [Atom.tokens], rfl⟩

theorem Power.starts : ∀ p : Power, ∃ t ts, p.tokens = t :: ts ∧ startsAtom t = true
  | .atom base => by
    rw [Power.tokens]
    exact base.starts
  | .raised base exponent => by
    obtain ⟨t, ts, htokens, ht⟩ := base.starts
    exact ⟨t, ts ++ .caret :: exponent.tokens, by rw [Power.tokens, htokens, List.cons_append], ht⟩

theorem Operand.starts : ∀ u : Operand, ∃ t ts, u.tokens = t :: ts ∧ startsOperand t = true
  | .signed sign operand => ⟨_, _, by rw [Operand.tokens], startsOperand_sign sign⟩
  | .power p => by
    obtain ⟨t, ts, htokens, ht⟩ := p.starts
    exact ⟨t, ts, by rw [Operand.tokens, htokens], startsOperand_of_startsAtom ht⟩

theorem Product.starts : ∀ p : Product, ∃ t ts, p.tokens = t :: ts ∧ startsOperand t = true
  | .mk first rest => by
    obtain ⟨t, ts, htokens, ht⟩ := first.starts
    exact ⟨t, ts ++ rest.tokens, by rw [Product.tokens, htokens, List.cons_append], ht⟩

theorem Sum.starts : ∀ s : Sum, ∃ t ts, s.tokens = t :: ts ∧ startsOperand t = true
  | .mk first rest => by
    obtain ⟨t, ts, htokens, ht⟩ := first.starts
    exact ⟨t, ts ++ rest.tokens, by rw [Sum.tokens, htokens, List.cons_append], ht⟩

/-- No sign is in front of a power. -/
theorem Power.not_signed (p : Power) (s : Sign) : p.tokens ++ rest ≠ s.token :: rest' := by
  intro h
  obtain ⟨t, ts, htokens, ht⟩ := p.starts
  rw [htokens, List.cons_append] at h
  rw [(List.cons.inj h).1, startsAtom_sign] at ht
  cases ht

/-! ### Arguments -/

/-- Arguments behind the first one, and the end of the call. -/
def further (parts : List (List Token)) (rest : List Token) : List Token :=
  parts.flatMap (Token.comma :: ·) ++ .rightParen :: rest

theorem further_cons {part : List Token} {parts : List (List Token)} :
    further (part :: parts) rest = .comma :: (part ++ further parts rest) := by
  simp [further]

theorem further_starts (parts : List (List Token)) (rest : List Token) :
    ∃ t ts, further parts rest = t :: ts ∧ (t = .comma ∨ t = .rightParen) := by
  cases parts with
  | nil => exact ⟨_, _, rfl, .inr rfl⟩
  | cons part parts => exact ⟨_, _, further_cons, .inl rfl⟩

theorem further_stops (parts : List (List Token)) (rest : List Token) : Stops 4 (further parts rest) := by
  obtain ⟨t, ts, heq, rfl | rfl⟩ := further_starts parts rest <;> rw [heq] <;> exact Nat.le_refl 4

theorem further_ne_assign {parts : List (List Token)} : further parts rest ≠ .assign :: rest' := by
  intro h
  obtain ⟨t, ts, heq, rfl | rfl⟩ := further_starts parts rest <;> rw [heq] at h <;> cases h

theorem intercalate_cons (part : List Token) : ∀ parts : List (List Token),
    [Token.comma].intercalate (part :: parts) = part ++ parts.flatMap (Token.comma :: ·)
  | [] => by simp
  | next :: parts => by
    rw [List.intercalate_cons_cons, intercalate_cons next parts]
    simp

/-- All arguments and the end of the call. -/
theorem intercalate_further (part : List Token) (parts : List (List Token)) :
    [Token.comma].intercalate (part :: parts) ++ .rightParen :: rest = part ++ further parts rest := by
  rw [intercalate_cons, List.append_assoc, further]

theorem Arguments.part_starts : ∀ {a : Arguments} {part : List Token} {parts : List (List Token)}, a.parts = part :: parts →
    ∃ t ts, part = t :: ts ∧ startsOperand t = true
  | .positional value _, _, _, h => by
    rw [Arguments.parts] at h
    cases h
    exact value.starts
  | .keywords .nil, _, _, h => by
    rw [Arguments.parts, Keywords.parts] at h
    cases h
  | .keywords (.cons _ _ _ _), _, _, h => by
    rw [Arguments.parts, Keywords.parts] at h
    cases h
    exact ⟨_, _, rfl, rfl⟩

/-- Arguments behind an opening parenthesis, told by what they are behind another argument. -/
theorem Arguments.further_eq {a a' : Arguments}
    (h : [Token.comma].intercalate a.parts ++ .rightParen :: rest =
      [Token.comma].intercalate a'.parts ++ .rightParen :: rest') : further a.parts rest = further a'.parts rest' := by
  cases hparts : a.parts with
  | nil =>
    cases hparts' : a'.parts with
    | nil => rwa [hparts, hparts'] at h
    | cons part parts =>
      obtain ⟨t, ts, rfl, ht⟩ := Arguments.part_starts hparts'
      rw [hparts, hparts', intercalate_further] at h
      cases h
      cases ht
  | cons part parts =>
    obtain ⟨t, ts, rfl, ht⟩ := Arguments.part_starts hparts
    cases hparts' : a'.parts with
    | nil =>
      rw [hparts, hparts', intercalate_further] at h
      cases h
      cases ht
    | cons part' parts' =>
      rw [hparts, hparts', intercalate_further, intercalate_further] at h
      rw [further_cons, further_cons, h]

/-- An equals sign behind a name belongs to no expression. -/
theorem Sum.assign_behind {s : Sum} {key : String} (h : s.tokens ++ rest = .identifier key :: .assign :: rest') :
    rest = .assign :: rest' := by
  obtain ⟨⟨u, fs⟩, ts⟩ := s
  rw [Sum.tokens, Product.tokens, List.append_assoc, List.append_assoc] at h
  cases u with
  | signed sign operand =>
    cases sign <;> cases h
  | power p =>
    rw [Operand.tokens] at h
    cases p with
    | raised base exponent =>
      rw [Power.tokens] at h
      cases base <;> rw [Atom.tokens] at h <;> cases h
    | atom base =>
      rw [Power.tokens] at h
      cases base with
      | name name =>
        rw [Atom.tokens] at h
        -- What may follow the name is an operator or, if there is none, the rest.
        cases fs with
        | cons scale _ _ => cases scale <;> cases h
        | nil =>
          cases ts with
          | cons sign _ _ => cases sign <;> cases h
          | nil =>
            rw [Factors.tokens, Terms.tokens] at h
            exact (List.cons.inj h).2
      | number _ => cases h
      | text _ => cases h
      | call _ _ => cases h
      | parens _ => cases h

/-! ### Derivations -/

mutual

/-- The tokens settle the derivation, and what is behind it. -/
theorem Sum.unique : ∀ (s s' : Sum) {rest rest' : List Token}, Stops 4 rest → Stops 4 rest' →
    s.tokens ++ rest = s'.tokens ++ rest' → s = s' ∧ rest = rest'
  | .mk first ts, .mk first' ts', rest, rest', hstop, hstop', h => by
    rw [Sum.tokens, Sum.tokens, List.append_assoc, List.append_assoc] at h
    obtain ⟨rfl, hrest⟩ := first.unique first' (ts.stops hstop) (ts'.stops hstop') h
    obtain ⟨rfl, rfl⟩ := ts.unique ts' hstop hstop' hrest
    exact ⟨rfl, rfl⟩

theorem Terms.unique : ∀ (ts ts' : Terms) {rest rest' : List Token}, Stops 4 rest → Stops 4 rest' →
    ts.tokens ++ rest = ts'.tokens ++ rest' → ts = ts' ∧ rest = rest'
  | .nil, .nil, _, _, _, _, h => ⟨rfl, h⟩
  | .nil, .cons sign _ _, rest, _, hstop, _, h => by
    rw [Terms.tokens, Terms.tokens, List.nil_append, List.cons_append] at h
    rw [h, stops_cons, level_sign] at hstop
    exact absurd hstop (by decide)
  | .cons sign _ _, .nil, _, rest', _, hstop, h => by
    rw [Terms.tokens, Terms.tokens, List.nil_append, List.cons_append] at h
    rw [← h, stops_cons, level_sign] at hstop
    exact absurd hstop (by decide)
  | .cons sign term ts, .cons sign' term' ts', _, _, hstop, hstop', h => by
    rw [Terms.tokens, Terms.tokens, List.cons_append, List.cons_append, List.append_assoc, List.append_assoc] at h
    obtain ⟨hsign, hterm⟩ := List.cons.inj h
    obtain rfl := Sign.token_inj hsign
    obtain ⟨rfl, hrest⟩ := term.unique term' (ts.stops hstop) (ts'.stops hstop') hterm
    obtain ⟨rfl, rfl⟩ := ts.unique ts' hstop hstop' hrest
    exact ⟨rfl, rfl⟩

theorem Product.unique : ∀ (p p' : Product) {rest rest' : List Token}, Stops 3 rest → Stops 3 rest' →
    p.tokens ++ rest = p'.tokens ++ rest' → p = p' ∧ rest = rest'
  | .mk first fs, .mk first' fs', rest, rest', hstop, hstop', h => by
    rw [Product.tokens, Product.tokens, List.append_assoc, List.append_assoc] at h
    obtain ⟨rfl, hrest⟩ := first.unique first' (fs.stops hstop) (fs'.stops hstop') h
    obtain ⟨rfl, rfl⟩ := fs.unique fs' hstop hstop' hrest
    exact ⟨rfl, rfl⟩

theorem Factors.unique : ∀ (fs fs' : Factors) {rest rest' : List Token}, Stops 3 rest → Stops 3 rest' →
    fs.tokens ++ rest = fs'.tokens ++ rest' → fs = fs' ∧ rest = rest'
  | .nil, .nil, _, _, _, _, h => ⟨rfl, h⟩
  | .nil, .cons scale _ _, rest, _, hstop, _, h => by
    rw [Factors.tokens, Factors.tokens, List.nil_append, List.cons_append] at h
    rw [h, stops_cons, level_scale] at hstop
    exact absurd hstop (by decide)
  | .cons scale _ _, .nil, _, rest', _, hstop, h => by
    rw [Factors.tokens, Factors.tokens, List.nil_append, List.cons_append] at h
    rw [← h, stops_cons, level_scale] at hstop
    exact absurd hstop (by decide)
  | .cons scale factor fs, .cons scale' factor' fs', _, _, hstop, hstop', h => by
    rw [Factors.tokens, Factors.tokens, List.cons_append, List.cons_append, List.append_assoc, List.append_assoc] at h
    obtain ⟨hscale, hfactor⟩ := List.cons.inj h
    obtain rfl := Scale.token_inj hscale
    obtain ⟨rfl, hrest⟩ := factor.unique factor' (fs.stops hstop) (fs'.stops hstop') hfactor
    obtain ⟨rfl, rfl⟩ := fs.unique fs' hstop hstop' hrest
    exact ⟨rfl, rfl⟩

theorem Operand.unique : ∀ (u u' : Operand) {rest rest' : List Token}, Stops 2 rest → Stops 2 rest' →
    u.tokens ++ rest = u'.tokens ++ rest' → u = u' ∧ rest = rest'
  | .signed sign u, .signed sign' u', _, _, hstop, hstop', h => by
    rw [Operand.tokens, Operand.tokens, List.cons_append, List.cons_append] at h
    obtain ⟨hsign, hoperand⟩ := List.cons.inj h
    obtain rfl := Sign.token_inj hsign
    obtain ⟨rfl, rfl⟩ := u.unique u' hstop hstop' hoperand
    exact ⟨rfl, rfl⟩
  | .signed sign u, .power p, _, _, _, _, h => by
    rw [Operand.tokens, Operand.tokens, List.cons_append] at h
    exact absurd h.symm (p.not_signed sign)
  | .power p, .signed sign u, _, _, _, _, h => by
    rw [Operand.tokens, Operand.tokens, List.cons_append] at h
    exact absurd h (p.not_signed sign)
  | .power p, .power p', _, _, hstop, hstop', h => by
    rw [Operand.tokens, Operand.tokens] at h
    obtain ⟨rfl, rfl⟩ := p.unique p' hstop hstop' h
    exact ⟨rfl, rfl⟩

theorem Power.unique : ∀ (p p' : Power) {rest rest' : List Token}, Stops 2 rest → Stops 2 rest' →
    p.tokens ++ rest = p'.tokens ++ rest' → p = p' ∧ rest = rest'
  | .atom a, .atom a', _, _, hstop, hstop', h => by
    rw [Power.tokens, Power.tokens] at h
    obtain ⟨rfl, rfl⟩ := a.unique a' (hstop.mono (by decide)) (hstop'.mono (by decide)) h
    exact ⟨rfl, rfl⟩
  | .atom a, .raised a' u', _, _, hstop, hstop', h => by
    rw [Power.tokens, Power.tokens, List.append_assoc, List.cons_append] at h
    obtain ⟨-, rfl⟩ := a.unique a' (hstop.mono (by decide)) stops_caret h
    exact absurd hstop not_stops_caret
  | .raised a u, .atom a', _, _, hstop, hstop', h => by
    rw [Power.tokens, Power.tokens, List.append_assoc, List.cons_append] at h
    obtain ⟨-, rfl⟩ := a.unique a' stops_caret (hstop'.mono (by decide)) h
    exact absurd hstop' not_stops_caret
  | .raised a u, .raised a' u', _, _, hstop, hstop', h => by
    rw [Power.tokens, Power.tokens, List.append_assoc, List.cons_append, List.append_assoc, List.cons_append] at h
    obtain ⟨rfl, hexponent⟩ := a.unique a' stops_caret stops_caret h
    obtain ⟨rfl, rfl⟩ := u.unique u' hstop hstop' (List.cons.inj hexponent).2
    exact ⟨rfl, rfl⟩

theorem Atom.unique : ∀ (a a' : Atom) {rest rest' : List Token}, Stops 1 rest → Stops 1 rest' →
    a.tokens ++ rest = a'.tokens ++ rest' → a = a' ∧ rest = rest'
  | .number x, a', _, _, _, _, h => by
    cases a' <;> cases h
    exact ⟨rfl, rfl⟩
  | .text s, a', _, _, _, _, h => by
    cases a' <;> cases h
    exact ⟨rfl, rfl⟩
  | .name name, a', _, _, hstop, _, h => by
    cases a' with
    | name name' =>
      cases h
      exact ⟨rfl, rfl⟩
    | call name' args =>
      rw [Atom.tokens, Atom.tokens] at h
      cases h
      exact absurd hstop not_stops_leftParen
    | _ => cases h
  | .call name args, a', _, _, _, hstop, h => by
    cases a' with
    | call name' args' =>
      rw [Atom.tokens, Atom.tokens] at h
      simp only [List.cons_append, List.append_assoc, List.nil_append] at h
      obtain ⟨hname, hargs⟩ := List.cons.inj h
      cases hname
      obtain ⟨rfl, rfl⟩ := args.unique args' (Arguments.further_eq (List.cons.inj hargs).2)
      exact ⟨rfl, rfl⟩
    | name name' =>
      rw [Atom.tokens, Atom.tokens] at h
      cases h
      exact absurd hstop not_stops_leftParen
    | _ => cases h
  | .parens s, a', _, _, _, _, h => by
    cases a' with
    | parens s' =>
      rw [Atom.tokens, Atom.tokens] at h
      simp only [List.cons_append, List.append_assoc, List.nil_append] at h
      obtain ⟨rfl, hrest⟩ := s.unique s' stops_rightParen stops_rightParen (List.cons.inj h).2
      exact ⟨rfl, (List.cons.inj hrest).2⟩
    | _ => cases h

theorem Arguments.unique : ∀ (a a' : Arguments) {rest rest' : List Token},
    further a.parts rest = further a'.parts rest' → a = a' ∧ rest = rest'
  | .positional value a, .positional value' a', rest, rest', h => by
    rw [Arguments.parts, Arguments.parts, further_cons, further_cons] at h
    obtain ⟨rfl, hrest⟩ := value.unique value' (further_stops _ _) (further_stops _ _) (List.cons.inj h).2
    obtain ⟨rfl, rfl⟩ := a.unique a' hrest
    exact ⟨rfl, rfl⟩
  | .positional value a, .keywords .nil, rest, rest', h => by
    rw [Arguments.parts, further_cons] at h
    cases h
  | .positional value a, .keywords (.cons key value' ks _), rest, rest', h => by
    rw [Arguments.parts, Arguments.parts, Keywords.parts, further_cons, further_cons] at h
    exact absurd (Sum.assign_behind (List.cons.inj h).2) further_ne_assign
  | .keywords .nil, .positional value a, rest, rest', h => by
    rw [Arguments.parts, Arguments.parts, further_cons] at h
    cases h
  | .keywords (.cons key value' ks _), .positional value a, rest, rest', h => by
    rw [Arguments.parts, Arguments.parts, Keywords.parts, further_cons, further_cons] at h
    exact absurd (Sum.assign_behind (List.cons.inj h).2.symm) further_ne_assign
  | .keywords ks, .keywords ks', rest, rest', h => by
    obtain ⟨hks, rfl⟩ := ks.unique ks' h
    cases hks
    exact ⟨rfl, rfl⟩

theorem Keywords.unique : ∀ {keys : List String} (ks : Keywords keys) {keys' : List String} (ks' : Keywords keys')
    {rest rest' : List Token}, further ks.parts rest = further ks'.parts rest' →
    (⟨keys, ks⟩ : Σ keys, Keywords keys) = ⟨keys', ks'⟩ ∧ rest = rest'
  | _, .nil, _, .nil, rest, rest', h => ⟨rfl, (List.cons.inj h).2⟩
  | _, .nil, _, .cons key value ks _, rest, rest', h => by
    rw [Keywords.parts, Keywords.parts, further_cons] at h
    cases h
  | _, .cons key value ks _, _, .nil, rest, rest', h => by
    rw [Keywords.parts, Keywords.parts, further_cons] at h
    cases h
  | _, .cons key value ks _, _, .cons key' value' ks' _, rest, rest', h => by
    rw [Keywords.parts, Keywords.parts, further_cons, further_cons] at h
    obtain ⟨hkey, hvalue⟩ := List.cons.inj (List.cons.inj h).2
    cases hkey
    obtain ⟨rfl, hrest⟩ := value.unique value' (further_stops _ _) (further_stops _ _) (List.cons.inj hvalue).2
    obtain ⟨hks, rfl⟩ := ks.unique ks' hrest
    cases hks
    exact ⟨rfl, rfl⟩

end

/-! ### End marks -/

theorem Sign.stop_ne : ∀ s : Sign, Token.stop ≠ s.token
  | .plus => by simp [Sign.token]
  | .minus => by simp [Sign.token]

theorem Scale.stop_ne : ∀ s : Scale, Token.stop ≠ s.token
  | .times => by simp [Scale.token]
  | .divided => by simp [Scale.token]

theorem stop_not_mem_intercalate : ∀ {parts : List (List Token)}, (∀ part ∈ parts, Token.stop ∉ part) →
    Token.stop ∉ [Token.comma].intercalate parts
  | [], _ => by simp
  | part :: parts, h => by
    rw [intercalate_cons, List.mem_append, List.mem_flatMap]
    rintro (hmem | ⟨part', hpart', hmem⟩)
    · exact h part List.mem_cons_self hmem
    · exact h part' (List.mem_cons_of_mem _ hpart') (by simpa using hmem)

mutual

/-- No end mark is derived. -/
theorem Sum.stop_not_mem : ∀ s : Sum, Token.stop ∉ s.tokens
  | .mk first ts => by simp [Sum.tokens, first.stop_not_mem, ts.stop_not_mem]

theorem Terms.stop_not_mem : ∀ ts : Terms, Token.stop ∉ ts.tokens
  | .nil => by simp [Terms.tokens]
  | .cons sign term ts => by simp [Terms.tokens, sign.stop_ne, term.stop_not_mem, ts.stop_not_mem]

theorem Product.stop_not_mem : ∀ p : Product, Token.stop ∉ p.tokens
  | .mk first fs => by simp [Product.tokens, first.stop_not_mem, fs.stop_not_mem]

theorem Factors.stop_not_mem : ∀ fs : Factors, Token.stop ∉ fs.tokens
  | .nil => by simp [Factors.tokens]
  | .cons scale factor fs => by simp [Factors.tokens, scale.stop_ne, factor.stop_not_mem, fs.stop_not_mem]

theorem Operand.stop_not_mem : ∀ u : Operand, Token.stop ∉ u.tokens
  | .signed sign u => by simp [Operand.tokens, sign.stop_ne, u.stop_not_mem]
  | .power p => by simp [Operand.tokens, p.stop_not_mem]

theorem Power.stop_not_mem : ∀ p : Power, Token.stop ∉ p.tokens
  | .atom base => by simp [Power.tokens, base.stop_not_mem]
  | .raised base exponent => by simp [Power.tokens, base.stop_not_mem, exponent.stop_not_mem]

theorem Atom.stop_not_mem : ∀ a : Atom, Token.stop ∉ a.tokens
  | .number _ => by simp [Atom.tokens]
  | .text _ => by simp [Atom.tokens]
  | .name _ => by simp [Atom.tokens]
  | .call _ args => by simp [Atom.tokens, stop_not_mem_intercalate args.stop_not_mem]
  | .parens s => by simp [Atom.tokens, s.stop_not_mem]

theorem Arguments.stop_not_mem : ∀ (a : Arguments), ∀ part ∈ a.parts, Token.stop ∉ part
  | .positional value a => by
    rw [Arguments.parts]
    exact List.forall_mem_cons.mpr ⟨value.stop_not_mem, a.stop_not_mem⟩
  | .keywords ks => by
    rw [Arguments.parts]
    exact ks.stop_not_mem

theorem Keywords.stop_not_mem : ∀ {keys : List String} (ks : Keywords keys), ∀ part ∈ ks.parts, Token.stop ∉ part
  | _, .nil => by simp [Keywords.parts]
  | _, .cons key value ks _ => by
    rw [Keywords.parts]
    exact List.forall_mem_cons.mpr ⟨by simp [value.stop_not_mem], ks.stop_not_mem⟩

end

/-- No two derivations have the same tokens. -/
theorem Sum.tokens_inj : Function.Injective Sum.tokens := by
  intro s s' h
  have hend : Stops 4 [] := Nat.le_refl 4
  have happend : s.tokens ++ [] = s'.tokens ++ [] := by rw [h]
  exact (s.unique s' hend hend happend).1

end Concord.Grammar
