import Concord.Proofs.Expr.Lexed
import Concord.Proofs.Expr.Parts

/-! The tokens of canonical text. Every expression that reading gives, if its literals are finite, is written as these
    tokens. -/

namespace Concord

namespace Expr

variable {e : Expr} {name op : String} {args : List Expr} {kwargs : List (String × Expr)}

/-! ### Canonical text -/

theorem canonicalArguments_eq : ∀ es : List Expr, canonicalArguments es = es.map canonical
  | [] => rfl
  | e :: es => by rw [canonicalArguments, canonicalArguments_eq es, List.map_cons]

theorem canonicalKeywords_eq : ∀ ps : List (String × Expr),
    canonicalKeywords ps = ps.map fun p => p.1 ++ "=" ++ p.2.canonical
  | [] => rfl
  | (k, e) :: ps => by rw [canonicalKeywords, canonicalKeywords_eq ps, List.map_cons]

theorem isOperator_iff : isOperator op = true ↔ op = "+" ∨ op = "-" ∨ op = "*" ∨ op = "/" ∨ op = "^" := by
  unfold isOperator
  simp

/-- Operators are no names. -/
theorem not_isOperator (h : IsName name) : isOperator name = false := by
  refine Bool.eq_false_iff.mpr fun hop => ?_
  rcases isOperator_iff.mp hop with rfl | rfl | rfl | rfl | rfl <;> revert h <;> unfold IsName <;> decide

theorem canonical_negative : (apply "-" [e]).canonical = "(" ++ "-" ++ e.canonical ++ ")" := by
  rw [apply, canonical, canonicalArguments_eq, canonicalKeywords_eq]
  rfl

theorem canonical_binary {left right : Expr} (h : isOperator op = true) :
    (apply op [left, right]).canonical = "(" ++ left.canonical ++ " " ++ op ++ " " ++ right.canonical ++ ")" := by
  rw [apply, canonical, canonicalArguments_eq, canonicalKeywords_eq]
  unfold callText
  rw [h]
  rfl

theorem canonical_call (h : isOperator name = false) : (Expr.call name args kwargs).canonical =
    name ++ "(" ++ ", ".intercalate (args.map canonical ++ kwargs.map fun p => p.1 ++ "=" ++ p.2.canonical) ++ ")" := by
  rw [canonical, canonicalArguments_eq, canonicalKeywords_eq]
  unfold callText
  rw [h]
  rfl

/-! ### Its tokens -/

/-- The token of an operator. -/
def operatorToken (op : String) : Token :=
  if op = "+" then .plus else if op = "-" then .minus else if op = "*" then .star else if op = "/" then .slash else .caret

/-- The tokens of a call, given those of its arguments. -/
def callTokens (name : String) (args kwargs : List (List Token)) : List Token :=
  match isOperator name && kwargs.isEmpty, args with
  | true, [only] => .leftParen :: operatorToken name :: only ++ [.rightParen]
  | true, [left, right] => .leftParen :: left ++ operatorToken name :: right ++ [.rightParen]
  | _, _ => .identifier name :: .leftParen :: [Token.comma].intercalate (args ++ kwargs) ++ [.rightParen]

mutual

/-- The tokens of the canonical text of an expression. -/
def spell : Expr → List Token
  | .number x => if x.isNegative then [.minus, .number (-x)] else [.number x]
  | .text s => [.text s]
  | .operand name => [.identifier name]
  | .call name args kwargs => callTokens name (spellArguments args) (spellKeywords kwargs)

def spellArguments : List Expr → List (List Token)
  | [] => []
  | e :: es => spell e :: spellArguments es

def spellKeywords : List (String × Expr) → List (List Token)
  | [] => []
  | (k, e) :: rest => (.identifier k :: .assign :: spell e) :: spellKeywords rest

end

theorem spellArguments_eq : ∀ es : List Expr, spellArguments es = es.map spell
  | [] => rfl
  | e :: es => by rw [spellArguments, spellArguments_eq es, List.map_cons]

theorem spellKeywords_eq : ∀ ps : List (String × Expr),
    spellKeywords ps = ps.map fun p => .identifier p.1 :: .assign :: p.2.spell
  | [] => rfl
  | (k, e) :: ps => by rw [spellKeywords, spellKeywords_eq ps, List.map_cons]

theorem spell_negative : (apply "-" [e]).spell = .leftParen :: .minus :: e.spell ++ [.rightParen] := by
  rw [apply, spell, spellArguments_eq, spellKeywords_eq]
  rfl

theorem spell_binary {left right : Expr} (h : isOperator op = true) :
    (apply op [left, right]).spell = .leftParen :: left.spell ++ operatorToken op :: right.spell ++ [.rightParen] := by
  rw [apply, spell, spellArguments_eq, spellKeywords_eq]
  unfold callTokens
  rw [h]
  rfl

theorem spell_call (h : isOperator name = false) : (Expr.call name args kwargs).spell =
    .identifier name :: .leftParen :: [Token.comma].intercalate
      (args.map spell ++ kwargs.map fun p => .identifier p.1 :: .assign :: p.2.spell) ++ [.rightParen] := by
  rw [spell, spellArguments_eq, spellKeywords_eq]
  unfold callTokens
  rw [h]
  rfl

end Expr

namespace Lexer

open Concord.Expr

/-- A text adds some tokens to those of what is put behind it, if that does not go on with a number or a name. -/
def Spells (cs : List Char) (spelled : List Token) : Prop :=
  ∀ {rest tokens}, Delimited rest → Lexed rest tokens → Lexed (cs ++ rest) (spelled ++ tokens)

theorem spells_number {x : Double} (hfinite : x.isFinite = true) : Spells (Expr.number x).canonical.toList (Expr.number x).spell := by
  intro rest tokens hrest h
  rw [canonical, spell]
  split
  · rename_i hsign
    have hfinite' : (-x).isFinite = true := by
      unfold Double.isFinite
      rw [Double.magnitudeBits_neg]
      exact hfinite
    have hsign' : (-x).isNegative = false := by rw [Double.isNegative_neg, hsign]; rfl
    rw [Decimal.plain_neg hfinite hsign]
    exact (h.number hrest (Decimal.literal_plain hfinite' hsign')).symbol rfl
  · rename_i hsign
    exact h.number hrest (Decimal.literal_plain hfinite (Bool.eq_false_iff.mpr hsign))

theorem Lexed.operator {rest : List Char} {tokens : List Token} {op : String} (h : Lexed rest tokens)
    (hop : isOperator op = true) : Lexed (op.toList ++ ' ' :: rest) (operatorToken op :: tokens) := by
  rcases isOperator_iff.mp hop with rfl | rfl | rfl | rfl | rfl
  · exact h.blank.symbol rfl
  · exact h.blank.symbol rfl
  · exact h.blank.star (by simp)
  · exact h.blank.symbol rfl
  · exact h.blank.symbol rfl

/-- Texts with commas between them, in front of a closing parenthesis. -/
theorem lexed_separated : ∀ {items : List (List Char × List Token)} {rest : List Char} {tokens : List Token},
    (∀ x ∈ items, Spells x.1 x.2) → Lexed rest tokens →
      Lexed ([',', ' '].intercalate (items.map Prod.fst) ++ ')' :: rest)
        ([Token.comma].intercalate (items.map Prod.snd) ++ .rightParen :: tokens)
  | [], rest, tokens, _, h => h.symbol rfl
  | [x], rest, tokens, hitems, h => by
    simp only [List.map_cons, List.map_nil, List.intercalate_singleton]
    exact hitems x List.mem_cons_self (delimited_cons (by decide)) (h.symbol rfl)
  | x :: y :: items, rest, tokens, hitems, h => by
    have ih := lexed_separated (fun z hz => hitems z (List.mem_cons_of_mem x hz)) h
    simp only [List.map_cons, List.intercalate_cons_cons, List.append_assoc, List.cons_append, List.nil_append] at ih ⊢
    exact hitems x List.mem_cons_self (delimited_cons (by decide)) (ih.blank.symbol rfl)

/-- An expression with finite literals is written as its tokens. -/
theorem spells_canonical {e : Expr} (h : e.Formed) (hfinite : ∀ x, (Expr.number x).Within e → x.isFinite = true) :
    Spells e.canonical.toList e.spell := by
  induction h with
  | number _ => exact spells_number (hfinite _ .self)
  | text s => exact fun _ h => h.text s
  | operand hname => exact fun hrest h => h.name hrest hname
  | @negative e _ _ ih =>
    intro rest tokens _ h
    have he := ih (fun x hx => hfinite x (.argument List.mem_cons_self hx)) (delimited_cons (by decide)) (h.symbol (c := ')') rfl)
    rw [canonical_negative, spell_negative]
    simpa using (he.symbol (c := '-') rfl).symbol (c := '(') rfl
  | @binary op left right hop _ _ ihleft ihright =>
    intro rest tokens _ h
    have hright := ihright (fun x hx => hfinite x (.argument (by simp) hx)) (delimited_cons (by decide)) (h.symbol (c := ')') rfl)
    have hleft := ihleft (fun x hx => hfinite x (.argument (by simp) hx)) (delimited_cons (by decide)) (hright.operator hop).blank
    rw [canonical_binary hop, spell_binary hop]
    simpa using hleft.symbol (c := '(') rfl
  | @call name args kwargs hname _ hnames _ _ ihargs ihkwargs =>
    intro rest tokens _ h
    have hargs : ∀ a ∈ args, Spells a.canonical.toList a.spell :=
      fun a ha => ihargs a ha fun x hx => hfinite x (.argument ha hx)
    have hkwargs : ∀ p ∈ kwargs, Spells (p.1 ++ "=" ++ p.2.canonical).toList (.identifier p.1 :: .assign :: p.2.spell) := by
      intro p hp rest tokens hrest h
      have he := ihkwargs p hp (fun x hx => hfinite x (.keyword hp hx)) hrest h
      simpa using Lexed.name (he.symbol (c := '=') rfl) (delimited_cons (by decide)) (hnames p hp)
    have hitems : ∀ x ∈ args.map (fun a => (a.canonical.toList, a.spell)) ++
        kwargs.map (fun p => ((p.1 ++ "=" ++ p.2.canonical).toList, .identifier p.1 :: .assign :: p.2.spell)),
        Spells x.1 x.2 := by
      intro x hx
      rcases List.mem_append.mp hx with hx | hx
      · obtain ⟨a, ha, rfl⟩ := List.mem_map.mp hx
        exact hargs a ha
      · obtain ⟨p, hp, rfl⟩ := List.mem_map.mp hx
        exact hkwargs p hp
    have hlist := Lexed.name ((lexed_separated hitems h).symbol (c := '(') rfl) (delimited_cons (by decide)) hname
    rw [canonical_call (not_isOperator hname), spell_call (not_isOperator hname)]
    simpa [String.toList_intercalate, Function.comp_def] using hlist

end Lexer
end Concord

/-! Parsing with a bound on the nesting, one lemma for each way a part of the parser goes: what it gives as long as the
    operands around the innermost are no more than the bound, and that it fails for the nesting beyond it. -/

namespace Concord.Parser

open Concord.Expr

/-- Parsing fails for the nesting. -/
def TooDeep {α : Type} (r : Except SyntaxError α) : Prop := ∃ last ts, r = .error (fail last ts .nestedTooDeeply)

/-- Where the signed operands are nested `n` deep, parsing gives a value and what is left, unless they are too many. -/
structure Yields {α : Type} (n : Nat) (a : α) (rest : List Spanned) (r : Except SyntaxError (Front α)) : Prop where
  ok : n ≤ depthLimit → r = .ok (a, rest)
  deep : depthLimit < n → TooDeep r

theorem yields_ok {α : Type} {n : Nat} {a : α} {rest : List Spanned} (h : n ≤ depthLimit) : Yields n a rest (.ok (a, rest)) :=
  ⟨fun _ => rfl, fun hlt => absurd h (Nat.not_le.mpr hlt)⟩

/-- One part of the parser goes on after another. -/
theorem Yields.bind {α β : Type} {n m : Nat} {a : α} {b : β} {mid rest : List Spanned} {r : Except SyntaxError (Front α)}
    {next : Front α → Except SyntaxError (Front β)} (h : Yields n a mid r)
    (hnext : n ≤ depthLimit → Yields m b rest (next (a, mid))) : Yields (max n m) b rest (r >>= next) := by
  refine ⟨fun hle => ?_, fun hlt => ?_⟩
  · rw [h.ok (by omega)]
    exact (hnext (by omega)).ok (by omega)
  · rcases Nat.lt_or_ge depthLimit n with hn | hn
    · obtain ⟨last, ts, hfail⟩ := h.deep hn
      exact ⟨last, ts, by rw [hfail]; rfl⟩
    · obtain ⟨last, ts, hfail⟩ := (hnext hn).deep (by omega)
      exact ⟨last, ts, by rw [h.ok hn]; exact hfail⟩

/-- The rest of a part does not nest further. -/
theorem Yields.then {α β : Type} {n : Nat} {a : α} {b : β} {mid rest : List Spanned} {r : Except SyntaxError (Front α)}
    {next : Front α → Except SyntaxError (Front β)} (h : Yields n a mid r) (hnext : next (a, mid) = .ok (b, rest)) :
    Yields n b rest (r >>= next) := by
  refine ⟨fun hle => ?_, fun hlt => ?_⟩
  · rw [h.ok hle]
    exact hnext
  · obtain ⟨last, ts, hfail⟩ := h.deep hlt
    exact ⟨last, ts, by rw [hfail]; rfl⟩

@[simp] theorem peek_cons (t : Spanned) (ts : List Spanned) : peek (t :: ts) = t.token := rfl

variable {last fuel depth n m : Nat} {e left right : Expr} {ts mid rest : List Spanned} {t : Spanned} {op : String}

/-! ### Sums and products -/

theorem additiveRest_none (h : additiveOperator (peek ts) = none) :
    additiveRest last (fuel + 1) depth e ts = .ok (e, ts) := by
  rw [additiveRest, h]

theorem multiplicativeRest_none (h : multiplicativeOperator (peek ts) = none) :
    multiplicativeRest last (fuel + 1) depth e ts = .ok (e, ts) := by
  rw [multiplicativeRest, h]

theorem multiplicative_single (hmul : multiplicativeOperator (peek rest) = none)
    (h : Yields n e rest (unary last (fuel + 1) depth ts)) : Yields n e rest (multiplicative last (fuel + 2) depth ts) := by
  rw [multiplicative]
  exact h.then (multiplicativeRest_none hmul)

theorem additive_single (hadd : additiveOperator (peek rest) = none) (hmul : multiplicativeOperator (peek rest) = none)
    (h : Yields n e rest (unary last (fuel + 1) depth ts)) : Yields n e rest (additive last (fuel + 3) depth ts) := by
  rw [additive]
  exact (multiplicative_single hmul h).then (additiveRest_none hadd)

theorem additive_sum (hop : additiveOperator t.token = some op) (hmul : multiplicativeOperator t.token = none)
    (hadd' : additiveOperator (peek rest) = none) (hmul' : multiplicativeOperator (peek rest) = none)
    (hleft : Yields n left (t :: mid) (unary last (fuel + 2) depth ts))
    (hright : Yields m right rest (unary last (fuel + 1) depth mid)) :
    Yields (max n m) (apply op [left, right]) rest (additive last (fuel + 4) depth ts) := by
  have hterm : Yields n left (t :: mid) (multiplicative last (fuel + 3) depth ts) := multiplicative_single hmul hleft
  rw [additive]
  refine hterm.bind fun _ => ?_
  dsimp only
  rw [additiveRest, peek_cons, hop]
  exact (multiplicative_single hmul' hright).then (additiveRest_none hadd')

theorem additive_product (hop : multiplicativeOperator t.token = some op) (hadd' : additiveOperator (peek rest) = none)
    (hmul' : multiplicativeOperator (peek rest) = none) (hleft : Yields n left (t :: mid) (unary last (fuel + 2) depth ts))
    (hright : Yields m right rest (unary last (fuel + 1) depth mid)) :
    Yields (max n m) (apply op [left, right]) rest (additive last (fuel + 4) depth ts) := by
  rw [additive]
  refine Yields.then ?_ (additiveRest_none hadd')
  rw [multiplicative]
  refine hleft.bind fun _ => ?_
  dsimp only
  rw [multiplicativeRest, peek_cons, hop]
  exact hright.then (multiplicativeRest_none hmul')

/-! ### Signs -/

/-- The signs that an operand may start with. -/
def isSign : Token → Bool
  | .plus => true
  | .minus => true
  | _ => false

theorem unary_limit : TooDeep (unary last (fuel + 1) depthLimit ts) := ⟨last, ts, by rw [unary, if_pos rfl]⟩

theorem unary_plain (hdepth : depth ≤ depthLimit) (hsign : isSign (peek ts) = false) (hn : depth < n)
    (h : depth < depthLimit → Yields n e rest (power last fuel (depth + 1) ts)) :
    Yields n e rest (unary last (fuel + 1) depth ts) := by
  -- At the limit the operand is refused, and what it is part of is nested deeper than that.
  rcases Nat.eq_or_lt_of_le hdepth with rfl | hlt
  · exact ⟨fun hle => absurd hle (Nat.not_le.mpr hn), fun _ => unary_limit⟩
  · rw [unary, if_neg hlt.ne]
    split
    · rename_i hminus
      rw [hminus] at hsign
      cases hsign
    · rename_i hplus
      rw [hplus] at hsign
      cases hsign
    · exact h hlt

theorem unary_minus (hdepth : depth ≤ depthLimit) (hminus : t.token = .minus) (hn : depth < n)
    (h : depth < depthLimit → Yields n e rest (unary last fuel (depth + 1) ts)) :
    Yields n (negated e) rest (unary last (fuel + 1) depth (t :: ts)) := by
  rcases Nat.eq_or_lt_of_le hdepth with rfl | hlt
  · exact ⟨fun hle => absurd hle (Nat.not_le.mpr hn), fun _ => unary_limit⟩
  · rw [unary, if_neg hlt.ne, peek_cons, hminus]
    exact (h hlt).then rfl

/-! ### Powers -/

theorem power_single (hcaret : peek rest ≠ .caret) (h : Yields n e rest (primary last fuel depth ts)) :
    Yields n e rest (power last (fuel + 1) depth ts) := by
  rw [power]
  refine h.then ?_
  dsimp only
  split
  · rename_i heq
    exact absurd heq hcaret
  · rfl

theorem power_pair (hcaret : t.token = .caret) (hleft : Yields n left (t :: mid) (primary last fuel depth ts))
    (hright : Yields m right rest (unary last fuel depth mid)) :
    Yields (max n m) (apply "^" [left, right]) rest (power last (fuel + 1) depth ts) := by
  rw [power]
  refine hleft.bind fun _ => ?_
  dsimp only
  rw [peek_cons, hcaret]
  exact hright.then rfl

/-! ### Atoms -/

theorem primary_parenthesized {opening closing : Spanned} (hopen : opening.token = .leftParen)
    (hclose : closing.token = .rightParen) (h : Yields n e (closing :: rest) (additive last fuel depth ts)) :
    Yields n e rest (primary last (fuel + 1) depth (opening :: ts)) := by
  rw [primary, peek_cons, hopen]
  refine h.then ?_
  dsimp only
  rw [peek_cons, hclose]
  rfl

theorem primary_number {x : Double} (h : t.token = .number x) :
    primary last (fuel + 1) depth (t :: rest) = .ok (.number x, rest) := by
  rw [primary, peek_cons, h]
  rfl

theorem primary_text {s : String} (h : t.token = .text s) :
    primary last (fuel + 1) depth (t :: rest) = .ok (.text s, rest) := by
  rw [primary, peek_cons, h]
  rfl

theorem primary_operand {name : String} (h : t.token = .identifier name) (hnext : peek rest ≠ .leftParen) :
    primary last (fuel + 1) depth (t :: rest) = .ok (.operand name, rest) := by
  rw [primary, peek_cons, h]
  dsimp only [List.tail_cons]
  split
  · rename_i heq
    exact absurd heq hnext
  · rfl

theorem primary_call_nil {name : String} {opening closing : Spanned} (h : t.token = .identifier name)
    (hopen : opening.token = .leftParen) (hclose : closing.token = .rightParen) :
    primary last (fuel + 1) depth (t :: opening :: closing :: rest) = .ok (.call name [] [], rest) := by
  rw [primary, peek_cons, h]
  dsimp only [List.tail_cons]
  rw [peek_cons, hopen]
  dsimp only
  rw [peek_cons, hclose]

theorem primary_call {name : String} {opening : Spanned} {a : Arguments} (h : t.token = .identifier name)
    (hopen : opening.token = .leftParen) (hclose : peek ts ≠ .rightParen)
    (ha : Yields n a rest (arguments last fuel depth ⟨[], []⟩ ts)) :
    Yields n (.call name a.args a.kwargs) rest (primary last (fuel + 1) depth (t :: opening :: ts)) := by
  rw [primary, peek_cons, h]
  dsimp only [List.tail_cons]
  rw [peek_cons, hopen]
  dsimp only
  split
  · rename_i heq
    exact absurd heq hclose
  · exact ha.then rfl

/-! ### Whole lists of tokens -/

theorem parseTokens_yields {n : Nat} {ts rest : List Spanned} (hfirst : peek ts ≠ .stop) (hstop : peek rest = .stop)
    (hread : ∀ last, Yields n e rest (additive last (8 * ts.length + 8) 0 ts)) :
    (n ≤ depthLimit → parseTokens ts = .ok e) ∧ (depthLimit < n → TooDeep (parseTokens ts)) := by
  unfold parseTokens
  dsimp only
  split
  · rename_i heq
    exact absurd heq hfirst
  · refine ⟨fun hle => ?_, fun hlt => ?_⟩
    · rw [(hread _).ok hle]
      dsimp only [Bind.bind, Except.bind]
      rw [hstop]
    · obtain ⟨last, ts', hfail⟩ := (hread _).deep hlt
      exact ⟨last, ts', by rw [hfail]; rfl⟩

end Concord.Parser
