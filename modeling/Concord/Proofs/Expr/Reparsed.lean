import Mathlib
import Concord.Proofs.Expr.Operands

/-! Reading canonical text. An expression that was read is read again from its canonical text, as long as that is not
    nested too deeply, if no literal is infinite and no number of negative sign is the base of a power. -/

namespace Concord

namespace Parser

open Concord.Expr

variable {last fuel depth : Nat} {e : Expr} {front rest : List Spanned}

/-! ### Calls -/

/-- An argument of a call, under a keyword or not. -/
abbrev Item := Option String × Expr

def Item.tokens : Item → List Token
  | (none, e) => e.spell
  | (some key, e) => .identifier key :: .assign :: e.spell

/-- The arguments with one more. -/
def Arguments.push (a : Arguments) : Item → Arguments
  | (none, e) => ⟨a.args ++ [e], a.kwargs⟩
  | (some key, e) => ⟨a.args, a.kwargs ++ [(key, e)]⟩

/-- An argument may be the next: it has a new keyword, or there are none yet. -/
def Arguments.Accepts (a : Arguments) : Item → Prop
  | (none, _) => a.kwargs = []
  | (some key, _) => ∀ p ∈ a.kwargs, p.1 ≠ key

/-- Some arguments may follow one after the other. -/
def Arguments.AcceptsAll : Arguments → List Item → Prop
  | _, [] => True
  | a, x :: items => a.Accepts x ∧ (a.push x).AcceptsAll items

theorem Arguments.acceptsAll_append : ∀ {items items' : List Item} {a : Arguments}, a.AcceptsAll items →
    (items.foldl Arguments.push a).AcceptsAll items' → a.AcceptsAll (items ++ items')
  | [], _, _, _, h' => h'
  | _ :: _, _, _, h, h' => ⟨h.1, acceptsAll_append h.2 h'⟩

theorem Arguments.push_args : ∀ (es : List Expr) (a : Arguments),
    (es.map fun e => ((none, e) : Item)).foldl Arguments.push a = ⟨a.args ++ es, a.kwargs⟩
  | [], a => by simp
  | e :: es, a => by
    rw [List.map_cons, List.foldl_cons, push_args es]
    simp [Arguments.push]

theorem Arguments.push_kwargs : ∀ (ps : List (String × Expr)) (a : Arguments),
    (ps.map fun p => ((some p.1, p.2) : Item)).foldl Arguments.push a = ⟨a.args, a.kwargs ++ ps⟩
  | [], a => by simp
  | p :: ps, a => by
    rw [List.map_cons, List.foldl_cons, push_kwargs ps]
    simp [Arguments.push]

theorem Arguments.accepts_args : ∀ (es : List Expr) {a : Arguments}, a.kwargs = [] →
    a.AcceptsAll (es.map fun e => ((none, e) : Item))
  | [], _, _ => trivial
  | _ :: es, _, h => ⟨h, accepts_args es h⟩

theorem Arguments.accepts_kwargs : ∀ (ps : List (String × Expr)) {a : Arguments},
    (a.kwargs ++ ps |>.map (·.1)).Nodup → a.AcceptsAll (ps.map fun p => ((some p.1, p.2) : Item))
  | [], _, _ => trivial
  | p :: ps, a, h => by
    refine ⟨fun q hq heq => ?_, accepts_kwargs ps ?_⟩
    · rw [List.map_append, List.nodup_append] at h
      exact h.2.2 q.1 (List.mem_map.mpr ⟨q, hq, rfl⟩) p.1 (by simp) heq
    · simpa [Arguments.push] using h

/-- An expression is read from its tokens as a whole argument. -/
theorem Reparses.additive (ih : Reparses e) (hfront : front.map (·.token) = e.spell) (hfuel : 8 * front.length + 2 ≤ fuel)
    (hle : depth ≤ depthLimit) (hends : Ends rest) (hpos : front ≠ []) :
    Yields (depth + e.depth) e rest (additive last fuel depth (front ++ rest)) := by
  have hlen := List.length_pos_iff.mpr hpos
  obtain ⟨f, rfl⟩ : ∃ f, fuel = f + 3 := ⟨fuel - 3, by omega⟩
  exact additive_single hends.sum hends.product (ih.unary hfront (by omega) hle hends.follows)

theorem spell_ne_nil (h : e.Formed) (hfront : front.map (·.token) = e.spell) : front ≠ [] := by
  rintro rfl
  obtain ⟨t, ts, hspell, -⟩ := spell_head h
  rw [hspell] at hfront
  cases hfront

/-- No expression starts like an argument under a keyword. -/
theorem spell_not_keyword (h : e.Formed) (hfront : front.map (·.token) = e.spell) (hrest : peek rest ≠ .assign)
    {key : String} (hkey : peek (front ++ rest) = .identifier key) : peek (front ++ rest).tail ≠ .assign := by
  have hhead : ∀ {t ts}, e.spell = t :: ts → ∃ s front', front = s :: front' ∧ s.token = t ∧ front'.map (·.token) = ts :=
    fun hspell => List.map_eq_cons_iff.mp (hfront.trans hspell)
  cases h with
  | @number x _ =>
    rw [spell] at hhead
    split at hhead
    · obtain ⟨s, front', rfl, hs, -⟩ := hhead rfl
      rw [List.cons_append, peek_cons, hs] at hkey
      cases hkey
    · obtain ⟨s, front', rfl, hs, -⟩ := hhead rfl
      rw [List.cons_append, peek_cons, hs] at hkey
      cases hkey
  | text s =>
    obtain ⟨s, front', rfl, hs, -⟩ := hhead (by rw [spell])
    rw [List.cons_append, peek_cons, hs] at hkey
    cases hkey
  | operand _ =>
    obtain ⟨s, front', rfl, -, hfront'⟩ := hhead (by rw [spell])
    rw [List.map_eq_nil_iff.mp hfront']
    exact hrest
  | negative _ _ =>
    obtain ⟨s, front', rfl, hs, -⟩ := hhead spell_negative
    rw [List.cons_append, peek_cons, hs] at hkey
    cases hkey
  | binary hop _ _ =>
    obtain ⟨s, front', rfl, hs, -⟩ := hhead (spell_binary hop)
    rw [List.cons_append, peek_cons, hs] at hkey
    cases hkey
  | call hname _ _ _ _ =>
    obtain ⟨s, front', rfl, -, hfront'⟩ := hhead (spell_call (not_isOperator hname))
    obtain ⟨s', front'', rfl, hs', -⟩ := List.map_eq_cons_iff.mp hfront'
    rw [List.cons_append, List.tail_cons, List.cons_append, peek_cons, hs']
    decide

/-- An argument as it is read again. -/
structure Item.Reparses (x : Item) : Prop where
  formed : x.2.Formed
  reparses : Parser.Reparses x.2

theorem argument_yields {x : Item} {a : Arguments} (hx : x.Reparses) (ha : a.Accepts x)
    (hfront : front.map (·.token) = x.tokens) (hfuel : 8 * front.length + 3 ≤ fuel) (hle : depth ≤ depthLimit)
    (hends : Ends rest) (hassign : peek rest ≠ .assign) :
    Yields (depth + x.2.depth) (a.push x) rest (argument last fuel depth a (front ++ rest)) := by
  obtain ⟨f, rfl⟩ : ∃ f, fuel = f + 1 := ⟨fuel - 1, by omega⟩
  obtain ⟨key, e⟩ := x
  cases key with
  | none =>
    have hpositional : a.kwargs.isEmpty = true := List.isEmpty_iff.mpr ha
    have hread : Yields (depth + e.depth) e rest (additive last f depth (front ++ rest)) :=
      hx.reparses.additive hfront (by omega) hle hends (spell_ne_nil hx.formed hfront)
    rw [argument]
    -- A name at the front would be a keyword if an equals sign stood behind it.
    split
    · rename_i key hkey hnext
      exact absurd hnext (spell_not_keyword hx.formed hfront hassign hkey)
    · rw [if_pos hpositional]
      exact hread.then rfl
  | some key =>
    obtain ⟨name, front, rfl, hname, hfront⟩ := List.map_eq_cons_iff.mp hfront
    obtain ⟨assign, front, rfl, hequals, hfront⟩ := List.map_eq_cons_iff.mp hfront
    simp only [List.length_cons] at hfuel
    have hread : Yields (depth + e.depth) e rest (additive last f depth (front ++ rest)) :=
      hx.reparses.additive hfront (by omega) hle hends (spell_ne_nil hx.formed hfront)
    have hnew : ¬(a.kwargs.any fun k => k.1 == key) = true := by
      rw [List.any_eq_true]
      rintro ⟨p, hp, heq⟩
      exact ha p hp (beq_iff_eq.mp heq)
    rw [argument]
    simp only [List.cons_append, List.tail_cons, peek_cons, hname, hequals]
    rw [if_neg hnew]
    exact hread.then rfl

theorem arguments_yields : ∀ {items : List Item} {fuel : Nat} {front : List Spanned} {a : Arguments}, items ≠ [] →
    (∀ x ∈ items, x.Reparses) → a.AcceptsAll items →
    front.map (·.token) = [Token.comma].intercalate (items.map Item.tokens) → 8 * front.length + 4 ≤ fuel →
    depth ≤ depthLimit → ∀ {closing : Spanned}, closing.token = .rightParen →
      Yields (depth + deepest (items.map fun x => x.2.depth)) (items.foldl Arguments.push a) rest
        (arguments last fuel depth a (front ++ closing :: rest))
  | [], _, _, _, hne, _, _, _, _, _, _, _ => absurd rfl hne
  | [x], fuel, front, a, _, hitems, ha, hfront, hfuel, hle, closing, hclose => by
    obtain ⟨f, rfl⟩ : ∃ f, fuel = f + 1 := ⟨fuel - 1, by omega⟩
    have hread : Yields (depth + x.2.depth) (a.push x) (closing :: rest) (argument last f depth a (front ++ closing :: rest)) :=
      argument_yields (hitems x List.mem_cons_self) ha.1 (by simpa using hfront) (by omega) hle (ends_of_token (.inl hclose))
        (by rw [peek_cons, hclose]; decide)
    rw [arguments, show deepest ([x].map fun x => x.2.depth) = x.2.depth by simp [deepest]]
    refine hread.then ?_
    dsimp only
    rw [peek_cons, hclose]
    rfl
  | x :: y :: items, fuel, front, a, _, hitems, ha, hfront, hfuel, hle, closing, hclose => by
    obtain ⟨f, rfl⟩ : ∃ f, fuel = f + 1 := ⟨fuel - 1, by omega⟩
    rw [List.map_cons, List.map_cons, List.intercalate_cons_cons, List.append_assoc] at hfront
    obtain ⟨inner, more, rfl, hinner, hmore⟩ := List.map_eq_append_iff.mp hfront
    obtain ⟨comma, more, rfl, hcomma, hmore⟩ := List.map_eq_cons_iff.mp hmore
    simp only [List.length_append, List.length_cons] at hfuel
    have hread : Yields (depth + x.2.depth) (a.push x) (comma :: (more ++ closing :: rest))
        (argument last f depth a (inner ++ comma :: (more ++ closing :: rest))) :=
      argument_yields (hitems x List.mem_cons_self) ha.1 hinner (by omega) hle (ends_of_token (.inr (.inl hcomma)))
        (by rw [peek_cons, hcomma]; decide)
    have hrest : Yields (depth + deepest ((y :: items).map fun x => x.2.depth))
        ((y :: items).foldl Arguments.push (a.push x)) rest (arguments last f depth (a.push x) (more ++ closing :: rest)) :=
      arguments_yields (by simp) (fun z hz => hitems z (List.mem_cons_of_mem _ hz)) ha.2 hmore (by omega) hle hclose
    have hdeepest : depth + deepest ((x :: y :: items).map fun x => x.2.depth) =
        max (depth + x.2.depth) (depth + deepest ((y :: items).map fun x => x.2.depth)) := by
      rw [List.map_cons]
      exact (Nat.add_max_add_left ..).symm
    rw [arguments, hdeepest, List.append_assoc, List.cons_append, List.foldl_cons]
    refine hread.bind fun _ => ?_
    dsimp only
    rw [peek_cons, hcomma]
    exact hrest

/-- Arguments start like no end of the list. -/
theorem separated_head {items : List Item} (hne : items ≠ []) (hitems : ∀ x ∈ items, x.Reparses) :
    ∃ t ts, [Token.comma].intercalate (items.map Item.tokens) = t :: ts ∧ t ≠ .rightParen := by
  cases items with
  | nil => exact absurd rfl hne
  | cons x items =>
    have hhead : ∃ t ts, x.tokens = t :: ts ∧ t ≠ .rightParen := by
      obtain ⟨key, e⟩ := x
      cases key with
      | none =>
        obtain ⟨t, ts, hspell, ht, -⟩ := spell_head (hitems _ List.mem_cons_self).formed
        exact ⟨t, ts, hspell, ht⟩
      | some key => exact ⟨_, _, rfl, by simp⟩
    obtain ⟨t, ts, htokens, ht⟩ := hhead
    cases items with
    | nil => exact ⟨t, ts, by rw [List.map_singleton, List.intercalate_singleton, htokens], ht⟩
    | cons y items =>
      rw [List.map_cons, List.map_cons, List.intercalate_cons_cons, htokens]
      exact ⟨t, _, rfl, ht⟩

/-- The arguments of a call in their order. -/
def callItems (args : List Expr) (kwargs : List (String × Expr)) : List Item :=
  args.map (fun e => (none, e)) ++ kwargs.map fun p => (some p.1, p.2)

section
variable {args : List Expr} {kwargs : List (String × Expr)}

theorem callItems_tokens : (callItems args kwargs).map Item.tokens =
    args.map spell ++ kwargs.map fun p => .identifier p.1 :: .assign :: p.2.spell := by
  simp [callItems, Item.tokens, Function.comp_def]

theorem callItems_depths :
    (callItems args kwargs).map (fun x => x.2.depth) = args.map Expr.depth ++ kwargs.map fun p => p.2.depth := by
  simp [callItems, Function.comp_def]

theorem push_callItems : (callItems args kwargs).foldl Arguments.push ⟨[], []⟩ = ⟨args, kwargs⟩ := by
  rw [callItems, List.foldl_append, Arguments.push_args, Arguments.push_kwargs]
  simp

theorem accepts_callItems (hnodup : (kwargs.map (·.1)).Nodup) : Arguments.AcceptsAll ⟨[], []⟩ (callItems args kwargs) := by
  refine Arguments.acceptsAll_append (Arguments.accepts_args args rfl) ?_
  rw [Arguments.push_args]
  exact Arguments.accepts_kwargs kwargs hnodup

theorem reparses_call {name : String} (h : (Expr.call name args kwargs).Formed) (hname : IsName name)
    (hnodup : (kwargs.map (·.1)).Nodup) (hitems : ∀ x ∈ callItems args kwargs, x.Reparses) :
    Reparses (.call name args kwargs) := by
  refine reparses_atom h not_isSigned_call ?_
  intro last fuel depth front rest hfront hfuel hle _
  have hop := not_isOperator hname
  rw [spell_call hop, ← callItems_tokens] at hfront
  rw [depth_call hop, ← callItems_depths, ← Nat.add_assoc, Nat.add_sub_cancel]
  obtain ⟨first, front, rfl, hfirst, hfront⟩ := List.map_eq_cons_iff.mp hfront
  obtain ⟨opening, inner, closing, rfl, hopen, hinner, hclose⟩ := split_parenthesized hfront
  simp only [List.length_cons, List.length_append, List.length_nil] at hfuel
  obtain ⟨f, rfl⟩ : ∃ f, fuel = f + 1 := ⟨fuel - 1, by omega⟩
  simp only [List.cons_append, List.append_assoc, List.nil_append]
  by_cases hnil : callItems args kwargs = []
  · obtain ⟨rfl, rfl⟩ : args = [] ∧ kwargs = [] := by simpa [callItems] using hnil
    rw [List.map_eq_nil_iff.mp hinner, List.nil_append, primary_call_nil hfirst hopen hclose]
    exact yields_ok hle
  · have hread : Yields (depth + deepest ((callItems args kwargs).map fun x => x.2.depth))
        ((callItems args kwargs).foldl Arguments.push ⟨[], []⟩) rest
        (arguments last f depth ⟨[], []⟩ (inner ++ closing :: rest)) :=
      arguments_yields hnil hitems (accepts_callItems hnodup) hinner (by omega) hle hclose
    obtain ⟨t, ts, htokens, ht⟩ := separated_head hnil hitems
    obtain ⟨s, inner, rfl, hs, -⟩ := List.map_eq_cons_iff.mp (hinner.trans htokens)
    rw [push_callItems] at hread
    exact primary_call hfirst hopen (by rw [List.cons_append, peek_cons, hs]; exact ht) hread

end

/-! ### All expressions -/

end Parser

/-- No literal within an expression is infinite, and no power has a number of negative sign as its base. -/
structure Expr.Printable (e : Expr) : Prop where
  finite : ∀ x, (Expr.number x).Within e → x.isInfinite = false
  base : ∀ x exponent, (Expr.apply "^" [.number x, exponent]).Within e → x.isNegative = false

theorem Expr.Printable.part {e part : Expr} (h : e.Printable) (hpart : part.Within e) : part.Printable :=
  ⟨fun x hx => h.finite x (hx.trans hpart), fun x exponent hx => h.base x exponent (hx.trans hpart)⟩

theorem Expr.Formed.part {e part : Expr} (h : e.Formed) (hpart : part.Within e) : part.Formed := by
  induction hpart with
  | self => exact h
  | @argument name args kwargs a ha _ ih =>
    refine ih ?_
    cases h with
    | negative he _ => exact List.mem_singleton.mp ha ▸ he
    | binary _ hl hr =>
      rcases List.mem_cons.mp ha with rfl | ha
      · exact hl
      · exact List.mem_singleton.mp ha ▸ hr
    | call _ hargs _ _ _ => exact hargs a ha
  | @keyword name args kwargs p hp _ ih =>
    refine ih ?_
    cases h with
    | negative _ _ => cases hp
    | binary _ _ _ => cases hp
    | call _ _ _ hkwargs _ => exact hkwargs p hp

theorem Expr.Printable.isFinite {e : Expr} (h : e.Printable) (hformed : e.Formed) {x : Double}
    (hx : (Expr.number x).Within e) : x.isFinite = true := by
  have hinfinite : ¬x.magnitudeBits = Double.infinityBits := of_decide_eq_false (h.finite x hx)
  have hnan : ¬Double.infinityBits < x.magnitudeBits := by
    cases hformed.part hx with
    | number hnan => exact of_decide_eq_false hnan
  exact decide_eq_true (by omega)

namespace Parser

open Concord.Expr

variable {e : Expr}

theorem reparses (h : e.Formed) (hp : e.Printable) : Reparses e := by
  induction h with
  | number hnan => exact reparses_number hnan
  | text s => exact reparses_text s
  | operand hname => exact reparses_operand hname
  | negative he hnot ih => exact reparses_negative he hnot (ih (hp.part (.argument List.mem_cons_self .self)))
  | @binary op left right hop hl hr ihl ihr =>
    have hleft := ihl (hp.part (.argument (by simp) .self))
    have hright := ihr (hp.part (.argument (by simp) .self))
    -- A power binds tighter than a sign, so its base is read as an atom and must not start with one.
    by_cases hne : op = "^"
    · subst hne
      refine reparses_power hl hr ?_ hleft hright
      rintro ⟨x, rfl, hsign⟩
      rw [hp.base x right .self] at hsign
      cases hsign
    · exact reparses_binary hop hne hl hr hleft hright
  | call hname hargs hnames hkwargs hnodup ihargs ihkwargs =>
    refine reparses_call (.call hname hargs hnames hkwargs hnodup) hname hnodup fun x hx => ?_
    rcases List.mem_append.mp hx with hx | hx
    · obtain ⟨a, ha, rfl⟩ := List.mem_map.mp hx
      exact ⟨hargs a ha, ihargs a ha (hp.part (.argument ha .self))⟩
    · obtain ⟨p, hmem, rfl⟩ := List.mem_map.mp hx
      exact ⟨hkwargs p hmem, ihkwargs p hmem (hp.part (.keyword hmem .self))⟩

theorem fail_message (last : Nat) (ts : List Spanned) (f : SyntaxFault) : (fail last ts f).message = f.message := by
  cases ts <;> rfl

/-- The canonical text of what was read from a text is read as the same expression, if no literal in it is infinite
    and no base of a power has a minus in front, and if it is not nested too deeply. If it is, reading it fails for
    that. -/
theorem parse_canonical {text : String} (h : parse text = .ok e) (hp : e.Printable) :
    (e.depth ≤ depthLimit → parse e.canonical = .ok e) ∧
      (depthLimit < e.depth → ∃ x, parse e.canonical = .error x ∧ x.message = SyntaxFault.nestedTooDeeply.message) := by
  have hformed := parse_formed h
  have hend : Lexer.Delimited [] := trivial
  have hlexed : Lexer.Lexed e.canonical.toList (e.spell ++ [.stop]) := by
    have hspells := Lexer.spells_canonical hformed (fun x hx => hp.isFinite hformed hx) hend Lexer.lexed_nil
    rwa [List.append_nil] at hspells
  obtain ⟨ts, hts, htokens⟩ := hlexed.tokens_eq
  obtain ⟨front, final, rfl, hfront, hfinal⟩ := List.map_eq_append_iff.mp hts
  obtain ⟨stop, rfl, hstop⟩ := List.map_eq_singleton_iff.mp hfinal
  have hfuel : 8 * front.length + 2 ≤ 8 * (front ++ [stop]).length + 8 := by
    rw [List.length_append]
    omega
  have hread : ∀ last, Yields (0 + e.depth) e [stop] (additive last (8 * (front ++ [stop]).length + 8) 0 (front ++ [stop])) :=
    fun last => (reparses hformed hp).additive hfront hfuel (Nat.zero_le _) (ends_of_token (.inr (.inr hstop)))
      (spell_ne_nil hformed hfront)
  have hfirst : peek (front ++ [stop]) ≠ .stop := by
    obtain ⟨t, ts, hspell, -, hne, -⟩ := spell_head hformed
    obtain ⟨s, front, rfl, hs, -⟩ := List.map_eq_cons_iff.mp (hfront.trans hspell)
    rw [List.cons_append, peek_cons, hs]
    exact hne
  have hparse : parse e.canonical = parseTokens (front ++ [stop]) := by
    unfold parse
    rw [htokens]
    rfl
  have hlast : peek [stop] = .stop := hstop
  obtain ⟨hok, hdeep⟩ := parseTokens_yields hfirst hlast hread
  rw [Nat.zero_add] at hok hdeep
  rw [hparse]
  refine ⟨hok, fun hlt => ?_⟩
  obtain ⟨last, ts, hfail⟩ := hdeep hlt
  exact ⟨_, hfail, fail_message last ts _⟩

/-- What is read from `mean(-a ^ 2, dim='it\'s') - -2.5`. -/
def signedMean : Expr :=
  apply "-" [.call "mean" [apply "-" [apply "^" [.operand "a", .number ⟨0x4000000000000000⟩]]] [("dim", .text "it's")],
    .number ⟨0xc004000000000000⟩]

theorem signedMean_printable : signedMean.Printable where
  finite x hx := by
    obtain rfl | rfl : x = ⟨0x4000000000000000⟩ ∨ x = ⟨0xc004000000000000⟩ := by
      simpa [signedMean, apply, within_call] using hx
    · decide
    · decide
  base x exponent hx := by
    simp [signedMean, apply, within_call] at hx

theorem parse_canonical_mean :
    parse "mean(-a ^ 2, dim='it\\'s') - -2.5" = .ok signedMean ∧ signedMean.Printable ∧
      signedMean.depth ≤ depthLimit ∧ parse signedMean.canonical = .ok signedMean :=
  have hparse : parse "mean(-a ^ 2, dim='it\\'s') - -2.5" = .ok signedMean := by cbv
  have hdepth : signedMean.depth ≤ depthLimit := by decide
  ⟨hparse, signedMean_printable, hdepth, (parse_canonical hparse signedMean_printable).1 hdepth⟩

/-- What is read from a text is not read again if its canonical text gives no expression, or one that is written
    otherwise. -/
theorem unread_of_canonical_ne {text : String}
    (h : (parse text).toOption.map (fun e => decide ((parse e.canonical).toOption.map canonical ≠ some e.canonical)) =
      some true) : ∃ e, parse text = .ok e ∧ parse e.canonical ≠ .ok e := by
  cases hparse : parse text with
  | error x =>
    rw [hparse] at h
    cases h
  | ok e =>
    rw [hparse] at h
    refine ⟨e, rfl, fun heq => ?_⟩
    simp [Except.toOption, heq] at h

/-- A base with a minus in front, a literal that is too large, and an operand behind so many signs that it is nested
    too deeply between their parentheses. -/
theorem canonical_unread : (∃ e, parse "(-3) ^ 2" = .ok e ∧ parse e.canonical ≠ .ok e) ∧
    (∃ e, parse "-1e400" = .ok e ∧ parse e.canonical ≠ .ok e) ∧
    ∃ e, parse (String.ofList (List.replicate 64 '-' ++ ['x'])) = .ok e ∧ parse e.canonical ≠ .ok e :=
  ⟨unread_of_canonical_ne (by decide +kernel), unread_of_canonical_ne (by decide +kernel),
    unread_of_canonical_ne (by decide +kernel)⟩

end Parser
end Concord
