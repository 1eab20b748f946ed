import Concord.Definitions
import Concord.Expr.Parser
import Concord.Proofs.Decimal.Reading
import Concord.Proofs.Outcome

/-! What reading gives. Operands, functions and keywords have names that can be written, operators have one or two
    operands, a minus in front of a number is part of it, and no number is a NaN. -/

namespace Concord

/-- A text that the lexer takes for one name. -/
def IsName (name : String) : Prop := Definitions.isName name.toList = true

namespace Expr

/-- An expression as reading gives it. -/
inductive Formed : Expr → Prop where
  | number {x : Double} : x.isNaN = false → Formed (.number x)
  | text (s : String) : Formed (.text s)
  | operand {name : String} : IsName name → Formed (.operand name)
  | negative {e : Expr} : Formed e → (∀ x, e ≠ .number x) → Formed (apply "-" [e])
  | binary {op : String} {left right : Expr} :
      isOperator op = true → Formed left → Formed right → Formed (apply op [left, right])
  | call {name : String} {args : List Expr} {kwargs : List (String × Expr)} : IsName name →
      (∀ a ∈ args, Formed a) → (∀ p ∈ kwargs, IsName p.1) → (∀ p ∈ kwargs, Formed p.2) → (kwargs.map (·.1)).Nodup →
      Formed (.call name args kwargs)

end Expr

/-! ### Tokens -/

/-- A token as the lexer gives it. -/
def Token.Sound : Token → Prop
  | .number x => x.isNaN = false
  | .identifier name => IsName name
  | _ => True

namespace Decimal

theorem isNaN_ofFraction (num den : Nat) : (ofFraction num den).isNaN = false := by
  have hle : nearestBits num den ≤ Double.infinityBits := by
    unfold nearestBits
    split
    · exact Nat.zero_le _
    · exact Nat.min_le_right _ _
  have hbits := magnitudeBits_ofFraction num den
  exact decide_eq_false (by omega)

theorem isNaN_ofDecimal (m : Nat) (e : Int) : (ofDecimal m e).isNaN = false := by
  unfold ofDecimal
  dsimp only
  split
  · rfl
  · split
    · rfl
    · split
      · rfl
      · exact isNaN_ofFraction _ _

theorem isNaN_read {cs : List Char} {x : Double} (h : read cs = some x) : x.isNaN = false := by
  unfold read at h
  dsimp only at h
  split at h
  · cases h
  · obtain ⟨e, -, rfl⟩ := Option.map_eq_some_iff.mp h
    exact isNaN_ofDecimal _ _

end Decimal

namespace Lexer

theorem symbol_sound {c : Char} {t : Token} (h : symbol c = some t) : t.Sound := by
  unfold symbol at h
  split at h <;> cases h <;> trivial

theorem takeToken_sound {position : Nat} {c : Char} {rest rest' : List Char} {l : Lexeme}
    (h : takeToken position c rest = .ok (l, rest')) : l.token.Sound := by
  unfold takeToken at h
  split at h
  · rename_i t ht
    cases h
    exact symbol_sound ht
  · split at h
    · split at h <;> cases h <;> trivial
    · split at h
      · unfold takeText at h
        split at h <;> cases h
        trivial
      · split at h
        · unfold takeNumber at h
          dsimp only at h
          split at h
          · rename_i x hx
            cases h
            exact Decimal.isNaN_read hx
          · cases h
        · split at h
          · rename_i hstart
            cases h
            show Definitions.isName (String.ofList _).toList = true
            rw [String.toList_ofList, Definitions.isName, hstart, Bool.true_and, List.all_eq_true]
            exact fun d hd => List.mem_takeWhile_imp hd
          · cases h

/-- All of some tokens are sound. -/
def Sound (ts : List Spanned) : Prop := ∀ t ∈ ts, t.token.Sound

theorem tokensFrom_sound : ∀ {fuel position : Nat} {cs : List Char} {ts : List Spanned},
    tokensFrom fuel position cs = .ok ts → Sound ts
  | 0, position, cs, ts, h => by
    cases h
    intro t ht
    rw [List.mem_singleton.mp ht]
    trivial
  | fuel + 1, position, cs, ts, h => by
    unfold tokensFrom at h
    dsimp only at h
    split at h
    · cases h
      intro t ht
      rw [List.mem_singleton.mp ht]
      trivial
    · obtain ⟨⟨l, rest⟩, htake, h⟩ := bind_eq_ok.mp h
      obtain ⟨ts', hts', h⟩ := bind_eq_ok.mp h
      cases h
      intro t ht
      rcases List.mem_cons.mp ht with rfl | ht
      · exact takeToken_sound htake
      · exact tokensFrom_sound hts' t ht

theorem Sound.tail {ts : List Spanned} (h : Sound ts) : Sound ts.tail := fun t ht => h t (List.mem_of_mem_tail ht)

theorem Sound.peek {ts : List Spanned} (h : Sound ts) : (Parser.peek ts).Sound := by
  cases ts with
  | nil => trivial
  | cons t ts => exact h t List.mem_cons_self

end Lexer

/-! ### Reading -/

namespace Parser

open Concord.Expr Lexer

/-- What is read is formed, and what is left is sound. -/
def Reads (r : Except SyntaxError (Front Expr)) : Prop := ∀ e rest, r = .ok (e, rest) → e.Formed ∧ Sound rest

/-- The arguments read so far, as a call may have them. -/
structure Arguments.Formed (a : Arguments) : Prop where
  args : ∀ e ∈ a.args, e.Formed
  names : ∀ p ∈ a.kwargs, IsName p.1
  kwargs : ∀ p ∈ a.kwargs, p.2.Formed
  nodup : (a.kwargs.map (·.1)).Nodup

/-- What reading arguments gives. -/
def ReadsArguments (r : Except SyntaxError (Front Arguments)) : Prop := ∀ a rest, r = .ok (a, rest) → a.Formed ∧ Sound rest

/-- What the parts of the parser give as far as there is fuel. -/
structure Forms (last fuel : Nat) : Prop where
  additive : ∀ depth ts, Sound ts → Reads (additive last fuel depth ts)
  additiveRest : ∀ depth left ts, left.Formed → Sound ts → Reads (additiveRest last fuel depth left ts)
  multiplicative : ∀ depth ts, Sound ts → Reads (multiplicative last fuel depth ts)
  multiplicativeRest : ∀ depth left ts, left.Formed → Sound ts → Reads (multiplicativeRest last fuel depth left ts)
  unary : ∀ depth ts, Sound ts → Reads (unary last fuel depth ts)
  power : ∀ depth ts, Sound ts → Reads (power last fuel depth ts)
  primary : ∀ depth ts, Sound ts → Reads (primary last fuel depth ts)
  arguments : ∀ depth a ts, a.Formed → Sound ts → ReadsArguments (arguments last fuel depth a ts)
  argument : ∀ depth a ts, a.Formed → Sound ts → ReadsArguments (argument last fuel depth a ts)

variable {last fuel depth : Nat} {ts : List Spanned}

theorem forms_zero (last : Nat) : Forms last 0 := by
  constructor <;> intros <;> intro _ _ h <;> simp [Parser.additive, Parser.additiveRest, Parser.multiplicative,
    Parser.multiplicativeRest, Parser.unary, Parser.power, Parser.primary, Parser.arguments, Parser.argument] at h

theorem additiveOperator_isOperator {t : Token} {op : String} (h : additiveOperator t = some op) : isOperator op = true := by
  cases t <;> cases h <;> rfl

theorem multiplicativeOperator_isOperator {t : Token} {op : String} (h : multiplicativeOperator t = some op) :
    isOperator op = true := by
  cases t <;> cases h <;> rfl

theorem additive_forms (ih : Forms last fuel) (hts : Sound ts) : Reads (additive last (fuel + 1) depth ts) := by
  intro e rest h
  rw [Parser.additive] at h
  obtain ⟨⟨left, ts'⟩, hleft, h⟩ := bind_eq_ok.mp h
  obtain ⟨hleft, hts'⟩ := ih.multiplicative _ _ hts _ _ hleft
  exact ih.additiveRest _ _ _ hleft hts' _ _ h

theorem additiveRest_forms (ih : Forms last fuel) {left : Expr} (hleft : left.Formed) (hts : Sound ts) :
    Reads (additiveRest last (fuel + 1) depth left ts) := by
  intro e rest h
  rw [Parser.additiveRest] at h
  split at h
  · rename_i op hop
    obtain ⟨⟨right, ts'⟩, hright, h⟩ := bind_eq_ok.mp h
    obtain ⟨hright, hts'⟩ := ih.multiplicative _ _ hts.tail _ _ hright
    exact ih.additiveRest _ _ _ (.binary (additiveOperator_isOperator hop) hleft hright) hts' _ _ h
  · cases h
    exact ⟨hleft, hts⟩

theorem multiplicative_forms (ih : Forms last fuel) (hts : Sound ts) : Reads (multiplicative last (fuel + 1) depth ts) := by
  intro e rest h
  rw [Parser.multiplicative] at h
  obtain ⟨⟨left, ts'⟩, hleft, h⟩ := bind_eq_ok.mp h
  obtain ⟨hleft, hts'⟩ := ih.unary _ _ hts _ _ hleft
  exact ih.multiplicativeRest _ _ _ hleft hts' _ _ h

theorem multiplicativeRest_forms (ih : Forms last fuel) {left : Expr} (hleft : left.Formed) (hts : Sound ts) :
    Reads (multiplicativeRest last (fuel + 1) depth left ts) := by
  intro e rest h
  rw [Parser.multiplicativeRest] at h
  split at h
  · rename_i op hop
    obtain ⟨⟨right, ts'⟩, hright, h⟩ := bind_eq_ok.mp h
    obtain ⟨hright, hts'⟩ := ih.unary _ _ hts.tail _ _ hright
    exact ih.multiplicativeRest _ _ _ (.binary (multiplicativeOperator_isOperator hop) hleft hright) hts' _ _ h
  · cases h
    exact ⟨hleft, hts⟩

theorem negated_formed {e : Expr} (h : e.Formed) : (negated e).Formed := by
  cases h with
  | number hx =>
    refine .number ?_
    rw [Double.isNaN, Double.magnitudeBits_neg]
    exact hx
  | text s => exact .negative (.text s) (by simp)
  | operand hname => exact .negative (.operand hname) (by simp)
  | negative he hnot => exact .negative (.negative he hnot) (by simp [apply])
  | binary hop hleft hright => exact .negative (.binary hop hleft hright) (by simp [apply])
  | call hname hargs hnames hkwargs hnodup => exact .negative (.call hname hargs hnames hkwargs hnodup) (by simp)

theorem unary_forms (ih : Forms last fuel) (hts : Sound ts) : Reads (unary last (fuel + 1) depth ts) := by
  intro e rest h
  rw [Parser.unary] at h
  split at h
  · cases h
  · split at h
    · obtain ⟨⟨e', ts'⟩, he', h⟩ := bind_eq_ok.mp h
      cases h
      exact (ih.unary _ _ hts.tail _ _ he').imp_left negated_formed
    · exact ih.unary _ _ hts.tail _ _ h
    · exact ih.power _ _ hts _ _ h

theorem power_forms (ih : Forms last fuel) (hts : Sound ts) : Reads (power last (fuel + 1) depth ts) := by
  intro e rest h
  rw [Parser.power] at h
  obtain ⟨⟨base, ts'⟩, hbase, h⟩ := bind_eq_ok.mp h
  obtain ⟨hformed, hts'⟩ := ih.primary _ _ hts _ _ hbase
  dsimp only at h
  split at h
  · obtain ⟨⟨e', ts''⟩, he', h⟩ := bind_eq_ok.mp h
    cases h
    exact (ih.unary _ _ hts'.tail _ _ he').imp_left fun he' => .binary rfl hformed he'
  · cases h
    exact ⟨hformed, hts'⟩

theorem call_formed {name : String} {a : Arguments} (hname : IsName name) (ha : a.Formed) :
    (Expr.call name a.args a.kwargs).Formed := .call hname ha.args ha.names ha.kwargs ha.nodup

theorem arguments_nil : Arguments.Formed ⟨[], []⟩ := ⟨by simp, by simp, by simp, by simp⟩

theorem primary_forms (ih : Forms last fuel) (hts : Sound ts) : Reads (primary last (fuel + 1) depth ts) := by
  intro e rest h
  have hpeek := hts.peek
  rw [Parser.primary] at h
  split at h
  · rename_i x hx
    cases h
    rw [hx] at hpeek
    exact ⟨.number hpeek, hts.tail⟩
  · cases h
    exact ⟨.text _, hts.tail⟩
  · rename_i name hname
    rw [hname] at hpeek
    split at h
    · split at h
      · cases h
        exact ⟨call_formed hpeek arguments_nil, hts.tail.tail.tail⟩
      · obtain ⟨⟨a, ts'⟩, ha, h⟩ := bind_eq_ok.mp h
        cases h
        exact (ih.arguments _ _ _ arguments_nil hts.tail.tail _ _ ha).imp_left (call_formed hpeek)
    · cases h
      exact ⟨.operand hpeek, hts.tail⟩
  · obtain ⟨⟨e', ts'⟩, he', h⟩ := bind_eq_ok.mp h
    obtain ⟨he', hts'⟩ := ih.additive _ _ hts.tail _ _ he'
    dsimp only at h
    split at h
    · cases h
      exact ⟨he', hts'.tail⟩
    · cases h
  · cases h

theorem arguments_forms (ih : Forms last fuel) {a : Arguments} (ha : a.Formed) (hts : Sound ts) :
    ReadsArguments (arguments last (fuel + 1) depth a ts) := by
  intro a' rest h
  rw [Parser.arguments] at h
  obtain ⟨⟨a'', ts'⟩, ha'', h⟩ := bind_eq_ok.mp h
  obtain ⟨ha'', hts'⟩ := ih.argument _ _ _ ha hts _ _ ha''
  dsimp only at h
  split at h
  · exact ih.arguments _ _ _ ha'' hts'.tail _ _ h
  · cases h
    exact ⟨ha'', hts'.tail⟩
  · cases h

theorem argument_forms (ih : Forms last fuel) {a : Arguments} (ha : a.Formed) (hts : Sound ts) :
    ReadsArguments (argument last (fuel + 1) depth a ts) := by
  intro a' rest h
  have hpeek := hts.peek
  rw [Parser.argument] at h
  split at h
  · rename_i key hkey hassign
    rw [hkey] at hpeek
    split at h
    · cases h
    · rename_i hnew
      obtain ⟨⟨e, ts'⟩, he, h⟩ := bind_eq_ok.mp h
      cases h
      obtain ⟨he, hts'⟩ := ih.additive _ _ hts.tail.tail _ _ he
      refine ⟨⟨ha.args, fun p hp => ?_, fun p hp => ?_, ?_⟩, hts'⟩
      · rcases List.mem_append.mp hp with hp | hp
        · exact ha.names p hp
        · rw [List.mem_singleton.mp hp]
          exact hpeek
      · rcases List.mem_append.mp hp with hp | hp
        · exact ha.kwargs p hp
        · rw [List.mem_singleton.mp hp]
          exact he
      · rw [List.map_append, List.nodup_append]
        refine ⟨ha.nodup, List.nodup_singleton _, fun k hk k' hk' heq => hnew ?_⟩
        obtain ⟨p, hp, rfl⟩ := List.mem_map.mp hk
        rw [List.mem_singleton.mp hk'] at heq
        exact List.any_eq_true.mpr ⟨p, hp, beq_iff_eq.mpr heq⟩
  · split at h
    · obtain ⟨⟨e, ts'⟩, he, h⟩ := bind_eq_ok.mp h
      cases h
      obtain ⟨he, hts'⟩ := ih.additive _ _ hts _ _ he
      refine ⟨⟨fun e' he' => ?_, ha.names, ha.kwargs, ha.nodup⟩, hts'⟩
      rcases List.mem_append.mp he' with he' | he'
      · exact ha.args e' he'
      · rw [List.mem_singleton.mp he']
        exact he
    · cases h

theorem forms (last : Nat) : ∀ fuel, Forms last fuel
  | 0 => forms_zero last
  | fuel + 1 => by
    -- Every part goes on to others with less fuel only, so they are all dealt with at once.
    have ih := forms last fuel
    exact ⟨fun _ _ => additive_forms ih, fun _ _ _ => additiveRest_forms ih, fun _ _ => multiplicative_forms ih,
      fun _ _ _ => multiplicativeRest_forms ih, fun _ _ => unary_forms ih, fun _ _ => power_forms ih,
      fun _ _ => primary_forms ih, fun _ _ _ => arguments_forms ih, fun _ _ _ => argument_forms ih⟩

/-- What a text is read as is formed. -/
theorem parse_formed {text : String} {e : Expr} (h : parse text = .ok e) : e.Formed := by
  obtain ⟨ts, hts, h⟩ := bind_eq_ok.mp h
  unfold parseTokens at h
  dsimp only at h
  split at h
  · cases h
  · obtain ⟨⟨e', rest⟩, he', h⟩ := bind_eq_ok.mp h
    dsimp only at h
    split at h
    · cases h
      exact ((forms _ _).additive _ _ (tokensFrom_sound hts) _ _ he').1
    · cases h

end Parser
end Concord
