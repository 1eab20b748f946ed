import Mathlib
import Concord.Expr.Parser
import Concord.Proofs.Expr.Lexed
import Concord.Proofs.Expr.Lexemes
import Concord.Proofs.Measure.Reading
import Concord.Proofs.Outcome

/-! Faults that the parser finds. Whatever part of the parser runs, it leaves the end of the tokens that it is given, and a
    fault that it finds is one at a place among them. -/

namespace Concord.Parser

variable {α β : Type} {last fuel depth : Nat} {left : Expr} {a : Arguments} {ts ts' rest : List Spanned} {f : SyntaxFault}

/-- The outcome of a part of the parser is confined to the tokens that it is given. -/
def Confined (last : Nat) (ts : List Spanned) : Except SyntaxError (Front α) → Prop
  | .ok (_, rest) => rest <:+ ts
  | .error e => ∃ f rest, rest <:+ ts ∧ e = fail last rest f

theorem Confined.mono {x : Except SyntaxError (Front α)} (hx : Confined last ts' x) (h : ts' <:+ ts) : Confined last ts x := by
  cases x with
  | ok r => exact List.IsSuffix.trans hx h
  | error e =>
    obtain ⟨f, rest, hrest, he⟩ := hx
    exact ⟨f, rest, hrest.trans h, he⟩

theorem Confined.fail : Confined last ts (.error (fail last ts f) : Except SyntaxError (Front α)) :=
  ⟨f, ts, List.suffix_rfl, rfl⟩

/-- What goes on with the tokens that a part has left is confined to all of them. -/
theorem Confined.bind {x : Except SyntaxError (Front α)} {k : Front α → Except SyntaxError (Front β)}
    (hx : Confined last ts x) (hk : ∀ b rest, Confined last rest (k (b, rest))) : Confined last ts (x >>= k) := by
  cases x with
  | ok r => exact (hk r.1 r.2).mono hx
  | error e => exact hx

/-- The parts of the parser are confined to their tokens, as far as there is fuel. -/
structure Confining (last fuel : Nat) : Prop where
  additive : ∀ depth ts, Confined last ts (additive last fuel depth ts)
  additiveRest : ∀ depth left ts, Confined last ts (additiveRest last fuel depth left ts)
  multiplicative : ∀ depth ts, Confined last ts (multiplicative last fuel depth ts)
  multiplicativeRest : ∀ depth left ts, Confined last ts (multiplicativeRest last fuel depth left ts)
  unary : ∀ depth ts, Confined last ts (unary last fuel depth ts)
  power : ∀ depth ts, Confined last ts (power last fuel depth ts)
  primary : ∀ depth ts, Confined last ts (primary last fuel depth ts)
  arguments : ∀ depth a ts, Confined last ts (arguments last fuel depth a ts)
  argument : ∀ depth a ts, Confined last ts (argument last fuel depth a ts)

theorem confining_zero (last : Nat) : Confining last 0 := by
  constructor <;> intros <;> simp only [Parser.additive, Parser.additiveRest, Parser.multiplicative,
    Parser.multiplicativeRest, Parser.unary, Parser.power, Parser.primary, Parser.arguments, Parser.argument] <;>
    exact .fail

theorem suffix_tail_tail (ts : List Spanned) : ts.tail.tail <:+ ts := (List.tail_suffix _).trans (List.tail_suffix _)

section
variable (ih : Confining last fuel)
include ih

theorem additive_confined : Confined last ts (additive last (fuel + 1) depth ts) := by
  rw [additive]
  exact (ih.multiplicative depth ts).bind fun _ _ => ih.additiveRest _ _ _

theorem additiveRest_confined : Confined last ts (additiveRest last (fuel + 1) depth left ts) := by
  rw [additiveRest]
  split
  · exact ((ih.multiplicative depth ts.tail).bind fun _ _ => ih.additiveRest _ _ _).mono (List.tail_suffix ts)
  · exact List.suffix_rfl

theorem multiplicative_confined : Confined last ts (multiplicative last (fuel + 1) depth ts) := by
  rw [multiplicative]
  exact (ih.unary depth ts).bind fun _ _ => ih.multiplicativeRest _ _ _

theorem multiplicativeRest_confined : Confined last ts (multiplicativeRest last (fuel + 1) depth left ts) := by
  rw [multiplicativeRest]
  split
  · exact ((ih.unary depth ts.tail).bind fun _ _ => ih.multiplicativeRest _ _ _).mono (List.tail_suffix ts)
  · exact List.suffix_rfl

theorem unary_confined : Confined last ts (unary last (fuel + 1) depth ts) := by
  rw [unary]
  split
  · exact .fail
  · split
    · refine ((ih.unary (depth + 1) ts.tail).bind fun _ rest => ?_).mono (List.tail_suffix ts)
      exact List.suffix_refl rest
    · exact (ih.unary (depth + 1) ts.tail).mono (List.tail_suffix ts)
    · exact ih.power (depth + 1) ts

theorem power_confined : Confined last ts (power last (fuel + 1) depth ts) := by
  rw [power]
  refine (ih.primary depth ts).bind fun base rest => ?_
  dsimp only
  split
  · refine ((ih.unary depth rest.tail).bind fun _ rest' => ?_).mono (List.tail_suffix rest)
    exact List.suffix_refl rest'
  · exact List.suffix_rfl

theorem primary_confined : Confined last ts (primary last (fuel + 1) depth ts) := by
  rw [primary]
  split
  · exact List.tail_suffix ts
  · exact List.tail_suffix ts
  · split
    · split
      · exact (List.tail_suffix _).trans (suffix_tail_tail ts)
      · refine ((ih.arguments depth _ ts.tail.tail).bind fun _ rest => ?_).mono (suffix_tail_tail ts)
        exact List.suffix_refl rest
    · exact List.tail_suffix ts
  · refine ((ih.additive depth ts.tail).bind fun e rest => ?_).mono (List.tail_suffix ts)
    dsimp only
    split
    · exact List.tail_suffix rest
    · exact .fail
  · exact .fail

theorem arguments_confined : Confined last ts (arguments last (fuel + 1) depth a ts) := by
  rw [arguments]
  refine (ih.argument depth a ts).bind fun a' rest => ?_
  dsimp only
  split
  · exact (ih.arguments depth a' rest.tail).mono (List.tail_suffix rest)
  · exact List.tail_suffix rest
  · exact .fail

theorem argument_confined : Confined last ts (argument last (fuel + 1) depth a ts) := by
  rw [argument]
  split
  · split
    -- The fault is at the keyword, which is still in front.
    · exact .fail
    · refine ((ih.additive depth ts.tail.tail).bind fun _ rest => ?_).mono (suffix_tail_tail ts)
      exact List.suffix_refl rest
  · split
    · refine (ih.additive depth ts).bind fun _ rest => ?_
      exact List.suffix_refl rest
    · exact .fail

end

theorem confining (last : Nat) : ∀ fuel, Confining last fuel
  | 0 => confining_zero last
  | fuel + 1 => by
    have ih := confining last fuel
    exact ⟨fun _ _ => additive_confined ih, fun _ _ _ => additiveRest_confined ih, fun _ _ => multiplicative_confined ih,
      fun _ _ _ => multiplicativeRest_confined ih, fun _ _ => unary_confined ih, fun _ _ => power_confined ih,
      fun _ _ => primary_confined ih, fun _ _ _ => arguments_confined ih, fun _ _ _ => argument_confined ih⟩

/-- A fault in a list of tokens is one at a place among them. -/
theorem parseTokens_error {e : SyntaxError} (h : parseTokens ts = .error e) :
    ∃ f rest, rest <:+ ts ∧ e = Parser.fail ((ts.getLast?.map (·.position)).getD 0) rest f := by
  unfold parseTokens at h
  dsimp only at h
  split at h
  · cases h
    exact ⟨_, ts, List.suffix_rfl, rfl⟩
  · have hconfined := (confining ((ts.getLast?.map (·.position)).getD 0) (8 * ts.length + 8)).additive 0 ts
    rcases bind_eq_error.mp h with herror | ⟨⟨e', rest⟩, hok, h⟩
    · rw [herror] at hconfined
      exact hconfined
    · rw [hok] at hconfined
      dsimp only at h
      split at h <;> cases h
      exact ⟨_, rest, hconfined, rfl⟩

end Concord.Parser

/-! Where syntax errors point. An error found in a text is at a place of the text where a token starts or where none can,
    or at its end. What the lexer does not take is reported as it stands there; a token that is not expected is shown
    anew, which for carets, texts and numbers need not be how it is spelled. -/

namespace Concord

namespace Lexer

variable {cs body front rest : List Char} {c quote : Char} {l : Lexeme} {x : Double} {position : Nat} {ts : List Spanned}
  {s : Spanned}

/-! ### Places of tokens -/

/-- A token stands in a text where its position says: in front of its spelling, or at the end. -/
theorem Cut.placed (h : Cut position cs ts) (hs : s ∈ ts) : ∃ front back, cs = front ++ back ∧
    s.position = position + Text.byteLength front ∧ (back = [] ∧ s.token = .stop ∨
      ∃ l rest, back = l.spelling ++ rest ∧ Spelled l rest ∧ s.token = l.token) := by
  induction h with
  | @stop position gap _ =>
    rw [List.mem_singleton.mp hs]
    exact ⟨gap, [], (List.append_nil gap).symm, rfl, .inl ⟨rfl, rfl⟩⟩
  | @token position gap rest l ts _ hspelled _ ih =>
    rcases List.mem_cons.mp hs with rfl | hs
    · exact ⟨gap, l.spelling ++ rest, rfl, rfl, .inr ⟨l, rest, rfl, hspelled, rfl⟩⟩
    · obtain ⟨front, back, rfl, hposition, hplace⟩ := ih hs
      refine ⟨gap ++ (l.spelling ++ front), back, by simp only [List.append_assoc], ?_, hplace⟩
      rw [hposition, Text.byteLength_append, Text.byteLength_append, ← Nat.add_assoc, ← Nat.add_assoc]

/-- The last token is the end of the text. -/
theorem Cut.getLast? (h : Cut position cs ts) : ts.getLast? = some ⟨.stop, position + Text.byteLength cs⟩ := by
  induction h with
  | stop _ => rfl
  | @token position gap rest l ts _ _ _ ih =>
    rw [List.getLast?_cons, ih, Option.getD_some, Text.byteLength_append, Text.byteLength_append, ← Nat.add_assoc,
      ← Nat.add_assoc]

/-! ### Tokens as they are shown -/

/-- A token that is shown as it is spelled, or as the front of how it is spelled. Only some carets, texts and numbers are
    not: two stars are shown as a caret, texts between single quotes and without backslashes, numbers with all places. -/
def Lexeme.Verbatim (l : Lexeme) : Prop :=
  match l.token with
  | .caret => l.spelling = ['^']
  | .text s => l.spelling = '\'' :: s.toList ++ ['\'']
  | .number x => (Decimal.plain x).toList <+: l.spelling
  | _ => True

theorem unescape_escape (c : Char) (cs : List Char) :
    ∃ d, unescape ('\\' :: c :: cs) = d :: unescape cs ∧ (d = '\\' → c = '\\') := by
  rw [unescape.eq_def]
  split
  · rename_i heq
    cases heq
    exact ⟨'\n', rfl, nofun⟩
  · rename_i heq
    cases heq
    exact ⟨'\t', rfl, nofun⟩
  · rename_i heq
    cases heq
    exact ⟨c, rfl, id⟩
  · rename_i hnot heq
    cases heq
    exact (hnot c cs rfl rfl).elim
  · rename_i heq
    cases heq

/-- With backslashes behind it, a text does not stand for its own spelling: there are always more of them to come. -/
theorem Body.not_prefix_slashes (h : Body quote body) (hquote : quote ≠ '\\') :
    ∀ n, ¬unescape body ++ [quote] <+: List.replicate (n + 1) '\\' ++ (body ++ rest) := by
  induction h with
  | nil =>
    intro n hstarts
    exact hquote (List.cons_prefix_cons.mp hstarts).1
  | plain _ hslash _ _ =>
    intro n hstarts
    rw [unescape_plain hslash] at hstarts
    exact hslash (List.cons_prefix_cons.mp hstarts).1
  | @escape c cs hbody ih =>
    intro n hstarts
    obtain ⟨d, hd, hslash⟩ := unescape_escape c cs
    rw [hd] at hstarts
    obtain ⟨hd, hstarts⟩ := List.cons_prefix_cons.mp hstarts
    rw [hslash hd] at hstarts
    refine ih (n + 1) ?_
    rw [List.replicate_succ', List.append_assoc, List.replicate_succ', List.append_assoc]
    exact hstarts

/-- A text stands for its own spelling only if nothing is escaped in it. -/
theorem Body.unescape_eq (h : Body quote body) (hquote : quote ≠ '\\')
    (hstarts : unescape body ++ [quote] <+: body ++ quote :: rest) : unescape body = body := by
  induction h with
  | nil => rfl
  | plain _ hslash _ ih =>
    rw [unescape_plain hslash] at hstarts ⊢
    rw [ih (List.cons_prefix_cons.mp hstarts).2]
  | @escape c cs hbody _ =>
    obtain ⟨d, hd, hslash⟩ := unescape_escape c cs
    rw [hd] at hstarts
    obtain ⟨hd, hstarts⟩ := List.cons_prefix_cons.mp hstarts
    rw [hslash hd] at hstarts
    exact absurd hstarts (hbody.not_prefix_slashes hquote 0)

/-- The digits and points at the front of a text end with those of the number that is spelled there. -/
theorem prefix_spelling {digits : List Char} (hdigits : ∀ d ∈ digits, inNumber d = true)
    (hends : (∀ d ∈ cs, inNumber d = true) → ∀ d, rest.head? = some d → inNumber d = false)
    (hstarts : digits <+: cs ++ rest) : digits <+: cs := by
  rcases List.prefix_or_prefix_of_prefix hstarts (List.prefix_append cs rest) with hcs | ⟨more, rfl⟩
  · exact hcs
  · rw [List.prefix_append_right_inj] at hstarts
    have hrest := hends fun d hd => hdigits d (List.mem_append_left _ hd)
    cases more with
    | nil => rw [List.append_nil]
    | cons d more =>
      have hd := hdigits d (List.mem_append_right _ List.mem_cons_self)
      obtain ⟨behind, rfl⟩ := hstarts
      rw [hrest d rfl] at hd
      cases hd

/-- A number is shown with digits and a point, or as infinite, which is not how it starts. -/
theorem plain_prefix_iff (hread : Decimal.read (c :: cs) = some x) (hc : inNumber c = true)
    (hends : (∀ d ∈ c :: cs, inNumber d = true) → ∀ d, rest.head? = some d → inNumber d = false) :
    (Decimal.plain x).toList <+: c :: cs ++ rest ↔ (Decimal.plain x).toList <+: c :: cs := by
  refine ⟨fun hstarts => ?_, fun hstarts => hstarts.trans (List.prefix_append _ _)⟩
  by_cases hfinite : x.isFinite = true
  · have hliteral := Decimal.literal_plain hfinite (Decimal.isNegative_read hread)
    exact prefix_spelling (fun d hd => inNumber_iff.mpr (hliteral.places d hd)) hends hstarts
  · have hinf : Decimal.plain x = "inf" := by
      have hnan := Decimal.isNaN_read hread
      have hinfinite : x.isInfinite = true := by
        simp only [Double.isFinite, Double.isNaN, Double.isInfinite, decide_eq_true_eq, decide_eq_false_iff_not] at *
        omega
      rw [Decimal.plain, hnan, hinfinite, Decimal.isNegative_read hread]
      rfl
    rw [hinf] at hstarts
    have hi : 'i' = c := (List.cons_prefix_cons.mp hstarts).1
    rw [← hi] at hc
    cases hc

/-- Where a token stands, what is shown of it stands exactly if it is one of those shown as they are spelled. -/
theorem Spelled.display_prefix_iff (h : Spelled l rest) : l.token.display.toList <+: l.spelling ++ rest ↔ l.Verbatim := by
  cases h with
  | @symbol c t _ hc =>
    unfold Lexer.symbol at hc
    split at hc <;> cases hc <;> simp [Token.display, Lexeme.Verbatim]
  | star => simp [Token.display, Lexeme.Verbatim]
  | caret => simp [Token.display, Lexeme.Verbatim]
  | @text quote body _ hquote hbody =>
    have hslash : quote ≠ '\\' := by
      rcases hquote with rfl | rfl <;> decide
    have hdisplay : (Token.text (String.ofList (unescape body))).display.toList = '\'' :: (unescape body ++ ['\'']) := by
      simp [Token.display]
    have hback : (quote :: body ++ [quote]) ++ rest = quote :: (body ++ quote :: rest) := by simp
    rw [hdisplay, hback, List.cons_prefix_cons]
    show _ ↔ quote :: (body ++ [quote]) = '\'' :: ((String.ofList (unescape body)).toList ++ ['\''])
    rw [String.toList_ofList]
    constructor
    · rintro ⟨rfl, hstarts⟩
      rw [hbody.unescape_eq hslash hstarts]
    · intro heq
      obtain ⟨rfl, heq⟩ := List.cons.inj heq
      refine ⟨rfl, ?_⟩
      rw [← heq]
      exact ⟨rest, by simp⟩
  | @number x c cs _ hread hc _ hends => exact plain_prefix_iff hread hc hends
  | name => simp [Token.display, Lexeme.Verbatim]

end Lexer

namespace Parser

variable {text : String} {e : SyntaxError}

/-- What stands in a text from where a syntax error points. At the end the error says so; what the lexer does not take is
    reported as it stands there; any other token is shown anew, and is one of those of the text. -/
inductive PointsAt (text : String) (e : SyntaxError) (back : List Char) : Prop where
  | stop : back = [] → e.token = "end of input" → PointsAt text e back
  | refused : Lexer.tokens text = .error e → e.token ≠ "" → e.token.toList <+: back → PointsAt text e back
  | shown {ts : List Spanned} {l : Lexer.Lexeme} {rest : List Char} : Lexer.tokens text = .ok ts →
      ⟨l.token, e.position⟩ ∈ ts → back = l.spelling ++ rest → Lexer.Spelled l rest → e.token = l.token.display →
      (e.token.toList <+: back ↔ l.Verbatim) → PointsAt text e back

/-- A syntax error has the position of a character of the text or of its end. What is reported is found there, unless it
    is a token that is not shown as it is spelled. -/
theorem parse_error_located (h : parse text = .error e) :
    ∃ front back, text.toList = front ++ back ∧ e.position = Text.byteLength front ∧ PointsAt text e back := by
  rcases bind_eq_error.mp h with htokens | ⟨ts, htokens, hparse⟩
  · obtain ⟨front, c, rest, htext, htake⟩ := Lexer.tokensFrom_error (Nat.lt_succ_self _) htokens
    obtain ⟨token, ⟨f, rfl⟩, hstarts, hne⟩ := Lexer.takeToken_error htake
    exact ⟨front, c :: rest, htext, Nat.zero_add _, .refused htokens hne hstarts⟩
  · have hcut := Lexer.tokensFrom_cut (Nat.lt_succ_self _) htokens
    obtain ⟨f, rest, hrest, rfl⟩ := parseTokens_error hparse
    cases rest with
    | nil =>
      refine ⟨text.toList, [], (List.append_nil _).symm, ?_, .stop rfl rfl⟩
      show (ts.getLast?.map (·.position)).getD 0 = _
      rw [hcut.getLast?, Option.map_some, Option.getD_some, Nat.zero_add]
    | cons s rest =>
      have hmem : s ∈ ts := hrest.subset List.mem_cons_self
      obtain ⟨front, back, htext, hposition, hplace⟩ := hcut.placed hmem
      refine ⟨front, back, htext, hposition.trans (Nat.zero_add _), ?_⟩
      rcases hplace with ⟨hback, hstop⟩ | ⟨l, behind, rfl, hspelled, htoken⟩
      · exact .stop hback (congrArg Token.display hstop)
      · have hdisplay : (fail ((ts.getLast?.map (·.position)).getD 0) (s :: rest) f).token = l.token.display :=
          congrArg Token.display htoken
        refine .shown htokens (htoken ▸ hmem) rfl hspelled hdisplay ?_
        rw [hdisplay]
        exact hspelled.display_prefix_iff

theorem parse_error_located_quotes :
    parse "a \"b\"" = .error ⟨"unexpected token after expression", "'b'", 2⟩ ∧
    ∃ front back, "a \"b\"".toList = front ++ back ∧ 2 = Text.byteLength front ∧
      PointsAt "a \"b\"" ⟨"unexpected token after expression", "'b'", 2⟩ back := by
  have hparse : parse "a \"b\"" = .error ⟨"unexpected token after expression", "'b'", 2⟩ := by cbv
  exact ⟨hparse, parse_error_located hparse⟩

/-- Not every error shows what stands at its position: two stars are shown as a caret. -/
theorem parse_error_shown_anew :
    ¬∀ (text : String) (e : SyntaxError), parse text = .error e →
      ∃ front back, text.toList = front ++ back ∧ e.position = Text.byteLength front ∧
        (e.token = "end of input" ∧ back = [] ∨ e.token.toList <+: back) := by
  intro hall
  have hparse : parse "**" = .error ⟨"unexpected token", "^", 0⟩ := by cbv
  obtain ⟨front, back, htext, hposition, hback⟩ := hall _ _ hparse
  cases front with
  | nil =>
    have hstars : back = ['*', '*'] := htext.symm
    rw [hstars] at hback
    rcases hback with ⟨hend, -⟩ | hstarts
    · exact absurd hend (by decide)
    · exact absurd hstarts (by decide)
  | cons c front =>
    have hpos : 0 < c.utf8Size := Char.utf8Size_pos c
    have hlength : Text.byteLength (c :: front) = c.utf8Size + Text.byteLength front := by
      rw [Text.byteLength, List.map_cons, List.sum_cons, Text.byteLength]
    rw [hlength] at hposition
    dsimp only at hposition
    omega

end Parser

end Concord
