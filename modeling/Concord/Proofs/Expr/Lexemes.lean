import Mathlib.Data.List.TakeWhile
import Concord.Definitions
import Concord.Expr.Lexer
import Concord.Proofs.Outcome

/-! What the lexer takes from the front of a text. A token has one of a few spellings, which stand at the front of what it
    is taken from; and the tokens of a text are taken one behind the other, with blanks between them. -/

namespace Concord

theorem Text.byteLength_append (front back : List Char) :
    byteLength (front ++ back) = byteLength front + byteLength back := by
  unfold byteLength
  rw [List.map_append, List.sum_append]

namespace Lexer

variable {cs rest rest' back body gap : List Char} {c quote : Char} {t : Token} {l : Lexeme} {e : SyntaxError}
  {position position' fuel : Nat} {ts : List Spanned}

/-! ### Texts -/

/-- What may stand between the quotes of a text: a backslash takes the next character with it. -/
inductive Body (quote : Char) : List Char → Prop where
  | nil : Body quote []
  | plain {c : Char} {cs : List Char} : c ≠ quote → c ≠ '\\' → Body quote cs → Body quote (c :: cs)
  | escape (c : Char) {cs : List Char} : Body quote cs → Body quote ('\\' :: c :: cs)

theorem splitText_body : ∀ {cs body rest : List Char}, splitText quote cs = some (body, rest) →
    cs = body ++ quote :: rest ∧ Body quote body
  | [], _, _, h => by cases h
  | c :: cs, body, rest, h => by
    rw [splitText.eq_def] at h
    dsimp only at h
    split at h
    · rename_i hquote
      cases h
      exact ⟨hquote ▸ rfl, .nil⟩
    · rename_i hquote
      split at h
      · rename_i hslash
        subst hslash
        split at h
        · cases h
        · rename_i d cs
          obtain ⟨⟨body', rest'⟩, hsplit, heq⟩ := Option.map_eq_some_iff.mp h
          cases heq
          obtain ⟨rfl, hbody⟩ := splitText_body hsplit
          exact ⟨rfl, .escape d hbody⟩
      · rename_i hslash
        obtain ⟨⟨body', rest'⟩, hsplit, heq⟩ := Option.map_eq_some_iff.mp h
        cases heq
        obtain ⟨rfl, hbody⟩ := splitText_body hsplit
        exact ⟨rfl, .plain hquote hslash hbody⟩

/-! ### Numbers -/

/-- Characters of a number with an exponent. -/
def inLiteral (c : Char) : Bool := inNumber c || ['e', 'E', '+', '-'].contains c

theorem spanExponent_append : ∀ cs : List Char, (spanExponent cs).1 ++ (spanExponent cs).2 = cs
  | [] => rfl
  | [c] => by
    rw [spanExponent.eq_def]
    dsimp only
    split <;> rfl
  | c :: d :: cs => by
    rw [spanExponent.eq_def]
    dsimp only
    split
    · split
      · rw [List.cons_append, List.cons_append, List.takeWhile_append_dropWhile]
      · rw [List.cons_append, List.takeWhile_append_dropWhile]
    · rfl

theorem spanNumber_append (cs : List Char) : (spanNumber cs).1 ++ (spanNumber cs).2 = cs := by
  show (cs.takeWhile inNumber ++ (spanExponent (cs.dropWhile inNumber)).1) ++
    (spanExponent (cs.dropWhile inNumber)).2 = cs
  rw [List.append_assoc, spanExponent_append, List.takeWhile_append_dropWhile]

theorem inLiteral_of_isDigit (h : c.isDigit = true) : inLiteral c = true := by
  unfold inLiteral inNumber
  rw [h, Bool.true_or, Bool.true_or]

theorem spanExponent_inLiteral : ∀ cs : List Char, ∀ c ∈ (spanExponent cs).1, inLiteral c = true
  | [], c, h => by cases h
  | d :: cs, c, h => by
    have hdigits : ∀ {l : List Char}, c ∈ l.takeWhile Char.isDigit → inLiteral c = true :=
      fun hc => inLiteral_of_isDigit (List.mem_takeWhile_imp hc)
    rw [spanExponent.eq_def] at h
    dsimp only at h
    split at h
    · rename_i hmark
      have hfirst : inLiteral d = true := by
        rcases hmark with rfl | rfl <;> rfl
      split at h
      · rename_i s more
        split at h
        · rename_i hsign
          have hsecond : inLiteral s = true := by
            rcases hsign with rfl | rfl <;> rfl
          rcases List.mem_cons.mp h with rfl | h
          · exact hfirst
          · rcases List.mem_cons.mp h with rfl | h
            · exact hsecond
            · exact hdigits h
        · rcases List.mem_cons.mp h with rfl | h
          · exact hfirst
          · exact hdigits h
      · rw [List.mem_singleton.mp h]
        exact hfirst
    · cases h

theorem spanNumber_inLiteral : ∀ c ∈ (spanNumber cs).1, inLiteral c = true := by
  intro c hc
  rcases List.mem_append.mp hc with hc | hc
  · unfold inLiteral
    rw [List.mem_takeWhile_imp hc, Bool.true_or]
  · exact spanExponent_inLiteral _ c hc

theorem spanExponent_cases (cs : List Char) :
    spanExponent cs = ([], cs) ∨ ∃ c ∈ (spanExponent cs).1, inNumber c = false := by
  cases cs with
  | nil => exact .inl rfl
  | cons c cs =>
    rw [spanExponent.eq_def]
    dsimp only
    split
    · rename_i hmark
      have hc : inNumber c = false := by
        rcases hmark with rfl | rfl <;> rfl
      refine .inr ⟨c, ?_, hc⟩
      split
      · split <;> exact List.mem_cons_self
      · exact List.mem_cons_self
    · exact .inl rfl

/-- Behind a number without an exponent stands no digit and no point. -/
theorem spanNumber_ends (hplain : ∀ c ∈ (spanNumber cs).1, inNumber c = true) {d : Char}
    (hd : (spanNumber cs).2.head? = some d) : inNumber d = false := by
  rcases spanExponent_cases (cs.dropWhile inNumber) with hnone | ⟨c, hc, hmark⟩
  · have hrest : (spanNumber cs).2 = cs.dropWhile inNumber := congrArg Prod.snd hnone
    rw [hrest] at hd
    have hnot := List.head?_dropWhile_not inNumber cs
    rw [hd] at hnot
    exact hnot
  · have hnumber := hplain c (List.mem_append_right _ hc)
    rw [hmark] at hnumber
    cases hnumber

/-! ### Spellings -/

/-- How tokens are spelled, and what may stand behind a number. -/
inductive Spelled : Lexeme → List Char → Prop where
  | symbol {c : Char} {t : Token} {rest : List Char} : symbol c = some t → Spelled ⟨t, [c]⟩ rest
  | star {rest : List Char} : Spelled ⟨.star, ['*']⟩ rest
  | caret {rest : List Char} : Spelled ⟨.caret, ['*', '*']⟩ rest
  | text {quote : Char} {body rest : List Char} : quote = '\'' ∨ quote = '"' → Body quote body →
      Spelled ⟨.text (String.ofList (unescape body)), quote :: body ++ [quote]⟩ rest
  | number {x : Double} {c : Char} {cs rest : List Char} : Decimal.read (c :: cs) = some x → inNumber c = true →
      (∀ d ∈ c :: cs, inLiteral d = true) →
      ((∀ d ∈ c :: cs, inNumber d = true) → ∀ d, rest.head? = some d → inNumber d = false) →
      Spelled ⟨.number x, c :: cs⟩ rest
  | name {cs rest : List Char} : Definitions.isName cs = true → Spelled ⟨.identifier (String.ofList cs), cs⟩ rest

/-- A token is taken from what it is spelled like, and this stands at the front. -/
theorem takeToken_spelled (h : takeToken position c rest = .ok (l, rest')) :
    c :: rest = l.spelling ++ rest' ∧ Spelled l rest' := by
  unfold takeToken at h
  split at h
  · rename_i t ht
    cases h
    exact ⟨rfl, .symbol ht⟩
  · split at h
    · rename_i hstar
      subst hstar
      split at h <;> cases h
      · exact ⟨rfl, .caret⟩
      · exact ⟨rfl, .star⟩
    · split at h
      · rename_i hquote
        unfold takeText at h
        split at h <;> cases h
        rename_i body hsplit
        obtain ⟨rfl, hbody⟩ := splitText_body hsplit
        exact ⟨by simp, .text hquote hbody⟩
      · split at h
        · rename_i hnumber
          have happend := spanNumber_append (c :: rest)
          have hends := @spanNumber_ends (c :: rest)
          have hliteral := @spanNumber_inLiteral (c :: rest)
          unfold takeNumber at h
          dsimp only at h
          split at h <;> cases h
          rename_i x hx
          have hfirst : ∃ cs, (spanNumber (c :: rest)).1 = c :: cs := by
            refine ⟨rest.takeWhile inNumber ++ (spanExponent (rest.dropWhile inNumber)).1, ?_⟩
            show (c :: rest).takeWhile inNumber ++ (spanExponent ((c :: rest).dropWhile inNumber)).1 = _
            rw [List.takeWhile_cons_of_pos hnumber, List.dropWhile_cons_of_pos hnumber, List.cons_append]
          obtain ⟨cs, hcs⟩ := hfirst
          rw [hcs] at happend hends hliteral hx ⊢
          exact ⟨happend.symm, .number hx hnumber hliteral fun hplain d hd => hends hplain hd⟩
        · split at h <;> cases h
          rename_i hstart
          refine ⟨by simp, .name ?_⟩
          rw [Definitions.isName, hstart, Bool.true_and, List.all_eq_true]
          exact fun d hd => List.mem_takeWhile_imp hd

theorem Spelled.ne_nil (h : Spelled l rest) : l.spelling ≠ [] := by
  cases h with
  | name hname =>
    rintro rfl
    cases hname
  | _ => exact List.cons_ne_nil _ _

theorem Spelled.ne_stop (h : Spelled l rest) : l.token ≠ .stop := by
  cases h with
  | @symbol c t _ hc =>
    unfold Lexer.symbol at hc
    split at hc <;> cases hc <;> nofun
  | _ => nofun

/-- What the lexer does not take it reports as it stands there. -/
theorem takeToken_error (h : takeToken position c rest = .error e) :
    ∃ token, (∃ f : SyntaxFault, e = f.at token position) ∧ token.toList <+: c :: rest ∧ token ≠ "" := by
  have hne : ∀ {cs : List Char}, cs ≠ [] → String.ofList cs ≠ "" := by
    intro cs hcs heq
    exact hcs (by simpa using congrArg String.toList heq)
  unfold takeToken at h
  split at h
  · cases h
  · split at h
    · split at h <;> cases h
    · split at h
      · unfold takeText at h
        split at h <;> cases h
        exact ⟨_, ⟨_, rfl⟩, by simp, hne (List.cons_ne_nil _ _)⟩
      · split at h
        · rename_i hnumber
          have happend := spanNumber_append (c :: rest)
          unfold takeNumber at h
          dsimp only at h
          split at h <;> cases h
          refine ⟨_, ⟨_, rfl⟩, by rw [String.toList_ofList]; exact ⟨_, happend⟩, hne ?_⟩
          show (c :: rest).takeWhile inNumber ++ _ ≠ []
          rw [List.takeWhile_cons_of_pos hnumber]
          exact List.cons_ne_nil _ _
        · split at h <;> cases h
          exact ⟨_, ⟨_, rfl⟩, by simp, by simp⟩

/-! ### Whole texts -/

/-- The lexer takes some tokens one behind the other, from one position in a text to another. -/
inductive Scans : Nat → List Char → List Spanned → Nat → List Char → Prop where
  | done {position : Nat} {cs : List Char} : Scans position cs [] position cs
  | token {position position' : Nat} {gap rest rest' back : List Char} {c : Char} {l : Lexeme} {ts : List Spanned} :
      (∀ c ∈ gap, Text.isBlank c = true) → Text.isBlank c = false →
      takeToken (position + Text.byteLength gap) c rest = .ok (l, rest') →
      Scans (position + Text.byteLength gap + Text.byteLength l.spelling) rest' ts position' back →
      Scans position (gap ++ c :: rest) (⟨l.token, position + Text.byteLength gap⟩ :: ts) position' back

/-- A scan counts the bytes that it passes over. -/
theorem Scans.byteLength_eq (h : Scans position cs ts position' back) :
    position' + Text.byteLength back = position + Text.byteLength cs := by
  induction h with
  | done => rfl
  | @token position _ gap rest rest' _ c l _ _ _ htake _ ih =>
    obtain ⟨hsplit, -⟩ := takeToken_spelled htake
    rw [ih, hsplit, Text.byteLength_append, Text.byteLength_append]
    omega

theorem Scans.suffix (h : Scans position cs ts position' back) : back <:+ cs := by
  induction h with
  | done => exact List.suffix_rfl
  | token _ _ htake _ ih =>
    rw [(takeToken_spelled htake).1, ← List.append_assoc]
    exact ih.trans (List.suffix_append _ _)

/-- What is left behind a token needs less fuel. -/
theorem length_rest {gap : List Char} (hspelled : Spelled l rest') (hcs : cs = gap ++ c :: rest)
    (hsplit : c :: rest = l.spelling ++ rest') (hfuel : cs.length < fuel + 1) : rest'.length < fuel := by
  have hpos := List.length_pos_iff.mpr hspelled.ne_nil
  have hlength := congrArg List.length hsplit
  rw [hcs, List.length_append] at hfuel
  rw [List.length_append] at hlength
  omega

/-- A scan gets to the end of a text, or to a character where nothing can be taken. -/
theorem tokensFrom_scanned : ∀ {fuel : Nat} (position : Nat) {cs : List Char}, cs.length < fuel →
    ∃ ts position' gap rest, Scans position cs ts position' (gap ++ rest) ∧ (∀ c ∈ gap, Text.isBlank c = true) ∧
      (rest = [] ∧ tokensFrom fuel position cs = .ok (ts ++ [⟨.stop, position' + Text.byteLength gap⟩]) ∨
        ∃ c back e, rest = c :: back ∧ Text.isBlank c = false ∧
          takeToken (position' + Text.byteLength gap) c back = .error e ∧ tokensFrom fuel position cs = .error e)
  | 0, _, _, hfuel => by cases hfuel
  | fuel + 1, position, cs, hfuel => by
    have hgap : ∀ c ∈ cs.takeWhile Text.isBlank, Text.isBlank c = true := fun c hc => List.mem_takeWhile_imp hc
    have hcs : cs.takeWhile Text.isBlank ++ cs.dropWhile Text.isBlank = cs := List.takeWhile_append_dropWhile
    have hstart : Scans position cs [] position (cs.takeWhile Text.isBlank ++ cs.dropWhile Text.isBlank) := by
      rw [hcs]
      exact .done
    unfold tokensFrom
    cases hdrop : cs.dropWhile Text.isBlank with
    | nil =>
      rw [hdrop] at hstart
      exact ⟨[], position, _, [], hstart, hgap, .inl ⟨rfl, rfl⟩⟩
    | cons c rest =>
      rw [hdrop] at hstart hcs
      have hc : Text.isBlank c = false := by
        have hnot := List.head?_dropWhile_not Text.isBlank cs
        rw [hdrop] at hnot
        exact hnot
      dsimp only
      cases htake : takeToken (position + Text.byteLength (cs.takeWhile Text.isBlank)) c rest with
      | error e => exact ⟨[], position, _, _, hstart, hgap, .inr ⟨c, rest, e, rfl, hc, htake, rfl⟩⟩
      | ok r =>
        obtain ⟨l, rest'⟩ := r
        obtain ⟨hsplit, hspelled⟩ := takeToken_spelled htake
        obtain ⟨ts, position', gap, back, hscans, hgap', hend⟩ := tokensFrom_scanned
          (position + Text.byteLength (cs.takeWhile Text.isBlank) + Text.byteLength l.spelling)
          (length_rest hspelled hcs.symm hsplit hfuel)
        have hall := Scans.token hgap hc htake hscans
        rw [hcs] at hall
        refine ⟨_, position', gap, back, hall, hgap', ?_⟩
        rcases hend with ⟨hback, hrest⟩ | ⟨d, more, e, hback, hd, herror, hrest⟩
        · exact .inl ⟨hback, by simp only [hrest, Bind.bind, Except.bind, List.cons_append]⟩
        · exact .inr ⟨d, more, e, hback, hd, herror, by simp only [hrest, Bind.bind, Except.bind]⟩

/-- The tokens that a text is cut into from a position on, each behind any number of blanks. -/
inductive Cut : Nat → List Char → List Spanned → Prop where
  | stop {position : Nat} {gap : List Char} : (∀ c ∈ gap, Text.isBlank c = true) →
      Cut position gap [⟨.stop, position + Text.byteLength gap⟩]
  | token {position : Nat} {gap rest : List Char} {l : Lexeme} {ts : List Spanned} :
      (∀ c ∈ gap, Text.isBlank c = true) → Spelled l rest →
      Cut (position + Text.byteLength gap + Text.byteLength l.spelling) rest ts →
      Cut position (gap ++ (l.spelling ++ rest)) (⟨l.token, position + Text.byteLength gap⟩ :: ts)

/-- The only mark of the end is the last token. -/
theorem Cut.stop_last {ts : List Spanned} (h : Cut position cs ts) :
    ∃ w, ts.map (·.token) = w ++ [Token.stop] ∧ Token.stop ∉ w := by
  induction h with
  | stop _ => exact ⟨[], rfl, List.not_mem_nil⟩
  | @token _ _ _ l _ _ hspelled _ ih =>
    obtain ⟨w, hw, hnot⟩ := ih
    refine ⟨l.token :: w, by rw [List.map_cons, hw, List.cons_append], ?_⟩
    rw [List.mem_cons, not_or]
    exact ⟨hspelled.ne_stop.symm, hnot⟩

theorem Scans.cut (h : Scans position cs ts position' gap) (hgap : ∀ c ∈ gap, Text.isBlank c = true) :
    Cut position cs (ts ++ [⟨.stop, position' + Text.byteLength gap⟩]) := by
  induction h with
  | done => exact .stop hgap
  | token hblanks _ htake _ ih =>
    obtain ⟨hsplit, hspelled⟩ := takeToken_spelled htake
    rw [hsplit]
    exact .token hblanks hspelled (ih hgap)

theorem tokensFrom_cut (hfuel : cs.length < fuel) (h : tokensFrom fuel position cs = .ok ts) : Cut position cs ts := by
  obtain ⟨ss, position', gap, rest, hscans, hgap, ⟨rfl, htokens⟩ | ⟨_, _, _, -, -, -, herror⟩⟩ :=
    tokensFrom_scanned position hfuel
  · cases h.symm.trans htokens
    rw [List.append_nil] at hscans
    exact hscans.cut hgap
  · cases h.symm.trans herror

/-- A text that cannot be cut has a place where nothing can be taken. -/
theorem tokensFrom_error (hfuel : cs.length < fuel) (h : tokensFrom fuel position cs = .error e) :
    ∃ front c rest, cs = front ++ c :: rest ∧ takeToken (position + Text.byteLength front) c rest = .error e := by
  obtain ⟨ss, position', gap, _, hscans, -, ⟨-, htokens⟩ | ⟨c, rest, _, rfl, -, hrefused, herror⟩⟩ :=
    tokensFrom_scanned position hfuel
  · cases h.symm.trans htokens
  · cases h.symm.trans herror
    obtain ⟨front, rfl⟩ := hscans.suffix
    have hlength := hscans.byteLength_eq
    rw [← List.append_assoc, Text.byteLength_append, Text.byteLength_append _ (c :: rest), ← Nat.add_assoc,
      ← Nat.add_assoc, Nat.add_right_cancel_iff] at hlength
    refine ⟨front ++ gap, c, rest, (List.append_assoc _ _ _).symm, ?_⟩
    rw [← hlength]
    exact hrefused

end Lexer
end Concord
