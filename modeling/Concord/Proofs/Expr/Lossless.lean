import Mathlib.Data.List.DropRight
import Concord.Proofs.Definitions.Document
import Concord.Proofs.Expr.Lexed

/-! Nothing is lost in cutting a text into tokens. What a token is depends on its spelling alone, since the lexer takes
    from the front of a text what it takes from the text as long as that lies within the front; between the tokens stand
    blanks only. Where a text cannot be cut, everything in front of the place is. -/

namespace Concord.Lexer

variable {α : Type} {cs front back rest rest' body gap : List Char} {c quote : Char} {l : Lexeme} {e : SyntaxError}
  {position position' fuel : Nat} {ts : List Spanned}

/-! ### The front of a text -/

theorem eq_nil_of_append_append {x y z : List α} (h : z = x ++ (y ++ z)) : x = [] ∧ y = [] := by
  have hlength := congrArg List.length h
  rw [List.length_append, List.length_append] at hlength
  exact ⟨List.length_eq_zero_iff.mp (by omega), List.length_eq_zero_iff.mp (by omega)⟩

theorem takeWhile_front {p : α → Bool} : ∀ (front : List α) {back rest : List α},
    (front ++ back).dropWhile p = rest ++ back →
      (front ++ back).takeWhile p = front.takeWhile p ∧ front.dropWhile p = rest
  | [], back, rest, h => by
    rw [List.nil_append] at h ⊢
    have hsplit := List.takeWhile_append_dropWhile (p := p) (l := back)
    rw [h] at hsplit
    obtain ⟨htake, rfl⟩ := eq_nil_of_append_append hsplit.symm
    exact ⟨htake, rfl⟩
  | c :: front, back, rest, h => by
    rw [List.cons_append] at h ⊢
    by_cases hc : p c = true
    · rw [List.dropWhile_cons_of_pos hc] at h ⊢
      obtain ⟨htake, hdrop⟩ := takeWhile_front front h
      rw [List.takeWhile_cons_of_pos hc, List.takeWhile_cons_of_pos hc, htake]
      exact ⟨rfl, hdrop⟩
    · rw [List.dropWhile_cons_of_neg hc, ← List.cons_append] at h
      rw [List.takeWhile_cons_of_neg hc, List.takeWhile_cons_of_neg hc, List.dropWhile_cons_of_neg hc]
      exact ⟨rfl, List.append_cancel_right h⟩

theorem splitText_of_body (hquote : quote ≠ '\\') (h : Body quote body) :
    splitText quote (body ++ quote :: rest) = some (body, rest) := by
  induction h with
  | nil => exact splitText_quote quote
  | plain hc hslash _ ih => rw [List.cons_append, splitText_plain hc hslash, ih, Option.map_some]
  | escape c _ ih =>
    rw [List.cons_append, List.cons_append, splitText.eq_def]
    dsimp only
    rw [if_neg hquote.symm, if_pos rfl, ih, Option.map_some]

theorem spanExponent_front {number : List Char} (h : spanExponent (front ++ back) = (number, rest ++ back)) :
    spanExponent front = (number, rest) := by
  match front with
  | [] =>
    have happend := spanExponent_append back
    rw [List.nil_append] at h
    rw [h] at happend
    obtain ⟨rfl, rfl⟩ := eq_nil_of_append_append happend.symm
    rfl
  | [c] =>
    rw [List.cons_append, List.nil_append, spanExponent.eq_def] at h
    rw [spanExponent.eq_def]
    dsimp only at h ⊢
    split at h
    · rename_i hmark
      rw [if_pos hmark]
      split at h
      · rename_i s back
        split at h
        · have hlength := (List.dropWhile_sublist Char.isDigit (l := back)).length_le
          rw [(Prod.mk.inj h).2, List.length_append, List.length_cons] at hlength
          omega
        · obtain ⟨hnumber, hrest⟩ := Prod.mk.inj h
          obtain ⟨htake, hdrop⟩ := takeWhile_front [] hrest
          rw [List.nil_append] at htake
          rw [← hnumber, htake, ← hdrop]
          rfl
      · rw [List.append_nil] at h
        exact h
    · rename_i hmark
      rw [if_neg hmark]
      obtain ⟨hnumber, hrest⟩ := Prod.mk.inj h
      have hrest : [c] ++ back = rest ++ back := hrest
      rw [← hnumber, ← List.append_cancel_right hrest]
  | c :: d :: front =>
    rw [List.cons_append, List.cons_append, spanExponent.eq_def] at h
    rw [spanExponent.eq_def]
    dsimp only at h ⊢
    split at h
    · rename_i hmark
      rw [if_pos hmark]
      split at h
      · rename_i hsign
        rw [if_pos hsign]
        obtain ⟨hnumber, hrest⟩ := Prod.mk.inj h
        obtain ⟨htake, hdrop⟩ := takeWhile_front front hrest
        rw [← hnumber, htake, hdrop]
      · rename_i hsign
        rw [if_neg hsign]
        obtain ⟨hnumber, hrest⟩ := Prod.mk.inj h
        obtain ⟨htake, hdrop⟩ := takeWhile_front (d :: front) hrest
        rw [← hnumber, ← List.cons_append, htake, hdrop]
    · rename_i hmark
      rw [if_neg hmark]
      obtain ⟨hnumber, hrest⟩ := Prod.mk.inj h
      have hrest : c :: d :: front ++ back = rest ++ back := hrest
      rw [← hnumber, ← List.append_cancel_right hrest]

theorem spanNumber_eq (cs : List Char) : spanNumber cs =
    (cs.takeWhile inNumber ++ (spanExponent (cs.dropWhile inNumber)).1, (spanExponent (cs.dropWhile inNumber)).2) := rfl

theorem spanNumber_front {number : List Char} (h : spanNumber (front ++ back) = (number, rest ++ back)) :
    spanNumber front = (number, rest) := by
  rw [spanNumber_eq] at h ⊢
  obtain ⟨hnumber, hrest⟩ := Prod.mk.inj h
  have happend := spanExponent_append ((front ++ back).dropWhile inNumber)
  rw [hrest, ← List.append_assoc] at happend
  obtain ⟨htake, hdrop⟩ := takeWhile_front front happend.symm
  have hspan : spanExponent (front.dropWhile inNumber ++ back) =
      ((spanExponent ((front ++ back).dropWhile inNumber)).1, rest ++ back) := by
    rw [hdrop, happend, ← hrest]
  rw [spanExponent_front hspan, ← htake, hnumber]

theorem takeText_front (hquote : quote ≠ '\\') (h : takeText position quote (front ++ back) = .ok (l, rest ++ back)) :
    takeText position' quote front = .ok (l, rest) := by
  unfold takeText at h ⊢
  split at h
  · rename_i body rest' hsplit
    obtain ⟨hl, hrest⟩ := Prod.mk.inj (Except.ok.inj h)
    obtain ⟨hcs, hbody⟩ := splitText_body hsplit
    rw [hrest, ← List.cons_append, ← List.append_assoc] at hcs
    rw [List.append_cancel_right hcs, splitText_of_body hquote hbody, ← hl]
  · cases h

theorem takeNumber_front (h : takeNumber position (front ++ back) = .ok (l, rest ++ back)) :
    takeNumber position' front = .ok (l, rest) := by
  unfold takeNumber at h ⊢
  dsimp only at h ⊢
  split at h
  · rename_i x hx
    obtain ⟨hl, hrest⟩ := Prod.mk.inj (Except.ok.inj h)
    rw [spanNumber_front (Prod.ext rfl hrest), hx, ← hl]
  · cases h

theorem takeName_front (h : takeName c (front ++ back) = (l, rest ++ back)) : takeName c front = (l, rest) := by
  unfold takeName at h ⊢
  obtain ⟨hl, hrest⟩ := Prod.mk.inj h
  obtain ⟨htake, hdrop⟩ := takeWhile_front front hrest
  rw [hdrop, ← htake, ← hl]

/-- From the front of a text the lexer takes what it takes from the text, if that lies within the front. -/
theorem takeToken_front (h : takeToken position c (front ++ back) = .ok (l, rest ++ back)) :
    takeToken position' c front = .ok (l, rest) := by
  unfold takeToken at h ⊢
  split at h
  · obtain ⟨rfl, hrest⟩ := Prod.mk.inj (Except.ok.inj h)
    rw [List.append_cancel_right hrest]
  · split at h
    · rename_i hstar
      rw [if_pos hstar]
      split at h
      · rename_i more hstars
        obtain ⟨rfl, hrest⟩ := Prod.mk.inj (Except.ok.inj h)
        rw [hrest, ← List.cons_append] at hstars
        rw [List.append_cancel_right hstars]
        rfl
      · rename_i hstars
        obtain ⟨rfl, hrest⟩ := Prod.mk.inj (Except.ok.inj h)
        rw [← List.append_cancel_right hrest]
        split
        · exact absurd rfl (hstars _)
        · rfl
    · rename_i hstar
      rw [if_neg hstar]
      split at h
      · rename_i hquote
        rw [if_pos hquote]
        refine takeText_front ?_ h
        rcases hquote with rfl | rfl <;> decide
      · rename_i hquote
        rw [if_neg hquote]
        split at h
        · rename_i hnumber
          rw [if_pos hnumber]
          rw [← List.cons_append] at h
          exact takeNumber_front h
        · rename_i hnumber
          rw [if_neg hnumber]
          split at h
          · rename_i hname
            rw [if_pos hname, takeName_front (Except.ok.inj h)]
          · cases h

/-- A refused character is refused wherever the text stands. -/
theorem takeToken_error_moved (h : takeToken position c rest = .error e) (position' : Nat) :
    e.position = position ∧ takeToken position' c rest = .error { e with position := position' } := by
  unfold takeToken at h ⊢
  split at h
  · cases h
  · split at h
    · split at h <;> cases h
    · rename_i hstar
      rw [if_neg hstar]
      split at h
      · rename_i hquote
        rw [if_pos hquote]
        unfold takeText at h ⊢
        split at h <;> cases h
        exact ⟨rfl, rfl⟩
      · rename_i hquote
        rw [if_neg hquote]
        split at h
        · rename_i hnumber
          rw [if_pos hnumber]
          unfold takeNumber at h ⊢
          dsimp only at h ⊢
          split at h <;> cases h
          exact ⟨rfl, rfl⟩
        · rename_i hnumber
          rw [if_neg hnumber]
          split at h <;> cases h
          rename_i hname
          rw [if_neg hname]
          exact ⟨rfl, rfl⟩

/-! ### The ends of spellings -/

theorem isBlank_of_inLiteral (h : inLiteral c = true) : Text.isBlank c = false := by
  unfold inLiteral at h
  rcases Bool.or_eq_true_iff.mp h with hnumber | hmark
  · exact (inNumber_class hnumber).1
  · have hall : ['e', 'E', '+', '-'].all (fun c => !Text.isBlank c) = true := by decide
    simpa using List.all_eq_true.mp hall c (List.contains_iff_mem.mp hmark)

/-- No token is spelled with a blank at its end. -/
theorem Spelled.ends (h : Spelled l rest) : ∃ front c, l.spelling = front ++ [c] ∧ Text.isBlank c = false := by
  have hlast : ∀ {c : Char} {cs : List Char}, (∀ d ∈ c :: cs, Text.isBlank d = false) →
      ∃ front d, c :: cs = front ++ [d] ∧ Text.isBlank d = false := fun {c cs} hall =>
    ⟨_, _, (List.dropLast_append_getLast (List.cons_ne_nil c cs)).symm, hall _ (List.getLast_mem _)⟩
  cases h with
  | symbol ht => exact ⟨[], _, rfl, (symbol_class ht).1⟩
  | star => exact ⟨[], '*', rfl, by decide⟩
  | caret => exact ⟨['*'], '*', rfl, by decide⟩
  | @text quote body _ hquote _ =>
    refine ⟨quote :: body, quote, rfl, ?_⟩
    rcases hquote with rfl | rfl <;> decide
  | number _ _ hliteral _ => exact hlast fun d hd => isBlank_of_inLiteral (hliteral d hd)
  | @name cs _ hname =>
    match cs with
    | [] => cases hname
    | c :: cs =>
      rw [Definitions.isName, Bool.and_eq_true, List.all_eq_true] at hname
      refine hlast fun d hd => ?_
      rcases List.mem_cons.mp hd with rfl | hd
      · exact (startsName_class hname.1).1
      · exact Text.isBlank_of_continuesName (hname.2 d hd)

theorem Spelled.rdropWhile (h : Spelled l rest) (hgap : ∀ c ∈ gap, Text.isBlank c = true) :
    (l.spelling ++ gap).rdropWhile Text.isBlank = l.spelling := by
  obtain ⟨front, c, hspelling, hc⟩ := h.ends
  rw [hspelling, List.rdropWhile, List.reverse_append,
    List.dropWhile_append_of_pos fun d hd => hgap d (List.mem_reverse.mp hd), ← List.rdropWhile,
    List.rdropWhile_concat_neg _ _ _ (by rw [hc]; exact Bool.false_ne_true)]

/-! ### Scanning -/

theorem Spelled.starts (h : Spelled l rest') (hsplit : c :: rest = l.spelling ++ rest') :
    ∃ cs, l.spelling = c :: cs ∧ rest = cs ++ rest' := by
  obtain ⟨d, cs, hspelling⟩ := List.exists_cons_of_ne_nil h.ne_nil
  rw [hspelling, List.cons_append] at hsplit
  obtain ⟨rfl, hrest⟩ := List.cons.inj hsplit
  exact ⟨cs, hspelling, hrest⟩

/-- What lies in front of where a scan gets to scans as well. -/
theorem Scans.within (h : Scans position cs ts position' (gap ++ back)) :
    ∃ front, cs = front ++ back ∧ Scans position front ts position' gap := by
  generalize hleft : gap ++ back = left at h
  induction h with
  | done => exact ⟨gap, hleft.symm, .done⟩
  | @token position position' blanks rest rest' left c l ts hblanks hc htake _ ih =>
    obtain ⟨front, rfl, hscans⟩ := ih hleft
    obtain ⟨hsplit, hspelled⟩ := takeToken_spelled htake
    obtain ⟨cs, -, rfl⟩ := hspelled.starts hsplit
    rw [← List.append_assoc] at htake
    exact ⟨blanks ++ c :: (cs ++ front), by simp only [List.append_assoc, List.cons_append],
      .token hblanks hc (takeToken_front htake) hscans⟩

/-- A text whose scan gets to its end has the tokens of the scan. -/
theorem Scans.tokensFrom_eq (h : Scans position cs ts position' gap) (hgap : ∀ c ∈ gap, Text.isBlank c = true)
    (hfuel : cs.length < fuel) :
    tokensFrom fuel position cs = .ok (ts ++ [⟨.stop, position' + Text.byteLength gap⟩]) := by
  induction h generalizing fuel with
  | done =>
    cases fuel with
    | zero => cases hfuel
    | succ fuel =>
      have htake := List.takeWhile_eq_self_iff.mpr hgap
      have hdrop := List.dropWhile_eq_nil_iff.mpr hgap
      simp only [tokensFrom, htake, hdrop, List.nil_append]
  | @token position position' blanks rest rest' left c l ts hblanks hc htake _ ih =>
    cases fuel with
    | zero => cases hfuel
    | succ fuel =>
      obtain ⟨hsplit, hspelled⟩ := takeToken_spelled htake
      have hneg : ¬Text.isBlank c = true := by
        rw [hc]
        exact Bool.false_ne_true
      have hfront : (blanks ++ c :: rest).takeWhile Text.isBlank = blanks := by
        rw [List.takeWhile_append_of_pos hblanks, List.takeWhile_cons_of_neg hneg, List.append_nil]
      have hdrop : (blanks ++ c :: rest).dropWhile Text.isBlank = c :: rest := by
        rw [List.dropWhile_append_of_pos hblanks, List.dropWhile_cons_of_neg hneg]
      have hrest := ih hgap (length_rest hspelled rfl hsplit hfuel)
      simp only [tokensFrom, hfront, hdrop, htake, hrest, Bind.bind, Except.bind, List.cons_append]

/-! ### Tokens alone -/

theorem tokens_of_scans (h : Scans 0 cs ts position' gap) (hgap : ∀ c ∈ gap, Text.isBlank c = true) :
    tokens (String.ofList cs) = .ok (ts ++ [⟨.stop, Text.byteLength cs⟩]) := by
  unfold tokens
  rw [String.toList_ofList, h.tokensFrom_eq hgap (Nat.lt_succ_self _), h.byteLength_eq, Nat.zero_add]

/-- A token is cut from its spelling alone. -/
theorem tokens_spelling (h : takeToken position c rest = .ok (l, rest')) (hc : Text.isBlank c = false) :
    tokens (String.ofList l.spelling) = .ok [⟨l.token, 0⟩, ⟨.stop, Text.byteLength l.spelling⟩] := by
  obtain ⟨hsplit, hspelled⟩ := takeToken_spelled h
  obtain ⟨cs, hspelling, rfl⟩ := hspelled.starts hsplit
  have hfront : takeToken position c (cs ++ rest') = .ok (l, [] ++ rest') := h
  have hscans : Scans 0 ([] ++ c :: cs) [⟨l.token, 0⟩] (0 + Text.byteLength l.spelling) [] :=
    .token (List.forall_mem_nil _) hc (takeToken_front hfront) .done
  rw [List.nil_append, ← hspelling] at hscans
  exact tokens_of_scans hscans (List.forall_mem_nil _)

/-- The text from a token to the next one, the blanks at its end left out, is cut into this token alone. -/
def Piece (text : String) (s s' : Spanned) : Prop :=
  ∃ front piece back, text.toList = front ++ (piece ++ back) ∧ s.position = Text.byteLength front ∧
    s'.position = Text.byteLength (front ++ piece) ∧
    tokens (String.ofList (piece.rdropWhile Text.isBlank)) =
      .ok [⟨s.token, 0⟩, ⟨.stop, Text.byteLength (piece.rdropWhile Text.isBlank)⟩]

theorem Piece.lt {text : String} {s s' : Spanned} (h : Piece text s s') : s.position < s'.position := by
  obtain ⟨front, piece, back, -, hstart, hend, htokens⟩ := h
  rw [hstart, hend, Text.byteLength_append]
  cases piece with
  | nil =>
    have hnone : tokens (String.ofList ([].rdropWhile Text.isBlank)) = .ok [⟨.stop, 0⟩] := rfl
    rw [hnone] at htokens
    cases congrArg List.length (Except.ok.inj htokens)
  | cons c piece =>
    have hpos := Char.utf8Size_pos c
    have hlength := Text.byteLength_append [c] piece
    have hsingle : Text.byteLength [c] = c.utf8Size := Nat.add_zero _
    rw [List.singleton_append] at hlength
    omega

/-- The lexer takes a token where it stands in a text. -/
def TakenIn (text : String) (s : Spanned) : Prop :=
  ∃ front c rest l rest', text.toList = front ++ c :: rest ∧ s.position = Text.byteLength front ∧
    takeToken s.position c rest = .ok (l, rest') ∧ s.token = l.token

theorem TakenIn.ne_stop {text : String} {s : Spanned} (h : TakenIn text s) : s.token ≠ .stop := by
  obtain ⟨_, _, _, _, _, -, -, htake, htoken⟩ := h
  rw [htoken]
  exact (takeToken_spelled htake).2.ne_stop

section
variable {text : String} {before : List Char}

theorem Scans.takenIn (h : Scans position cs ts position' back) (htext : text.toList = before ++ cs)
    (hposition : position = Text.byteLength before) : ∀ s ∈ ts, TakenIn text s := by
  induction h generalizing before with
  | done => exact List.forall_mem_nil _
  | @token position _ gap rest rest' back c l ts hgap hc htake _ ih =>
    obtain ⟨hsplit, -⟩ := takeToken_spelled htake
    have hstart : position + Text.byteLength gap = Text.byteLength (before ++ gap) := by
      rw [hposition, Text.byteLength_append]
    refine List.forall_mem_cons.mpr ⟨⟨before ++ gap, c, rest, l, rest', ?_, hstart, htake, rfl⟩, ?_⟩
    · rw [htext, List.append_assoc]
    · have hrest : text.toList = before ++ (gap ++ l.spelling) ++ rest' := by
        rw [htext, hsplit, List.append_assoc, List.append_assoc]
      exact ih hrest (by rw [hstart, ← List.append_assoc, Text.byteLength_append _ l.spelling])

/-- A scan to the end goes from piece to piece, and starts behind blanks. -/
theorem Scans.pieces (h : Scans position cs ts position' gap) (hgap : ∀ c ∈ gap, Text.isBlank c = true)
    (htext : text.toList = before ++ cs) (hposition : position = Text.byteLength before) :
    (ts ++ [(⟨.stop, position' + Text.byteLength gap⟩ : Spanned)]).IsChain (Piece text) ∧
      ∃ s rest blanks back, ts ++ [⟨.stop, position' + Text.byteLength gap⟩] = s :: rest ∧ cs = blanks ++ back ∧
        (∀ c ∈ blanks, Text.isBlank c = true) ∧ s.position = position + Text.byteLength blanks := by
  induction h generalizing before with
  | @done position cs =>
    exact ⟨List.isChain_singleton _, ⟨.stop, _⟩, [], cs, [], rfl, (List.append_nil cs).symm, hgap, rfl⟩
  | @token position position' blanks rest rest' gap c l ts hblanks hc htake _ ih =>
    obtain ⟨hsplit, hspelled⟩ := takeToken_spelled htake
    have hstart : position + Text.byteLength blanks = Text.byteLength (before ++ blanks) := by
      rw [hposition, Text.byteLength_append]
    have hbehind : position + Text.byteLength blanks + Text.byteLength l.spelling =
        Text.byteLength (before ++ (blanks ++ l.spelling)) := by
      rw [hstart, ← List.append_assoc, Text.byteLength_append _ l.spelling]
    have hrest : text.toList = before ++ (blanks ++ l.spelling) ++ rest' := by
      rw [htext, hsplit, List.append_assoc, List.append_assoc]
    obtain ⟨hchain, s, more, blanks', back, hnext, rfl, hblanks', hs⟩ := ih hgap hrest hbehind
    refine ⟨?_, _, _, blanks, c :: rest, rfl, rfl, hblanks, rfl⟩
    rw [List.cons_append, hnext, List.isChain_cons_cons, ← hnext]
    refine ⟨⟨before ++ blanks, l.spelling ++ blanks', back, ?_, hstart, ?_, ?_⟩, hchain⟩
    · rw [hrest]
      simp only [List.append_assoc]
    · rw [hs, hbehind, ← Text.byteLength_append]
      simp only [List.append_assoc]
    · rw [hspelled.rdropWhile hblanks']
      exact tokens_spelling htake hc

end

/-- The tokens of a text hold all of it: they stand one behind the other from character to character, to the end of the
    text; in front of the first one there are blanks only, and each of them is what stands there up to the next one. -/
structure Lossless (text : String) (ts : List Spanned) : Prop where
  increasing : (ts.map (·.position)).Pairwise (· < ·)
  boundaries : ∀ s ∈ ts, ∃ front back, text.toList = front ++ back ∧ s.position = Text.byteLength front
  stop : ∃ ss, ts = ss ++ [⟨.stop, Text.byteLength text.toList⟩] ∧ ∀ s ∈ ss, s.token ≠ .stop
  start : ∃ s rest gap back, ts = s :: rest ∧ text.toList = gap ++ back ∧ (∀ c ∈ gap, Text.isBlank c = true) ∧
    s.position = Text.byteLength gap
  pieces : ts.IsChain (Piece text)

/-- What stands in front of where an error points is cut into tokens, each of which the lexer takes from the text, and
    what stands behind it is refused at once. -/
def StopsAt (text : String) (e : SyntaxError) : Prop :=
  ∃ front c rest ss, text.toList = front ++ c :: rest ∧ e.position = Text.byteLength front ∧
    tokens (String.ofList front) = .ok (ss ++ [⟨.stop, e.position⟩]) ∧ (∀ s ∈ ss, TakenIn text s) ∧
    Text.isBlank c = false ∧ tokens (String.ofList (c :: rest)) = .error { e with position := 0 }

/-- A scan to the end of a text holds all of it. -/
theorem Scans.lossless {text : String} (h : Scans 0 text.toList ts position gap)
    (hgap : ∀ c ∈ gap, Text.isBlank c = true) :
    Lossless text (ts ++ [⟨.stop, position + Text.byteLength gap⟩]) := by
  have htext : text.toList = [] ++ text.toList := (List.nil_append _).symm
  have htaken := h.takenIn htext rfl
  have hlength := h.byteLength_eq
  rw [Nat.zero_add] at hlength
  obtain ⟨hchain, s, rest, blanks, back, hts, hback, hblanks, hs⟩ := h.pieces hgap htext rfl
  refine ⟨?_, fun s hs => ?_, ⟨ts, by rw [hlength], fun s hs => (htaken s hs).ne_stop⟩,
    ⟨s, rest, blanks, back, hts, hback, hblanks, hs.trans (Nat.zero_add _)⟩, hchain⟩
  · exact ((List.isChain_map (·.position)).mpr (hchain.imp fun _ _ hpiece => hpiece.lt)).pairwise
  · rcases List.mem_append.mp hs with hs | hs
    · obtain ⟨front, c, rest, _, _, hfront, hposition, -, -⟩ := htaken s hs
      exact ⟨front, c :: rest, hfront, hposition⟩
    · rw [List.mem_singleton.mp hs]
      exact ⟨text.toList, [], (List.append_nil _).symm, hlength⟩

/-- Where a scan of a text cannot go on, the lexer stops. -/
theorem Scans.stopsAt {text : String} (h : Scans 0 text.toList ts position (gap ++ c :: rest))
    (hgap : ∀ c ∈ gap, Text.isBlank c = true) (hc : Text.isBlank c = false)
    (herror : takeToken (position + Text.byteLength gap) c rest = .error e) : StopsAt text e := by
  obtain ⟨front, htext, hfront⟩ := h.within
  have hlength := hfront.byteLength_eq
  rw [Nat.zero_add] at hlength
  obtain ⟨hposition, hmoved⟩ := takeToken_error_moved herror 0
  refine ⟨front, c, rest, ts, htext, hposition.trans hlength, ?_, h.takenIn (List.nil_append _).symm rfl, hc, ?_⟩
  · rw [hposition, hlength]
    exact tokens_of_scans hfront hgap
  · have hneg : ¬Text.isBlank c = true := by
      rw [hc]
      exact Bool.false_ne_true
    have hzero : 0 + Text.byteLength [] = 0 := rfl
    unfold tokens
    rw [String.toList_ofList]
    simp only [tokensFrom, List.takeWhile_cons_of_neg hneg, List.dropWhile_cons_of_neg hneg, hzero, hmoved, Bind.bind,
      Except.bind]

/-- The lexer loses nothing: the tokens of a text hold all of it, and a text that cannot be cut can be up to the place
    of the error. -/
theorem tokens_lossless (text : String) :
    (∀ ts, tokens text = .ok ts → Lossless text ts) ∧ (∀ e, tokens text = .error e → StopsAt text e) := by
  obtain ⟨ss, position, gap, rest, hscans, hgap, ⟨rfl, htokens⟩ | ⟨c, back, e, rfl, hc, hrefused, herror⟩⟩ :=
    tokensFrom_scanned 0 (Nat.lt_succ_self text.toList.length)
  · rw [List.append_nil] at hscans
    refine ⟨fun ts h => ?_, fun e h => ?_⟩
    · cases h.symm.trans htokens
      exact hscans.lossless hgap
    · cases h.symm.trans htokens
  · refine ⟨fun ts h => ?_, fun e' h => ?_⟩
    · cases h.symm.trans herror
    · cases h.symm.trans herror
      exact hscans.stopsAt hgap hc hrefused

theorem tokens_lossless_ohm :
    tokens " Ω**2" = .ok [⟨.identifier "Ω", 1⟩, ⟨.caret, 3⟩, ⟨.number 2, 5⟩, ⟨.stop, 6⟩] ∧
      Lossless " Ω**2" [⟨.identifier "Ω", 1⟩, ⟨.caret, 3⟩, ⟨.number 2, 5⟩, ⟨.stop, 6⟩] ∧
      tokens "Ω $" = .error ⟨"unexpected character", "$", 3⟩ ∧ StopsAt "Ω $" ⟨"unexpected character", "$", 3⟩ := by
  have htokens : tokens " Ω**2" = .ok [⟨.identifier "Ω", 1⟩, ⟨.caret, 3⟩, ⟨.number 2, 5⟩, ⟨.stop, 6⟩] := by
    decide +kernel
  have herror : tokens "Ω $" = .error ⟨"unexpected character", "$", 3⟩ := by decide +kernel
  exact ⟨htokens, (tokens_lossless _).1 _ htokens, herror, (tokens_lossless _).2 _ herror⟩

end Concord.Lexer
