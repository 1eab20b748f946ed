import Concord.Proofs.Expr.Formed

/-! Cutting a text into tokens, told from its end: what is put in front of a text whose tokens are known adds its own
    tokens to them. -/

namespace Concord.Lexer

variable {cs rest : List Char} {tokens : List Token} {c : Char} {t : Token}

/-- The tokens of a text, wherever it stands. -/
def Lexed (cs : List Char) (tokens : List Token) : Prop :=
  ∀ position, ∃ ts : List Spanned, ts.map (·.token) = tokens ∧
    ∀ fuel, cs.length < fuel → tokensFrom fuel position cs = .ok ts

theorem lexed_nil : Lexed [] [.stop] := by
  intro position
  refine ⟨[⟨.stop, position⟩], rfl, fun fuel hfuel => ?_⟩
  cases fuel with
  | zero => cases hfuel
  | succ fuel => rfl

theorem Lexed.blank (h : Lexed rest tokens) : Lexed (' ' :: rest) tokens := by
  intro position
  obtain ⟨ts, hts, hlex⟩ := h (position + 1)
  refine ⟨ts, hts, fun fuel hfuel => ?_⟩
  cases fuel with
  | zero => cases hfuel
  | succ fuel =>
    rw [← hlex (fuel + 1) (Nat.lt_of_succ_lt hfuel)]
    have hblank : Text.isBlank ' ' = true := rfl
    have hlen : ∀ cs, position + Text.byteLength (' ' :: cs) = position + 1 + Text.byteLength cs := by
      intro cs
      rw [Text.byteLength, List.map_cons, List.sum_cons, ← Nat.add_assoc]
      rfl
    simp only [tokensFrom, List.takeWhile_cons_of_pos hblank, List.dropWhile_cons_of_pos hblank, hlen]

/-- A token is put in front. -/
theorem Lexed.cons {rest' : List Char} (h : Lexed rest' tokens) (hblank : Text.isBlank c = false)
    (htake : ∀ position, ∃ spelling, takeToken position c rest = .ok (⟨t, spelling⟩, rest'))
    (hle : rest'.length ≤ rest.length) : Lexed (c :: rest) (t :: tokens) := by
  intro position
  obtain ⟨spelling, hspelling⟩ := htake position
  obtain ⟨ts, hts, hlex⟩ := h (position + Text.byteLength spelling)
  refine ⟨⟨t, position⟩ :: ts, by rw [List.map_cons, hts], fun fuel hfuel => ?_⟩
  cases fuel with
  | zero => cases hfuel
  | succ fuel =>
    have hfuel' : rest'.length < fuel := Nat.lt_of_le_of_lt hle (Nat.lt_of_succ_lt_succ hfuel)
    have hstart : (c :: rest).takeWhile Text.isBlank = [] := List.takeWhile_cons_of_neg (by simp [hblank])
    have hdrop : (c :: rest).dropWhile Text.isBlank = c :: rest := List.dropWhile_cons_of_neg (by simp [hblank])
    have hzero : Text.byteLength [] = 0 := rfl
    simp only [tokensFrom, hstart, hdrop, hzero, Nat.add_zero, hspelling, Bind.bind, Except.bind,
      hlex fuel hfuel']

/-- The tokens of a whole text. -/
theorem Lexed.tokens_eq {s : String} (h : Lexed s.toList tokens) :
    ∃ ts : List Spanned, ts.map (·.token) = tokens ∧ Lexer.tokens s = .ok ts := by
  obtain ⟨ts, hts, hlex⟩ := h 0
  exact ⟨ts, hts, hlex _ (Nat.lt_succ_self _)⟩

/-! ### Symbols -/

/-- A symbol is no blank, and starts no number and no name. -/
theorem symbol_class (h : symbol c = some t) :
    Text.isBlank c = false ∧ inNumber c = false ∧ Text.startsName c = false := by
  unfold symbol at h
  split at h
  all_goals first | (cases h; done) | decide

theorem symbol_none (h : inNumber c = true ∨ Text.startsName c = true) : symbol c = none := by
  refine Option.eq_none_iff_forall_ne_some.mpr fun t ht => ?_
  obtain ⟨-, hnumber, hname⟩ := symbol_class ht
  simp [hnumber, hname] at h

theorem Lexed.symbol (h : Lexed rest tokens) (hc : symbol c = some t) : Lexed (c :: rest) (t :: tokens) := by
  refine h.cons (symbol_class hc).1 (fun position => ⟨[c], ?_⟩) (Nat.le_refl _)
  unfold takeToken
  rw [hc]

theorem Lexed.star (h : Lexed rest tokens) (hrest : rest.head? ≠ some '*') : Lexed ('*' :: rest) (.star :: tokens) := by
  refine h.cons (by decide) (fun position => ⟨['*'], ?_⟩) (Nat.le_refl _)
  unfold takeToken
  have hnone : Lexer.symbol '*' = none := rfl
  rw [hnone]
  split
  · rename_i hc
    cases hc
  · simp only [if_true]
    split
    · simp at hrest
    · rfl

/-! ### Texts -/

theorem escapeQuote_cases (c : Char) : c = '\\' ∧ Expr.escapeQuote c = ['\\', '\\'] ∨
    c = '\'' ∧ Expr.escapeQuote c = ['\\', '\''] ∨ c ≠ '\\' ∧ c ≠ '\'' ∧ Expr.escapeQuote c = [c] := by
  unfold Expr.escapeQuote
  split
  · rename_i hslash
    exact .inl ⟨hslash, rfl⟩
  · rename_i hslash
    split
    · rename_i hquote
      exact .inr (.inl ⟨hquote, rfl⟩)
    · rename_i hquote
      exact .inr (.inr ⟨hslash, hquote, rfl⟩)

theorem splitText_quote (quote : Char) : splitText quote (quote :: rest) = some ([], rest) := by
  rw [splitText.eq_def]
  simp

theorem splitText_plain {quote : Char} (hquote : c ≠ quote) (hslash : c ≠ '\\') :
    splitText quote (c :: rest) = (splitText quote rest).map fun p => (c :: p.1, p.2) := by
  rw [splitText.eq_def]
  simp [hquote, hslash]

theorem splitText_escaped : ∀ s : List Char,
    splitText '\'' (s.flatMap Expr.escapeQuote ++ '\'' :: rest) = some (s.flatMap Expr.escapeQuote, rest)
  | [] => splitText_quote _
  | c :: s => by
    have ih := splitText_escaped s
    rw [List.flatMap_cons, List.append_assoc]
    rcases escapeQuote_cases c with ⟨-, hc⟩ | ⟨-, hc⟩ | ⟨hslash, hquote, hc⟩ <;> rw [hc]
    · simp [splitText, ih]
    · simp [splitText, ih]
    · simp [splitText_plain hquote hslash, ih]

theorem unescape_plain (hslash : c ≠ '\\') : unescape (c :: cs) = c :: unescape cs := by
  rw [unescape]
  all_goals simp [hslash]

theorem unescape_escaped : ∀ s : List Char, unescape (s.flatMap Expr.escapeQuote) = s
  | [] => by simp [unescape]
  | c :: s => by
    have ih := unescape_escaped s
    rw [List.flatMap_cons]
    rcases escapeQuote_cases c with ⟨rfl, hc⟩ | ⟨rfl, hc⟩ | ⟨hslash, -, hc⟩ <;> rw [hc]
    · simp [unescape, ih]
    · simp [unescape, ih]
    · rw [List.singleton_append, unescape_plain hslash, ih]

theorem Lexed.text (h : Lexed rest tokens) (s : String) : Lexed ((Expr.quoted s).toList ++ rest) (.text s :: tokens) := by
  have hcs : (Expr.quoted s).toList ++ rest = '\'' :: (s.toList.flatMap Expr.escapeQuote ++ '\'' :: rest) := by
    unfold Expr.quoted
    simp
  rw [hcs]
  refine h.cons (by decide) (fun position => ⟨'\'' :: s.toList.flatMap Expr.escapeQuote ++ ['\''], ?_⟩) ?_
  · have hnone : Lexer.symbol '\'' = none := rfl
    unfold takeToken takeText
    rw [hnone]
    simp [splitText_escaped, unescape_escaped]
  · simp only [List.length_append, List.length_cons]
    omega

/-! ### Delimiters -/

/-- What may stand behind a number or a name. -/
def delimiters : List Char := [' ', ')', ',', '(', '=']

/-- A number or a name ends in front of the text. -/
def Delimited : List Char → Prop
  | [] => True
  | c :: _ => c ∈ delimiters

theorem delimited_cons (h : c ∈ delimiters) : Delimited (c :: rest) := h

theorem Delimited.takeWhile (h : Delimited rest) {p : Char → Bool} (hp : delimiters.all (fun c => !p c) = true)
    (hcs : ∀ c ∈ cs, p c = true) : (cs ++ rest).takeWhile p = cs ∧ (cs ++ rest).dropWhile p = rest := by
  rw [List.takeWhile_append_of_pos hcs, List.dropWhile_append_of_pos hcs]
  cases rest with
  | nil => exact ⟨List.append_nil cs, rfl⟩
  | cons c rest =>
    have hc : ¬p c = true := by simpa using List.all_eq_true.mp hp c h
    exact ⟨by rw [List.takeWhile_cons_of_neg hc, List.append_nil], List.dropWhile_cons_of_neg hc⟩

/-! ### Numbers -/

theorem inNumber_iff : inNumber c = true ↔ c.isDigit = true ∨ c = '.' := by
  unfold inNumber
  rw [Bool.or_eq_true, beq_iff_eq]

theorem isDigit_code (h : c.isDigit = true) : 48 ≤ c.toNat ∧ c.toNat ≤ 57 := by
  simp only [Char.isDigit, ge_iff_le, Bool.and_eq_true, decide_eq_true_eq, UInt32.le_iff_toNat_le] at h
  exact h

/-- A character of a number is nothing else. -/
theorem inNumber_class (h : inNumber c = true) : Text.isBlank c = false ∧ symbol c = none ∧ c ≠ '*' ∧ c ≠ '\'' ∧ c ≠ '"' := by
  have hcode : c.toNat = 46 ∨ 48 ≤ c.toNat ∧ c.toNat ≤ 57 := by
    rcases inNumber_iff.mp h with hd | rfl
    · exact .inr (isDigit_code hd)
    · exact .inl rfl
  have hne : ∀ d : Char, d.toNat ≠ 46 → (d.toNat < 48 ∨ 57 < d.toNat) → c ≠ d := by
    rintro d h₁ h₂ rfl
    omega
  refine ⟨?_, symbol_none (.inl h), hne _ (by decide) (by decide), hne _ (by decide) (by decide),
    hne _ (by decide) (by decide)⟩
  unfold Text.isBlank
  rw [if_pos (by omega), Bool.or_eq_false_iff, Bool.and_eq_false_iff]
  exact ⟨beq_eq_false_iff_ne.mpr (by omega), .inr (decide_eq_false (by omega))⟩

theorem spanExponent_delimited (h : Delimited rest) : spanExponent rest = ([], rest) := by
  cases rest with
  | nil => rfl
  | cons c rest =>
    have hne : delimiters.all (fun c => !decide (c = 'e' ∨ c = 'E')) = true := by decide
    rw [spanExponent.eq_def]
    exact if_neg (by simpa using List.all_eq_true.mp hne c h)

theorem Lexed.number (h : Lexed rest tokens) (hrest : Delimited rest) {x : Double} (hx : Decimal.Literal cs x) :
    Lexed (cs ++ rest) (.number x :: tokens) := by
  have hin : ∀ c ∈ cs, inNumber c = true := fun c hc => inNumber_iff.mpr (hx.places c hc)
  obtain ⟨htake, hdrop⟩ := hrest.takeWhile (p := inNumber) (by decide) hin
  have hspan : spanNumber (cs ++ rest) = (cs, rest) := by
    unfold spanNumber
    rw [hdrop, spanExponent_delimited hrest, htake]
    simp
  cases cs with
  | nil => exact absurd rfl hx.ne_nil
  | cons c cs =>
    obtain ⟨hblank, hsymbol, hstar, hquote, hquotes⟩ := inNumber_class (hin c List.mem_cons_self)
    refine h.cons hblank (fun position => ⟨c :: cs, ?_⟩) (by simp)
    unfold takeToken takeNumber
    rw [hsymbol]
    rw [List.cons_append] at hspan
    simp [hstar, hquote, hquotes, hin c List.mem_cons_self, hspan, hx.read]

/-! ### Names -/

/-- The codes of blanks and digits. -/
def otherCodes : List Nat :=
  [9, 10, 11, 12, 13, 32, 48, 49, 50, 51, 52, 53, 54, 55, 56, 57, 0x85, 0xa0, 0x1680, 0x2000, 0x2001, 0x2002, 0x2003,
    0x2004, 0x2005, 0x2006, 0x2007, 0x2008, 0x2009, 0x200a, 0x2028, 0x2029, 0x202f, 0x205f, 0x3000]

theorem isBlank_code (h : Text.isBlank c = true) : c.toNat ∈ otherCodes := by
  unfold Text.isBlank at h
  split at h
  · simp at h
    simp [otherCodes]
    omega
  · simp [Text.inRanges, Text.blankRanges] at h
    simp [otherCodes]
    omega

theorem startsName_code (h : c.toNat ∈ otherCodes) : Text.startsName c = false := by
  have hcodes : ∀ n ∈ otherCodes, Text.startsName (Char.ofNat n) = false := by decide +kernel
  have hc := hcodes _ h
  rwa [Char.ofNat_toNat] at hc

/-- A character that starts a name starts nothing else. -/
theorem startsName_class (h : Text.startsName c = true) : Text.isBlank c = false ∧ symbol c = none ∧ c ≠ '*' ∧
    c ≠ '\'' ∧ c ≠ '"' ∧ inNumber c = false := by
  have hne : ∀ d, Text.startsName d = false → c ≠ d := by
    rintro d hd rfl
    rw [h] at hd
    cases hd
  have hcode : c.toNat ∉ otherCodes := by
    intro hcode
    rw [startsName_code hcode] at h
    cases h
  refine ⟨?_, symbol_none (.inr h), hne _ (by decide), hne _ (by decide), hne _ (by decide), ?_⟩
  · exact Bool.eq_false_iff.mpr fun hblank => hcode (isBlank_code hblank)
  · refine Bool.eq_false_iff.mpr fun hnumber => ?_
    rcases inNumber_iff.mp hnumber with hdigit | rfl
    · obtain ⟨hlow, hhigh⟩ := isDigit_code hdigit
      refine hcode ?_
      simp only [otherCodes, List.mem_cons, List.not_mem_nil]
      omega
    · cases h

/-- A name is taken as a whole where it ends. -/
theorem takeToken_name (position : Nat) (hname : Definitions.isName (c :: cs) = true)
    (hrest : ∀ d, rest.head? = some d → Text.continuesName d = false) :
    takeToken position c (cs ++ rest) = .ok (⟨.identifier (String.ofList (c :: cs)), c :: cs⟩, rest) := by
  rw [Definitions.isName, Bool.and_eq_true, List.all_eq_true] at hname
  obtain ⟨hstart, hcontinue⟩ := hname
  obtain ⟨-, hsymbol, hstar, hquote, hquotes, hnumber⟩ := startsName_class hstart
  have hspan : rest.takeWhile Text.continuesName = [] ∧ rest.dropWhile Text.continuesName = rest := by
    cases rest with
    | nil => exact ⟨rfl, rfl⟩
    | cons d rest =>
      have hd : ¬Text.continuesName d = true := by
        rw [hrest d rfl]
        exact Bool.false_ne_true
      exact ⟨List.takeWhile_cons_of_neg hd, List.dropWhile_cons_of_neg hd⟩
  unfold takeToken takeName
  rw [hsymbol, List.takeWhile_append_of_pos hcontinue, List.dropWhile_append_of_pos hcontinue, hspan.1, hspan.2]
  simp [hstar, hquote, hquotes, hnumber, hstart]

theorem Lexed.name (h : Lexed rest tokens) (hrest : Delimited rest) {name : String} (hname : IsName name) :
    Lexed (name.toList ++ rest) (.identifier name :: tokens) := by
  unfold IsName at hname
  have hends : ∀ d, rest.head? = some d → Text.continuesName d = false := by
    intro d hd
    have hall : delimiters.all (fun c => !Text.continuesName c) = true := by decide
    cases rest with
    | nil => cases hd
    | cons c rest =>
      cases hd
      simpa using List.all_eq_true.mp hall d hrest
  cases hcs : name.toList with
  | nil =>
    rw [hcs] at hname
    cases hname
  | cons c cs =>
    rw [hcs] at hname
    have hblank := (startsName_class (Bool.and_eq_true_iff.mp hname).1).1
    refine h.cons hblank (fun position => ⟨c :: cs, ?_⟩) (by simp)
    refine (takeToken_name position hname hends).trans ?_
    rw [← hcs, String.ofList_toList]

end Concord.Lexer
