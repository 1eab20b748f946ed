import Concord.Proofs.Expr.Lossless
import Concord.Proofs.Expr.Reparsed

/-! Names of definitions and names in expressions. Two readers look at them: the one of the text format takes a line up
    to its first equals sign, and the lexer takes characters for as long as they continue a name, behind blanks,
    symbols, quotes and numbers. No character that starts a name starts anything else, so the two agree. -/

namespace Concord.Lexer

variable {s text : String} {before after : List Char} {p n : Nat} {ts : List Spanned}

/-! ### Names in expressions -/

theorem Spelled.identifier {l : Lexeme} {rest : List Char} (h : Spelled l rest) (hl : l.token = .identifier s) :
    IsName s ∧ l.spelling = s.toList := by
  cases h with
  | @symbol c t _ hc =>
    unfold Lexer.symbol at hc
    split at hc <;> cases hc <;> cases hl
  | name hname =>
    cases hl
    unfold IsName
    rw [String.toList_ofList]
    exact ⟨hname, rfl⟩
  | _ => cases hl

/-- A name stands where its token says, as it is. -/
theorem TakenIn.identifier (h : TakenIn text ⟨.identifier s, p⟩) :
    IsName s ∧ ∃ front back, text.toList = front ++ (s.toList ++ back) ∧ p = Text.byteLength front := by
  obtain ⟨front, c, rest, l, rest', htext, hposition, htake, htoken⟩ := h
  obtain ⟨hsplit, hspelled⟩ := takeToken_spelled htake
  obtain ⟨hname, hspelling⟩ := hspelled.identifier htoken.symm
  exact ⟨hname, front, rest', by rw [htext, hsplit, hspelling], hposition⟩

theorem takenIn_of_tokens (h : tokens text = .ok ts) {t : Spanned} (ht : t ∈ ts) (hstop : t.token ≠ .stop) :
    TakenIn text t := by
  obtain ⟨ss, position, gap, rest, hscans, -, ⟨-, htokens⟩ | ⟨_, _, _, -, -, -, herror⟩⟩ :=
    tokensFrom_scanned 0 (Nat.lt_succ_self text.toList.length)
  · cases h.symm.trans htokens
    rcases List.mem_append.mp ht with ht | ht
    · exact hscans.takenIn (List.nil_append _).symm rfl t ht
    · rw [List.mem_singleton.mp ht] at hstop
      exact absurd rfl hstop
  · cases h.symm.trans herror

/-- A name with blanks around it is one token. -/
theorem tokens_of_name (hname : IsName s) (hbefore : ∀ c ∈ before, Text.isBlank c = true)
    (hafter : ∀ c ∈ after, Text.isBlank c = true) (htext : text.toList = before ++ (s.toList ++ after)) :
    tokens text = .ok [⟨.identifier s, Text.byteLength before⟩, ⟨.stop, Text.byteLength text.toList⟩] := by
  unfold IsName at hname
  cases hs : s.toList with
  | nil =>
    rw [hs] at hname
    cases hname
  | cons c cs =>
    rw [hs] at hname htext
    have hc := (startsName_class (Bool.and_eq_true_iff.mp hname).1).1
    have hends : ∀ d, after.head? = some d → Text.continuesName d = false := fun d hd =>
      Text.not_continuesName_of_isBlank (hafter d (List.mem_of_head? hd))
    have hscans := Scans.token hbefore hc (takeToken_name (0 + Text.byteLength before) hname hends) .done
    have htokens := tokens_of_scans hscans hafter
    rwa [← List.cons_append, ← htext, String.ofList_toList, Nat.zero_add, ← hs, String.ofList_toList] at htokens

/-- A text that is one name for the lexer is this name, with blanks around it. -/
theorem name_of_tokens (h : tokens text = .ok [⟨.identifier s, p⟩, ⟨.stop, n⟩]) :
    IsName s ∧ ∃ before after, (∀ c ∈ before, Text.isBlank c = true) ∧ (∀ c ∈ after, Text.isBlank c = true) ∧
      text.toList = before ++ (s.toList ++ after) ∧ p = Text.byteLength before ∧ n = Text.byteLength text.toList := by
  have hcut := tokensFrom_cut (Nat.lt_succ_self text.toList.length) h
  generalize text.toList = cs at hcut ⊢
  generalize hts : [(⟨.identifier s, p⟩ : Spanned), ⟨.stop, n⟩] = ts at hcut
  cases hcut with
  | stop => cases hts
  | @token _ before after l _ hbefore hspelled hrest =>
    obtain ⟨hfirst, rfl⟩ := List.cons.inj hts
    obtain ⟨htoken, hposition⟩ := Spanned.mk.inj hfirst
    obtain ⟨hname, hspelling⟩ := hspelled.identifier htoken.symm
    rw [Nat.zero_add] at hposition hrest
    generalize hlast : [(⟨.stop, n⟩ : Spanned)] = last at hrest
    cases hrest with
    | stop hafter =>
      cases hlast
      refine ⟨hname, before, after, hbefore, hafter, by rw [hspelling], hposition, ?_⟩
      rw [Text.byteLength_append, Text.byteLength_append, Nat.add_assoc]
    | token _ hspelled' _ =>
      obtain ⟨hstop, -⟩ := Spanned.mk.inj (List.cons.inj hlast).1
      exact absurd hstop.symm hspelled'.ne_stop

end Concord.Lexer

namespace Concord.Definitions

variable {s name text : String} {cs : List Char} {n : Nat}

/-! ### Names of definitions -/

theorem readLine_name (h : readLine n cs = .ok (some (name, text))) : IsName name := by
  unfold readLine at h
  dsimp only at h
  split at h
  · cases h
  · split at h
    · cases h
    · split at h
      · rename_i hname
        cases h
        unfold IsName
        rwa [String.toList_ofList]
      · cases h

/-- Lines add names only. -/
theorem readLines_names : ∀ {lines : List (List Char)} {p : Progress} {n : Nat} {d : Definitions},
    (∀ name, p.definitions.contains name = true → IsName name) → readLines p n lines = .ok d →
      ∀ name, d.contains name = true → IsName name
  | [], _, _, _, hp, h => by
    cases h
    exact hp
  | cs :: lines, p, n, d, hp, h => by
    rw [readLines] at h
    obtain ⟨line, hline, h⟩ := bind_eq_ok.mp h
    cases line with
    | none => exact readLines_names hp h
    | some definition =>
      obtain ⟨name, text⟩ := definition
      dsimp only at h
      split at h
      · cases h
      · refine readLines_names (fun key hkey => ?_) h
        rcases NameMap.contains_insert.mp hkey with rfl | hkey
        · exact readLine_name hline
        · exact hp key hkey

/-- The names that can be defined are those that the text format defines somewhere. -/
theorem isName_iff_defined : IsName s ↔ ∃ text d, readText text = .ok d ∧ d.contains s = true := by
  constructor
  · intro hname
    let line : Line := ⟨some (s, "1"), ⟨[], none⟩⟩
    have hvalid : ∀ l ∈ [line], l.Valid := by
      have hmargin : (⟨[], none⟩ : Margin).OnLine := by decide
      have htext : OneLine "1" := by decide +kernel
      refine List.forall_mem_singleton.mpr ⟨hmargin, fun d hd => ?_, fun d hd => ?_⟩ <;> cases hd
      · exact hname
      · exact htext
    have hread := readText_lines hvalid
    rw [readLines_write hvalid (List.nodup_singleton s) fun _ _ => rfl] at hread
    exact ⟨_, _, hread, NameMap.contains_insert.mpr (.inl rfl)⟩
  · rintro ⟨text, d, hread, hd⟩
    exact readLines_names (fun _ hnone => by cases hnone) hread s hd

/-! ### The same names -/

theorem parseTokens_identifier (hname : IsName s) (p n : Nat) :
    Parser.parseTokens [⟨.identifier s, p⟩, ⟨.stop, n⟩] = .ok (.operand s) := by
  have hspell : (Expr.operand s).spell = [.identifier s] := by rw [Expr.spell]
  have hdepth : (Expr.operand s).depth = 1 := by rw [Expr.depth]
  have hread (last : Nat) : Parser.Yields (0 + (Expr.operand s).depth) (.operand s) [⟨.stop, n⟩]
      (Parser.additive last 24 0 ([⟨.identifier s, p⟩] ++ [⟨.stop, n⟩])) :=
    (Parser.reparses_operand hname).additive hspell.symm (by simp) (Nat.zero_le _)
      (Parser.ends_of_token (.inr (.inr rfl))) (List.cons_ne_nil _ _)
  have hfirst : Parser.peek [⟨.identifier s, p⟩, ⟨.stop, n⟩] ≠ .stop := fun h => by cases h
  exact (Parser.parseTokens_yields hfirst rfl hread).1 (by rw [hdepth]; decide)

theorem parse_of_name (hname : IsName s) : Parser.parse s = .ok (.operand s) := by
  have htext : s.toList = [] ++ (s.toList ++ []) := by simp
  have htokens := Lexer.tokens_of_name hname (List.forall_mem_nil _) (List.forall_mem_nil _) htext
  unfold Parser.parse
  rw [htokens]
  exact parseTokens_identifier hname _ _

/-- A name is the same to those who define it and to those who use it: it is a single token from the start of the text
    to its end, some text defines it, and it is the operand of its name. A text that is a single token of the name is
    the name with blanks around it, and wherever else an expression has a token of the name, it stands there as it
    is. -/
structure Shared (s : String) : Prop where
  token : isName s.toList = true ↔
    Lexer.tokens s = .ok [⟨.identifier s, 0⟩, ⟨.stop, Text.byteLength s.toList⟩]
  defined : isName s.toList = true ↔ ∃ text d, readText text = .ok d ∧ d.contains s = true
  operand : isName s.toList = true ↔ Parser.parse s = .ok (.operand s)
  alone : ∀ text p n, Lexer.tokens text = .ok [⟨.identifier s, p⟩, ⟨.stop, n⟩] →
    ∃ before after, (∀ c ∈ before, Text.isBlank c = true) ∧ (∀ c ∈ after, Text.isBlank c = true) ∧
      text.toList = before ++ (s.toList ++ after) ∧ p = Text.byteLength before
  within : ∀ text ts p, Lexer.tokens text = .ok ts → ⟨.identifier s, p⟩ ∈ ts → isName s.toList = true ∧
    ∃ front back, text.toList = front ++ (s.toList ++ back) ∧ p = Text.byteLength front

/-- Every text is a name in definitions if and only if it is one in expressions. -/
theorem names_shared (s : String) : Shared s := by
  have htext : s.toList = [] ++ (s.toList ++ []) := by simp
  refine ⟨⟨fun hname => ?_, fun htokens => ?_⟩, isName_iff_defined, ⟨parse_of_name, fun hparse => ?_⟩,
    fun text p n htokens => ?_, fun text ts p htokens hmem => ?_⟩
  · exact Lexer.tokens_of_name hname (List.forall_mem_nil _) (List.forall_mem_nil _) htext
  · exact (Lexer.name_of_tokens htokens).1
  · cases Parser.parse_formed hparse with
    | operand hname => exact hname
  · obtain ⟨-, before, after, hbefore, hafter, htext, hposition, -⟩ := Lexer.name_of_tokens htokens
    exact ⟨before, after, hbefore, hafter, htext, hposition⟩
  · exact (Lexer.takenIn_of_tokens htokens hmem nofun).identifier

end Concord.Definitions
