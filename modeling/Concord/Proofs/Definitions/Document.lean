import Concord.Proofs.Expr.Lexed
import Concord.Proofs.Expr.Lexemes
import Concord.Proofs.NameMap
import Concord.Proofs.Text.Parts

/-! Comments behind expressions. A line is scanned for a hash sign outside quotes, without cutting it into tokens; over
    any text that can be cut into tokens the scan comes out where it went in, outside, so it finds no comment within and
    the comment behind. -/

namespace Concord.Definitions

variable {s t u : Scan} {c quote : Char} {cs front back rest : List Char} {l : Lexer.Lexeme}

/-- Between two places of a reader a text is passed over: it holds no comment, whatever follows. -/
def Passes (s : Scan) (cs : List Char) (t : Scan) : Prop :=
  ∀ rest, withoutComment s (cs ++ rest) = cs ++ withoutComment t rest

theorem Passes.nil : Passes s [] s := fun _ => rfl

theorem Passes.cons (hc : s ≠ .outside ∨ c ≠ '#') (h : Passes (s.step c) cs t) : Passes s (c :: cs) t := by
  intro rest
  rw [List.cons_append, withoutComment, if_neg (by rwa [not_and_or]), h rest, List.cons_append]

theorem Passes.append (h : Passes s front t) (h' : Passes t back u) : Passes s (front ++ back) u := by
  intro rest
  rw [List.append_assoc, h, h', List.append_assoc]

/-- The characters that mean something to a reader outside quotes: they open a quote or start a comment. -/
def marks : List Char := ['#', '\'', '"']

theorem Passes.plain (h : ∀ c ∈ cs, c ∉ marks) : Passes .outside cs .outside := by
  induction cs with
  | nil => exact .nil
  | cons c cs ih =>
    obtain ⟨hc, hcs⟩ := List.forall_mem_cons.mp h
    simp only [marks, List.mem_cons, List.not_mem_nil, or_false, not_or] at hc
    refine .cons (.inr hc.1) ?_
    rw [Scan.step, if_neg (by rw [not_or]; exact hc.2)]
    exact ih hcs

/-- Inside quotes the scan goes as the lexer does. -/
theorem Passes.body (h : Lexer.Body quote cs) : Passes (.inside quote) cs (.inside quote) := by
  induction h with
  | nil => exact .nil
  | plain hquote hslash _ ih =>
    refine .cons (.inl nofun) ?_
    rw [Scan.step, if_neg hslash, if_neg hquote]
    exact ih
  | escape c _ ih => exact .cons (.inl nofun) (.cons (.inl nofun) ih)

theorem not_mem_marks {p : Char → Bool} (hp : marks.all (fun c => !p c) = true) (hc : p c = true) : c ∉ marks := by
  intro hmem
  have hnot := List.all_eq_true.mp hp c hmem
  rw [hc] at hnot
  cases hnot

theorem isName_cons {cs : List Char} (h : isName cs = true) :
    (∀ c ∈ cs, Text.continuesName c = true) ∧ cs ≠ [] := by
  cases cs with
  | nil => cases h
  | cons c cs =>
    rw [isName, Bool.and_eq_true, List.all_eq_true] at h
    exact ⟨List.forall_mem_cons.mpr ⟨Text.continuesName_of_startsName h.1, h.2⟩, List.cons_ne_nil _ _⟩

theorem Passes.spelled (h : Lexer.Spelled l rest) : Passes .outside l.spelling .outside := by
  cases h with
  | @symbol c t _ hc =>
    refine .plain fun d hd => ?_
    rw [List.mem_singleton.mp hd]
    exact not_mem_marks (p := fun c => (Lexer.symbol c).isSome) rfl (by rw [hc]; rfl)
  | star => exact .plain (by simp [marks])
  | caret => exact .plain (by simp [marks])
  | @text quote body _ hquote hbody =>
    have hslash : quote ≠ '\\' := by
      rcases hquote with rfl | rfl <;> decide
    have hopen : Scan.outside.step quote = .inside quote := if_pos hquote
    have hclose : (Scan.inside quote).step quote = .outside := by rw [Scan.step, if_neg hslash, if_pos rfl]
    have hhash : quote ≠ '#' := by
      rcases hquote with rfl | rfl <;> decide
    refine .cons (.inr hhash) ?_
    rw [hopen]
    refine (Passes.body hbody).append (.cons (.inl nofun) ?_)
    rw [hclose]
    exact .nil
  | number _ _ hliteral => exact .plain fun d hd => not_mem_marks (p := Lexer.inLiteral) rfl (hliteral d hd)
  | name hname =>
    have hcontinues : marks.all (fun c => !Text.continuesName c) = true := by decide
    exact .plain fun d hd => not_mem_marks hcontinues ((isName_cons hname).1 d hd)

theorem Passes.blanks (h : ∀ c ∈ cs, Text.isBlank c = true) : Passes .outside cs .outside :=
  .plain fun c hc => not_mem_marks (p := Text.isBlank) rfl (h c hc)

theorem Passes.cut {position : Nat} {ts : List Spanned} (h : Lexer.Cut position cs ts) :
    Passes .outside cs .outside := by
  induction h with
  | stop hgap => exact .blanks hgap
  | token hgap hspelled _ ih => exact (Passes.blanks hgap).append ((Passes.spelled hspelled).append ih)

/-- No comment is found within a text that can be cut into tokens, and all behind it is looked at from outside. -/
theorem Passes.tokens {text : String} {ts : List Spanned} (h : Lexer.tokens text = .ok ts) :
    Passes .outside text.toList .outside :=
  .cut (Lexer.tokensFrom_cut (Nat.lt_succ_self _) h)

theorem withoutComment_hash (cs : List Char) : withoutComment .outside ('#' :: cs) = [] := if_pos ⟨rfl, rfl⟩

end Concord.Definitions

/-! Texts of definitions. A map from names to texts of expressions, written one definition a line, in any order, with
    comments behind the lines and other lines between them, is read back. -/

namespace Concord

namespace Text

variable {c : Char}

/-- No name holds a blank. -/
theorem not_continuesName_of_isBlank (h : isBlank c = true) : continuesName c = false := by
  have hcodes : ∀ n ∈ Lexer.otherCodes, isBlank (Char.ofNat n) = true → continuesName (Char.ofNat n) = false := by
    decide +kernel
  have hc := hcodes _ (Lexer.isBlank_code h)
  rw [Char.ofNat_toNat] at hc
  exact hc h

theorem isBlank_of_continuesName (h : continuesName c = true) : isBlank c = false := by
  refine Bool.eq_false_iff.mpr fun hblank => ?_
  rw [not_continuesName_of_isBlank hblank] at h
  cases h

end Text

namespace Definitions

variable {definitions : Definitions} {name text : String} {p : Progress} {n : Nat}

/-! ### Writing -/

/-- The text of an expression that has a line for itself: it can be cut into tokens, no line ends in it, and it has no
    blank at either end. -/
structure OneLine (text : String) : Prop where
  tokens : ∃ ts, Lexer.tokens text = .ok ts
  unbroken : '\n' ∉ text.toList
  first : ∀ c, text.toList.head? = some c → Text.isBlank c = false
  last : ∀ c, text.toList.getLast? = some c → Text.isBlank c = false

theorem oneLine_iff : OneLine text ↔ (Lexer.tokens text).toBool = true ∧ '\n' ∉ text.toList ∧
    text.toList.head?.all (fun c => !Text.isBlank c) = true ∧ text.toList.getLast?.all (fun c => !Text.isBlank c) = true := by
  have hok : (∃ ts, Lexer.tokens text = .ok ts) ↔ (Lexer.tokens text).toBool = true := by
    cases Lexer.tokens text <;> simp [Except.toBool]
  simp only [Option.all_eq_true, Bool.not_eq_true']
  exact ⟨fun h => ⟨hok.mp h.tokens, h.unbroken, h.first, h.last⟩, fun h => ⟨hok.mpr h.1, h.2.1, h.2.2.1, h.2.2.2⟩⟩

instance (text : String) : Decidable (OneLine text) := decidable_of_iff _ oneLine_iff.symm

/-- What may stand behind all else on a line: blanks, and a comment. -/
structure Margin where
  blanks : List Char
  comment : Option (List Char)

def Margin.write (m : Margin) : List Char :=
  m.blanks ++ match m.comment with
    | some comment => '#' :: comment
    | none => []

/-- No line ends in the margin of a line. -/
structure Margin.OnLine (m : Margin) : Prop where
  blanks : ∀ c ∈ m.blanks, Text.isBlank c = true
  unbroken : '\n' ∉ m.write

instance (m : Margin) : Decidable m.OnLine :=
  decidable_of_iff (m.blanks.all Text.isBlank = true ∧ '\n' ∉ m.write)
    ⟨fun h => ⟨List.all_eq_true.mp h.1, h.2⟩, fun h => ⟨List.all_eq_true.mpr h.blanks, h.unbroken⟩⟩

/-- A line: a definition or none, and a margin. -/
structure Line where
  definition : Option (String × String)
  margin : Margin

/-- What a line says in front of its margin. -/
def Line.content (l : Line) : List Char :=
  match l.definition with
  | some (name, text) => name.toList ++ [' ', '=', ' '] ++ text.toList
  | none => []

def Line.write (l : Line) : List Char := l.content ++ l.margin.write

/-- A line that can be written: its name can be defined, and it stays one line. -/
structure Line.Valid (l : Line) : Prop where
  margin : l.margin.OnLine
  name : ∀ d, l.definition = some d → IsName d.1
  text : ∀ d, l.definition = some d → OneLine d.2

/-- The definitions of some lines, from the first on. -/
def written (lines : List Line) : List (String × String) := lines.filterMap Line.definition

/-- A text of some lines. -/
def write (lines : List Line) : String := String.ofList (['\n'].intercalate (lines.map Line.write))

/-! ### Lines -/

theorem withoutComment_margin (m : Margin) (h : m.OnLine) : withoutComment .outside m.write = m.blanks := by
  unfold Margin.write
  rw [Passes.blanks h.blanks]
  cases m.comment with
  | none => rw [withoutComment, List.append_nil]
  | some comment => rw [withoutComment_hash, List.append_nil]

/-- A definition is looked at from outside quotes up to its end. -/
theorem passes_definition (hname : IsName name) (htext : OneLine text) :
    Passes .outside (name.toList ++ [' ', '=', ' '] ++ text.toList) .outside := by
  have hmarks : marks.all (fun c => !Text.continuesName c) = true := by decide
  obtain ⟨ts, hts⟩ := htext.tokens
  refine .append (.append (.plain fun c hc => ?_) (.plain (by simp [marks]))) (.tokens hts)
  exact not_mem_marks hmarks ((isName_cons hname).1 c hc)

/-- The comment is cut off a line, and nothing else. -/
theorem withoutComment_write {l : Line} (h : l.Valid) :
    withoutComment .outside l.write = l.content ++ l.margin.blanks := by
  have hpasses : Passes .outside l.content .outside := by
    unfold Line.content
    cases hl : l.definition with
    | none => exact .nil
    | some d => exact passes_definition (h.name d hl) (h.text d hl)
  unfold Line.write
  rw [hpasses, withoutComment_margin l.margin h.margin]

theorem readLine_none {l : Line} (h : l.Valid) (hnone : l.definition = none) : readLine n l.write = .ok none := by
  have hcontent : l.content = [] := by
    unfold Line.content
    rw [hnone]
  have htrim : Text.trim (withoutComment .outside l.write) = [] := by
    rw [withoutComment_write h, hcontent, List.nil_append]
    exact Text.trim_eq [] [] l.margin.blanks (by simp) h.margin.blanks (by simp) (by simp)
  unfold readLine
  dsimp only
  rw [htrim]
  rfl

/-- The name and the text of a definition are found on both sides of its first equals sign. -/
theorem readLine_content {cs : List Char} (rest : List Char) (hname : IsName name)
    (htrim : Text.trim (withoutComment .outside cs) = name.toList ++ ' ' :: '=' :: rest)
    (hrest : Text.trim rest = text.toList) : readLine n cs = .ok (some (name, text)) := by
  obtain ⟨hcontinues, hne⟩ := isName_cons hname
  have hblank : ∀ c ∈ name.toList, Text.isBlank c = false := fun c hc => Text.isBlank_of_continuesName (hcontinues c hc)
  have hequals : '=' ∉ name.toList ++ [' '] := by
    intro hmem
    rcases List.mem_append.mp hmem with hmem | hmem
    · have hfalse : Text.continuesName '=' = false := by decide
      rw [hcontinues _ hmem] at hfalse
      cases hfalse
    · simp at hmem
  have hsplit : Text.splitFirst '=' (name.toList ++ ' ' :: '=' :: rest) = some (name.toList ++ [' '], rest) := by
    rw [← Text.splitFirst_append hequals, List.append_assoc, List.singleton_append]
  have hleft : Text.trim (name.toList ++ [' ']) = name.toList :=
    Text.trim_eq [] name.toList [' '] (by simp) (by simp; rfl) (fun c hc => hblank c (List.mem_of_head? hc))
      fun c hc => hblank c (List.mem_of_getLast? hc)
  have hnonempty : (name.toList ++ ' ' :: '=' :: rest).isEmpty = false := by simp
  unfold readLine
  dsimp only
  rw [htrim, hnonempty, if_neg Bool.false_ne_true, hsplit]
  dsimp only
  rw [hleft, hrest, if_pos (show isName name.toList = true from hname), String.ofList_toList, String.ofList_toList]

theorem readLine_some {l : Line} (h : l.Valid) (hl : l.definition = some (name, text)) :
    readLine n l.write = .ok (some (name, text)) := by
  have hname : IsName name := h.name _ hl
  have htext : OneLine text := h.text _ hl
  have hwritten : withoutComment .outside l.write = name.toList ++ [' ', '=', ' '] ++ text.toList ++ l.margin.blanks := by
    rw [withoutComment_write h, Line.content, hl]
  have hfirst : ∀ back c, (name.toList ++ back).head? = some c → Text.isBlank c = false := by
    intro back c hc
    obtain ⟨hcontinues, hne⟩ := isName_cons hname
    rw [List.head?_append_of_ne_nil _ hne] at hc
    exact Text.isBlank_of_continuesName (hcontinues c (List.mem_of_head? hc))
  -- Without a text the blank behind the equals sign goes with the margin.
  cases htoList : text.toList with
  | nil =>
    refine readLine_content [] hname ?_ (by rw [htoList]; rfl)
    rw [hwritten, htoList]
    have hsplit : name.toList ++ [' ', '=', ' '] ++ [] ++ l.margin.blanks =
        [] ++ (name.toList ++ [' ', '='] ++ (' ' :: l.margin.blanks)) := by simp
    rw [hsplit]
    refine Text.trim_eq _ _ _ (by simp) (List.forall_mem_cons.mpr ⟨rfl, h.margin.blanks⟩) (hfirst _) fun c hc => ?_
    rw [List.getLast?_append_of_ne_nil _ (by simp)] at hc
    cases hc
    rfl
  | cons c cs =>
    have hne : text.toList ≠ [] := by rw [htoList]; exact List.cons_ne_nil _ _
    have htrim : Text.trim (' ' :: text.toList) = text.toList := by
      have hsplit : ' ' :: text.toList = [' '] ++ (text.toList ++ []) := by simp
      rw [hsplit]
      exact Text.trim_eq _ _ _ (by simp; rfl) (by simp) htext.first htext.last
    refine readLine_content (' ' :: text.toList) hname ?_ htrim
    rw [hwritten]
    have hsplit : name.toList ++ [' ', '=', ' '] ++ text.toList ++ l.margin.blanks =
        [] ++ (name.toList ++ ' ' :: '=' :: ' ' :: text.toList ++ l.margin.blanks) := by simp
    rw [hsplit]
    refine Text.trim_eq _ _ _ (by simp) h.margin.blanks (hfirst _) fun d hd => ?_
    have hlast : (name.toList ++ ' ' :: '=' :: ' ' :: text.toList).getLast? = text.toList.getLast? := by
      have hgroup : name.toList ++ ' ' :: '=' :: ' ' :: text.toList = name.toList ++ [' ', '=', ' '] ++ text.toList := by
        simp
      rw [hgroup, List.getLast?_append_of_ne_nil _ hne]
    rw [hlast] at hd
    exact htext.last d hd

/-! ### Texts -/

/-- Names that are not defined yet are defined line by line, if no two of them are the same. -/
theorem readLines_write : ∀ {lines : List Line} {p : Progress} {n : Nat}, (∀ l ∈ lines, l.Valid) →
    ((written lines).map (·.1)).Nodup → (∀ d ∈ written lines, p.lines.get? d.1 = none) →
    readLines p n (lines.map Line.write) =
      .ok ((written lines).foldl (fun m d => m.insert d.1 d.2) p.definitions)
  | [], _, _, _, _, _ => rfl
  | l :: lines, p, n, hvalid, hnodup, hnew => by
    obtain ⟨hl, hlines⟩ := List.forall_mem_cons.mp hvalid
    rw [List.map_cons, readLines]
    cases hdefinition : l.definition with
    | none =>
      have hwritten : written (l :: lines) = written lines := List.filterMap_cons_none hdefinition
      rw [hwritten] at hnodup hnew ⊢
      rw [readLine_none hl hdefinition]
      exact readLines_write hlines hnodup hnew
    | some d =>
      obtain ⟨name, text⟩ := d
      have hwritten : written (l :: lines) = (name, text) :: written lines := List.filterMap_cons_some hdefinition
      rw [hwritten] at hnodup hnew ⊢
      obtain ⟨hname, hnew⟩ := List.forall_mem_cons.mp hnew
      rw [List.map_cons, List.nodup_cons] at hnodup
      have hlater : ∀ d ∈ written lines, (p.lines.insert name n).get? d.1 = none := by
        intro d hd
        have hne : d.1 ≠ name := fun heq => hnodup.1 (List.mem_map.mpr ⟨d, hd, heq⟩)
        rw [NameMap.get?_insert, if_neg hne]
        exact hnew d hd
      simp only [readLine_some hl hdefinition, Bind.bind, Except.bind, hname]
      exact readLines_write hlines hnodup.2 hlater

theorem Line.Valid.unbroken {l : Line} (h : l.Valid) : '\n' ∉ l.write := by
  have hcontinues : Text.continuesName '\n' = false := Text.not_continuesName_of_isBlank rfl
  unfold Line.write Line.content
  rw [List.mem_append, not_or]
  refine ⟨?_, h.margin.unbroken⟩
  cases hl : l.definition with
  | none => exact List.not_mem_nil
  | some d =>
    simp only [List.mem_append, not_or]
    refine ⟨⟨fun hmem => ?_, by decide⟩, (h.text d hl).unbroken⟩
    rw [(isName_cons (h.name d hl)).1 _ hmem] at hcontinues
    cases hcontinues

/-- A text of lines is split into them; one without lines has an empty one. -/
theorem readText_lines {lines : List Line} (h : ∀ l ∈ lines, l.Valid) :
    readText (write lines) = readLines ⟨.empty, .empty⟩ 1 (lines.map Line.write) := by
  unfold readText write
  rw [String.toList_ofList]
  cases lines with
  | nil => rfl
  | cons l lines =>
    rw [Text.split_intercalate ((l :: lines).map Line.write) (List.cons_ne_nil _ _)]
    intro part hpart
    obtain ⟨l', hl', rfl⟩ := List.mem_map.mp hpart
    exact (h l' hl').unbroken

/-- Definitions written one a line are read back, in whatever order they stand and whatever stands behind and between
    them; and of each line just the comment is cut off. -/
theorem readText_write (definitions : Definitions) (lines : List Line)
    (hentries : ∀ d ∈ definitions.entries, IsName d.1 ∧ OneLine d.2) (hmargins : ∀ l ∈ lines, l.margin.OnLine)
    (hwritten : (written lines).Perm definitions.entries) :
    readText (write lines) = .ok definitions ∧
      ∀ l ∈ lines, withoutComment .outside l.write = l.content ++ l.margin.blanks := by
  have hvalid : ∀ l ∈ lines, l.Valid := by
    intro l hl
    have hentry : ∀ d, l.definition = some d → d ∈ definitions.entries := fun d hd =>
      hwritten.mem_iff.mp (List.mem_filterMap.mpr ⟨l, hl, hd⟩)
    exact ⟨hmargins l hl, fun d hd => (hentries d (hentry d hd)).1, fun d hd => (hentries d (hentry d hd)).2⟩
  have hnodup : ((written lines).map (·.1)).Nodup := (hwritten.map _).nodup_iff.mpr definitions.nodup_keys
  refine ⟨?_, fun l hl => withoutComment_write (hvalid l hl)⟩
  rw [readText_lines hvalid, readLines_write hvalid hnodup fun _ _ => rfl]
  exact congrArg Except.ok (NameMap.ofList_perm hwritten)

/-- Definitions with hash and equals signs in either kind of quotes, and with escaped quotes. -/
def quoting : Definitions where
  entries := [("area", "pick('# =', \"it's #\", '\\' # =', \"\\\\\")"), ("none", ""), ("rate", "area = '\"' ('\"#')")]
  sorted := by decide +kernel

/-- These definitions, out of order, with comments that hold quotes, and with lines without a definition. -/
def quotingLines : List Line :=
  [⟨none, ⟨[], some " outputs".toList⟩⟩,
    ⟨some ("rate", "area = '\"' ('\"#')"), ⟨[' '], some " = per 'day".toList⟩⟩,
    ⟨none, ⟨[' ', '\t'], none⟩⟩,
    ⟨some ("area", "pick('# =', \"it's #\", '\\' # =', \"\\\\\")"), ⟨[' '], some " it's # \"".toList⟩⟩,
    ⟨some ("none", ""), ⟨[], none⟩⟩]

theorem readText_write_quoting :
    ((∀ d ∈ quoting.entries, IsName d.1 ∧ OneLine d.2) ∧ (∀ l ∈ quotingLines, l.margin.OnLine) ∧
      (written quotingLines).Perm quoting.entries) ∧
    readText (write quotingLines) = .ok quoting ∧
      ∀ l ∈ quotingLines, withoutComment .outside l.write = l.content ++ l.margin.blanks := by
  have hentries : ∀ d ∈ quoting.entries, IsName d.1 ∧ OneLine d.2 := by
    unfold IsName
    decide +kernel
  have hmargins : ∀ l ∈ quotingLines, l.margin.OnLine := by decide +kernel
  have hwritten : (written quotingLines).Perm quoting.entries := by decide +kernel
  exact ⟨⟨hentries, hmargins, hwritten⟩, readText_write quoting quotingLines hentries hmargins hwritten⟩

end Definitions
end Concord
