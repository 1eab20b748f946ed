import Mathlib.Data.List.TakeWhile
import Concord.Text.Class

/-! Texts cut at separators, and trimmed. -/

namespace Concord.Text

variable {test : Char → Bool} {sep c : Char} {front middle back part : List Char}

/-! ### Cutting -/

theorem mem_pushFront {c : Char} {parts : List (List Char)} {part : List Char} (h : part ∈ pushFront c parts) :
    part ∈ parts ∨ ∃ rest, (rest = [] ∨ rest ∈ parts) ∧ part = c :: rest := by
  cases parts with
  | nil => exact .inr ⟨[], .inl rfl, List.mem_singleton.mp h⟩
  | cons first parts =>
    rcases List.mem_cons.mp h with rfl | h
    · exact .inr ⟨first, .inr List.mem_cons_self, rfl⟩
    · exact .inl (List.mem_cons_of_mem _ h)

theorem mem_split : ∀ {cs part : List Char}, part ∈ split test cs → ∀ c ∈ part, c ∈ cs ∧ test c = false
  | [], part, h, c, hc => by
    rw [split, List.mem_singleton] at h
    subst h
    cases hc
  | d :: cs, part, h, c, hc => by
    have hrest : ∀ part ∈ split test cs, c ∈ part → c ∈ d :: cs ∧ test c = false :=
      fun part h hc => (mem_split h c hc).imp_left (List.mem_cons_of_mem _)
    rw [split] at h
    split at h
    · rcases List.mem_cons.mp h with rfl | h
      · cases hc
      · exact hrest part h hc
    · rename_i hd
      rcases mem_pushFront h with hpart | ⟨rest, hparts, rfl⟩
      · exact hrest part hpart hc
      · rcases List.mem_cons.mp hc with rfl | hc
        · exact ⟨List.mem_cons_self, Bool.eq_false_iff.mpr hd⟩
        · rcases hparts with rfl | hparts
          · cases hc
          · exact hrest rest hparts hc

/-- The parts are one more than the separators. -/
theorem length_split (test : Char → Bool) : ∀ cs : List Char, (split test cs).length = cs.countP test + 1
  | [] => rfl
  | c :: cs => by
    have ih := length_split test cs
    rw [split, List.countP_cons]
    split
    · rw [List.length_cons, ih]
    · cases hsplit : split test cs with
      | nil => rw [hsplit] at ih; cases ih
      | cons part parts => rw [← ih, hsplit]; rfl

theorem split_of_none : ∀ {cs : List Char}, (∀ c ∈ cs, test c = false) → split test cs = [cs]
  | [], _ => rfl
  | c :: cs, h => by
    rw [split, h c List.mem_cons_self, split_of_none fun d hd => h d (List.mem_cons_of_mem _ hd)]
    rfl

theorem splitFirst_of_not_mem : ∀ {cs : List Char}, sep ∉ cs → splitFirst sep cs = none
  | [], _ => rfl
  | c :: cs, h => by
    rw [List.mem_cons, not_or] at h
    rw [splitFirst, if_neg (Ne.symm h.1), splitFirst_of_not_mem h.2]
    rfl

theorem splitFirst_eq_none : ∀ {cs : List Char}, splitFirst sep cs = none → sep ∉ cs
  | [], _ => List.not_mem_nil
  | c :: cs, h => by
    rw [splitFirst] at h
    split at h
    · cases h
    · rename_i hc
      rw [List.mem_cons, not_or]
      exact ⟨Ne.symm hc, splitFirst_eq_none (Option.map_eq_none_iff.mp h)⟩

theorem splitFirst_eq_some : ∀ {cs front back : List Char}, splitFirst sep cs = some (front, back) →
    cs = front ++ sep :: back ∧ sep ∉ front
  | [], _, _, h => by cases h
  | c :: cs, front, back, h => by
    rw [splitFirst] at h
    split at h
    · rename_i hc
      cases h
      exact ⟨hc ▸ rfl, List.not_mem_nil⟩
    · rename_i hc
      obtain ⟨⟨front', back'⟩, h', heq⟩ := Option.map_eq_some_iff.mp h
      cases heq
      obtain ⟨rfl, hnot⟩ := splitFirst_eq_some h'
      exact ⟨rfl, by rw [List.mem_cons, not_or]; exact ⟨Ne.symm hc, hnot⟩⟩

theorem splitFirst_append (h : sep ∉ front) : splitFirst sep (front ++ sep :: back) = some (front, back) := by
  induction front with
  | nil => exact if_pos rfl
  | cons c front ih =>
    rw [List.mem_cons, not_or] at h
    rw [List.cons_append, splitFirst, if_neg (Ne.symm h.1), ih h.2, Option.map_some]

theorem split_append (h : sep ∉ part) : split (· == sep) (part ++ sep :: back) = part :: split (· == sep) back := by
  induction part with
  | nil => rw [List.nil_append, split, if_pos (beq_self_eq_true sep)]
  | cons c part ih =>
    rw [List.mem_cons, not_or] at h
    rw [List.cons_append, split, if_neg (by simpa using Ne.symm h.1), ih h.2]
    rfl

/-- What has no separator in it lengthens the last part of what it stands behind. -/
theorem exists_split_append (h : ∀ c ∈ back, test c = false) (front : List Char) : ∃ parts last,
    split test front = parts ++ [last] ∧ split test (front ++ back) = parts ++ [last ++ back] := by
  induction front with
  | nil => exact ⟨[], [], rfl, split_of_none h⟩
  | cons c front ih =>
    obtain ⟨parts, last, hfront, hall⟩ := ih
    rw [List.cons_append, split, split, hfront, hall]
    split
    · exact ⟨[] :: parts, last, rfl, rfl⟩
    · cases parts with
      | nil => exact ⟨[], c :: last, rfl, rfl⟩
      | cons part parts => exact ⟨(c :: part) :: parts, last, rfl, rfl⟩

/-- Parts without a separator are what their text is split into. -/
theorem split_intercalate : ∀ (parts : List (List Char)), parts ≠ [] → (∀ part ∈ parts, sep ∉ part) →
    split (· == sep) ([sep].intercalate parts) = parts
  | [part], _, h => by
    rw [List.intercalate_singleton]
    exact split_of_none fun c hc => beq_eq_false_iff_ne.mpr fun heq => h part List.mem_cons_self (heq ▸ hc)
  | part :: next :: parts, _, h => by
    rw [List.intercalate_cons_cons, List.append_assoc, List.singleton_append, split_append (h part List.mem_cons_self),
      split_intercalate (next :: parts) (List.cons_ne_nil _ _) fun p hp => h p (List.mem_cons_of_mem _ hp)]

/-! ### Trimming -/

/-- Trimming leaves what has no blank at either end. -/
theorem trim_eq (front middle back : List Char) (hfront : ∀ c ∈ front, isBlank c = true) (hback : ∀ c ∈ back, isBlank c = true)
    (hfirst : ∀ c, middle.head? = some c → isBlank c = false) (hlast : ∀ c, middle.getLast? = some c → isBlank c = false) :
    trim (front ++ (middle ++ back)) = middle := by
  unfold trim
  rw [List.dropWhile_append_of_pos hfront]
  cases hmiddle : middle with
  | nil => rw [List.nil_append, List.dropWhile_eq_nil_iff.mpr hback]; rfl
  | cons c cs =>
    have hc : ¬isBlank c = true := by simp [hfirst c (by rw [hmiddle]; rfl)]
    rw [List.cons_append, List.dropWhile_cons_of_neg hc, ← List.cons_append, List.reverse_append,
      List.dropWhile_append_of_pos fun d hd => hback d (List.mem_reverse.mp hd)]
    cases hreverse : (c :: cs).reverse with
    | nil => simp at hreverse
    | cons d ds =>
      have hd : ¬isBlank d = true := by
        have hhead : (c :: cs).reverse.head? = some d := by rw [hreverse]; rfl
        rw [List.head?_reverse, ← hmiddle] at hhead
        simp [hlast d hhead]
      rw [List.dropWhile_cons_of_neg hd, ← hreverse, List.reverse_reverse]

/-- Trimming leaves what is not blank. -/
theorem trim_of_mem {cs : List Char} (hmem : c ∈ cs) (hc : isBlank c = false) : (trim cs).isEmpty = false := by
  have hdrop : c ∈ cs.dropWhile isBlank := by
    rw [← List.takeWhile_append_dropWhile (p := isBlank) (l := cs)] at hmem
    refine (List.mem_append.mp hmem).resolve_left fun hfront => ?_
    rw [List.mem_takeWhile_imp hfront] at hc
    cases hc
  rw [trim, List.isEmpty_reverse, List.isEmpty_eq_false_iff]
  intro hnil
  rw [List.dropWhile_eq_nil_iff.mp hnil c (List.mem_reverse.mpr hdrop)] at hc
  cases hc

end Concord.Text
