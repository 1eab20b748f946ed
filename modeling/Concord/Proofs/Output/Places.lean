import Concord.Output.JsonLines
import Concord.Proofs.Text.Parts

/-! Where the files of outputs lie. The paths of an output are one text with two endings, so they lead to one
    directory, and to different names in it; and the final files of two outputs are the same exactly if their partial
    files are. -/

namespace Concord

variable {fs : FileSystem} {dir name text suffix : String} {base place : Path} {steps : List String}

/-! ### Places of routes -/

namespace FileSystem

/-- The place that steps lead to from a directory, if they can be taken. -/
def goTo (base : Path) (steps : List String) : Path := steps.foldl step base

/-- The place that a path leads to, if it can be followed. -/
def placeOf (here : Path) (text : String) : Path :=
  goTo (if (Route.ofText text).absolute then [] else here) (Route.ofText text).steps

/-- A step is taken to a directory, and the others from there. -/
theorem follow_cons {rest : List String} : fs.follow base (name :: rest) = .ok place ↔
    checkLength name = .ok () ∧ fs.entry? (step base name) = some .directory ∧
      fs.follow (step base name) rest = .ok place := by
  rw [follow]
  cases checkLength name with
  | error e => exact ⟨fun h => (by cases h), fun h => (by cases h.1)⟩
  | ok =>
    rcases fs.entry? (step base name) with _ | _ | number
    · exact ⟨fun h => (by cases h), fun h => (by cases h.2.1)⟩
    · exact ⟨fun h => ⟨rfl, rfl, h⟩, fun h => h.2.2⟩
    · exact ⟨fun h => (by cases h), fun h => (by cases h.2.1)⟩

theorem follow_eq_ok : ∀ {steps : List String} {base : Path}, fs.follow base steps = .ok place →
    place = goTo base steps
  | [], base, h => by cases h; rfl
  | name :: rest, base, h => by
    obtain ⟨-, -, hrest⟩ := follow_cons.mp h
    have hplace := follow_eq_ok hrest
    exact hplace

theorem locate_place {r : Route} {s : Spot} (h : fs.locate r = .ok s) :
    s.place = goTo (if r.absolute then [] else fs.here) r.steps := by
  unfold locate at h
  cases hfollow : fs.follow (if r.absolute then [] else fs.here) r.steps.dropLast with
  | error e =>
    rw [hfollow] at h
    cases h
  | ok parent =>
    rw [hfollow] at h
    cases h
    have hparent := follow_eq_ok hfollow
    unfold Spot.place
    dsimp only
    cases hlast : r.steps.getLast? with
    | none =>
      rw [List.getLast?_eq_none_iff.mp hlast] at hparent ⊢
      exact hparent
    | some name =>
      obtain ⟨init, hinit⟩ := List.getLast?_eq_some_iff.mp hlast
      rw [hinit, List.dropLast_concat] at hparent
      rw [hinit, hparent, goTo, goTo, List.foldl_append]
      rfl

end FileSystem

/-! ### Endings -/

/-- A text that may end the name of a file: it stays in one name, and this is not that of a directory. -/
structure Ending (suffix : String) : Prop where
  plain : '/' ∉ suffix.toList
  long : 2 < suffix.toList.length

theorem startsWith_append (h : Ending suffix) : (text ++ suffix).startsWith "/" = text.startsWith "/" := by
  rw [Bool.eq_iff_iff, String.startsWith_string_iff, String.startsWith_string_iff, String.toList_append]
  cases htext : text.toList with
  | nil =>
    cases hsuffix : suffix.toList with
    | nil => rfl
    | cons c cs =>
      have hc : '/' ≠ c := fun heq => h.plain (hsuffix ▸ heq ▸ List.mem_cons_self)
      simp [hc]
  | cons c cs => simp

/-- Behind a name in a directory the ending stands at the end of the path. -/
theorem Route.join_append (h : Ending suffix) : Route.join dir (name ++ suffix) = Route.join dir name ++ suffix := by
  unfold Route.join
  rw [startsWith_append h]
  split
  · rfl
  · split <;> rw [← String.append_assoc]

/-- All endings of a path lead to the same directory, and to names with one beginning. -/
theorem exists_place (here : Path) (text : String) : ∃ parent base, ∀ suffix, Ending suffix →
    FileSystem.placeOf here (text ++ suffix) = parent ++ [base ++ suffix] := by
  have hsplit : ∀ suffix, Ending suffix → ∃ parts last,
      Text.split (· == '/') text.toList = parts ++ [last] ∧
        Text.split (· == '/') (text ++ suffix).toList = parts ++ [last ++ suffix.toList] := by
    intro suffix h
    rw [String.toList_append]
    exact Text.exists_split_append (fun c hc => beq_eq_false_iff_ne.mpr fun heq : c = '/' => h.plain (heq ▸ hc)) _
  have hshort : Ending ".jsonl" := ⟨by decide, by decide⟩
  obtain ⟨parts, last, htext, -⟩ := hsplit ".jsonl" hshort
  refine ⟨FileSystem.goTo (if text.startsWith "/" then [] else here) ((parts.map String.ofList).filter (· ≠ "")),
    String.ofList last, fun suffix h => ?_⟩
  obtain ⟨parts', last', htext', hall⟩ := hsplit suffix h
  obtain ⟨rfl, hlast⟩ := List.append_inj' (htext'.symm.trans htext) rfl
  cases hlast
  have hname : String.ofList (last ++ suffix.toList) = String.ofList last ++ suffix := by
    rw [String.ofList_append, String.ofList_toList]
  have hlong : 2 < (String.ofList last ++ suffix).toList.length := by
    rw [String.toList_append, List.length_append]
    exact Nat.lt_of_lt_of_le h.long (Nat.le_add_left ..)
  have hne : ∀ short : String, short.toList.length ≤ 2 → String.ofList last ++ suffix ≠ short :=
    fun short hs heq => absurd hlong (Nat.not_lt.mpr (heq ▸ hs))
  unfold FileSystem.placeOf Route.ofText
  dsimp only
  rw [startsWith_append h, hall, List.map_append, List.filter_append, List.map_singleton, hname, FileSystem.goTo,
    List.foldl_append]
  have hkept : [String.ofList last ++ suffix].filter (· ≠ "") = [String.ofList last ++ suffix] := by
    simpa using hne "" (by decide)
  rw [hkept]
  change FileSystem.step _ _ = _
  rw [FileSystem.step, if_neg (hne "." (by decide)), if_neg (hne ".." (by decide))]
  rfl

/-! ### Files of outputs -/

namespace JsonLines

variable {s : JsonLines} {other : String}

/-- Where the file of a complete output lies. -/
def finalPlace (s : JsonLines) (name : String) : Path :=
  FileSystem.placeOf s.files.here (finalPath s.directory name)

/-- Where the file of an output lies that is not complete. -/
def partialPlace (s : JsonLines) (name : String) : Path :=
  FileSystem.placeOf s.files.here (partialPath s.directory name)

theorem ending_final : Ending ".jsonl" := ⟨by decide, by decide⟩

theorem ending_partial : Ending ".jsonl.partial" := ⟨by decide, by decide⟩

/-- The two files of an output lie side by side. -/
theorem exists_places (s : JsonLines) (name : String) : ∃ parent base,
    s.finalPlace name = parent ++ [base ++ ".jsonl"] ∧ s.partialPlace name = parent ++ [base ++ ".jsonl.partial"] := by
  obtain ⟨parent, base, h⟩ := exists_place s.files.here (Route.join s.directory name)
  refine ⟨parent, base, ?_, ?_⟩
  · rw [finalPlace, finalPath, Route.join_append ending_final, h _ ending_final]
  · rw [partialPlace, partialPath, Route.join_append ending_partial, h _ ending_partial]

/-- No file of an output that is not complete lies where one of a complete output does. -/
theorem partialPlace_ne_finalPlace (s : JsonLines) (name other : String) :
    s.partialPlace name ≠ s.finalPlace other := by
  obtain ⟨parent, base, -, hpartial⟩ := s.exists_places name
  obtain ⟨parent', base', hfinal, -⟩ := s.exists_places other
  rw [hpartial, hfinal]
  intro heq
  have hlast := List.singleton_inj.mp (List.append_inj' heq rfl).2
  have hchars := congrArg String.toList hlast
  rw [String.toList_append, String.toList_append,
    show ".jsonl.partial".toList = ".jsonl.p".toList ++ "artial".toList from rfl, ← List.append_assoc] at hchars
  exact absurd (List.append_inj' hchars rfl).2 (by decide)

/-- The files of two outputs lie apart, complete or not. -/
theorem partialPlace_inj : s.partialPlace name = s.partialPlace other ↔ s.finalPlace name = s.finalPlace other := by
  obtain ⟨parent, base, hfinal, hpartial⟩ := s.exists_places name
  obtain ⟨parent', base', hfinal', hpartial'⟩ := s.exists_places other
  rw [hfinal, hpartial, hfinal', hpartial']
  have hcancel : ∀ suffix : String, parent ++ [base ++ suffix] = parent' ++ [base' ++ suffix] ↔
      parent = parent' ∧ base = base' := by
    intro suffix
    constructor
    · intro heq
      obtain ⟨hparent, hlast⟩ := List.append_inj' heq rfl
      have hchars := congrArg String.toList (List.singleton_inj.mp hlast)
      rw [String.toList_append, String.toList_append] at hchars
      exact ⟨hparent, String.toList_inj.mp (List.append_cancel_right hchars)⟩
    · rintro ⟨rfl, rfl⟩
      rfl
  rw [hcancel, hcancel]

/-- Names without a slash have files of their own. -/
theorem eq_of_finalPlace_eq (hname : '/' ∉ name.toList) (hother : '/' ∉ other.toList)
    (h : s.finalPlace name = s.finalPlace other) : name = other := by
  have hending : ∀ name : String, '/' ∉ name.toList → Ending (name ++ ".jsonl") := by
    intro name hname
    refine ⟨?_, ?_⟩
    · rw [String.toList_append, List.mem_append, not_or]
      exact ⟨hname, ending_final.plain⟩
    · rw [String.toList_append, List.length_append]
      exact Nat.lt_of_lt_of_le ending_final.long (Nat.le_add_left ..)
  have hpath : ∀ name : String, '/' ∉ name.toList → finalPath s.directory name =
      (if s.directory.endsWith "/" then s.directory else s.directory ++ "/") ++ (name ++ ".jsonl") := by
    intro name hname
    have hstart : (name ++ ".jsonl").startsWith "/" = false := by
      rw [← Bool.not_eq_true, String.startsWith_string_iff]
      exact fun hsub => (hending name hname).plain (hsub.subset (List.mem_singleton_self _))
    unfold finalPath Route.join
    rw [hstart, if_neg Bool.false_ne_true]
    split <;> rfl
  obtain ⟨parent, base, hplace⟩ := exists_place s.files.here
    (if s.directory.endsWith "/" then s.directory else s.directory ++ "/")
  rw [finalPlace, finalPlace, hpath name hname, hpath other hother, hplace _ (hending name hname),
    hplace _ (hending other hother)] at h
  have hchars := congrArg String.toList (List.singleton_inj.mp (List.append_cancel_left h))
  simp only [String.toList_append, List.append_cancel_left_eq, List.append_cancel_right_eq] at hchars
  exact String.toList_inj.mp hchars

end JsonLines
end Concord
