import Concord.Proofs.Graph.Lowering
import Concord.Proofs.Expr.Parts

/-! What binding a call does with its arguments: each is an array of the call or a literal, and no text is
    an array. -/

namespace Concord

/-- An argument of a call, in its place or under a keyword. -/
def Argument (args : List Expr) (kwargs : List (String × Expr)) (e : Expr) : Prop := e ∈ args ∨ ∃ p ∈ kwargs, p.2 = e

/-- A number or a text, which may be an option of a call. -/
inductive Expr.IsLiteral : Expr → Prop where
  | number (x : Double) : IsLiteral (.number x)
  | text (s : String) : IsLiteral (.text s)

theorem Argument.within {args : List Expr} {kwargs : List (String × Expr)} {a e : Expr} (ha : Argument args kwargs a)
    (h : e.Within a) (name : String) : e.Within (.call name args kwargs) := by
  rcases ha with ha | ⟨p, hp, rfl⟩
  · exact .argument ha h
  · exact .keyword hp h

theorem Argument.height_lt {args : List Expr} {kwargs : List (String × Expr)} {a : Expr} (ha : Argument args kwargs a)
    (name : String) : a.height < (Expr.call name args kwargs).height := by
  rcases ha with ha | ⟨p, hp, rfl⟩
  · exact Expr.height_argument ha
  · exact Expr.height_keyword hp

/-- A part of a call is the call or a part of one of its arguments. -/
theorem within_call_iff {name : String} {args : List Expr} {kwargs : List (String × Expr)} {e : Expr} :
    e.Within (.call name args kwargs) ↔ e = .call name args kwargs ∨ ∃ a, Argument args kwargs a ∧ e.Within a := by
  constructor
  · intro h
    cases h with
    | self => exact .inl rfl
    | argument ha h => exact .inr ⟨_, .inl ha, h⟩
    | keyword hp h => exact .inr ⟨_, .inr ⟨_, hp, rfl⟩, h⟩
  · rintro (rfl | ⟨a, ha, h⟩)
    · exact .self
    · exact ha.within h name

namespace Functions

variable {params : List Param} {args : List Expr} {kwargs : List (String × Expr)} {e : Expr}

/-! ### Places -/

theorem mem_place {slots slots' : List (Option Expr)} {arg : String × Expr} (h : place params slots arg = some slots') :
    some e ∈ slots' ↔ some e ∈ slots ∨ arg.2 = e := by
  obtain ⟨i, -, h⟩ := Option.bind_eq_some_iff.mp h
  split at h
  · rename_i hfree
    cases h
    obtain ⟨hi, hnone⟩ := List.getElem?_eq_some_iff.mp hfree
    constructor
    · intro hmem
      rcases List.mem_or_eq_of_mem_set hmem with hmem | heq
      · exact .inl hmem
      · exact .inr (Option.some.inj heq).symm
    · rintro (hmem | rfl)
      · obtain ⟨j, hj, hslot⟩ := List.mem_iff_getElem.mp hmem
        -- The place that is taken was free, so it is another one.
        have hne : i ≠ j := by
          rintro rfl
          rw [hnone] at hslot
          cases hslot
        exact List.mem_iff_getElem.mpr ⟨j, by rwa [List.length_set], by rwa [List.getElem_set_ne hne]⟩
      · exact List.mem_set hi _
  · cases h

theorem mem_foldlM_place : ∀ {kwargs : List (String × Expr)} {slots slots' : List (Option Expr)},
    kwargs.foldlM (place params) slots = some slots' →
      (some e ∈ slots' ↔ some e ∈ slots ∨ ∃ p ∈ kwargs, p.2 = e)
  | [], _, _, h => by
    cases h
    simp
  | arg :: kwargs, _, _, h => by
    rw [List.foldlM_cons] at h
    obtain ⟨mid, hmid, h⟩ := Option.bind_eq_some_iff.mp h
    rw [mem_foldlM_place h, mem_place hmid, or_assoc]
    simp

/-- The arguments of a call take the places of its parameters. -/
theorem mem_slots {sl : List (Option Expr)} (h : slots params args kwargs = some sl) :
    some e ∈ sl ↔ Argument args kwargs e := by
  unfold slots at h
  split at h
  · cases h
  · rw [mem_foldlM_place h, Argument]
    simp

/-! ### Arrays and options -/

/-- Arrays among the arguments are no texts, and the other arguments are literals. -/
structure Collected (given : List (Param × Option Expr)) (arrays : List Expr) : Prop where
  among : ∀ e ∈ arrays, ∃ p, (p, some e) ∈ given
  ne_text : ∀ s, Expr.text s ∉ arrays
  rest : ∀ p e, (p, some e) ∈ given → e ∈ arrays ∨ e.IsLiteral

theorem Collected.skip {given : List (Param × Option Expr)} {arrays : List Expr} {p : Param} (h : Collected given arrays) :
    Collected ((p, none) :: given) arrays where
  among e he := (h.among e he).imp fun _ hmem => List.mem_cons_of_mem _ hmem
  ne_text := h.ne_text
  rest q e hmem := by
    rcases List.mem_cons.mp hmem with heq | hmem
    · cases heq
    · exact h.rest q e hmem

theorem Collected.array {given : List (Param × Option Expr)} {arrays : List Expr} {p : Param} (h : Collected given arrays)
    (he : ∀ s, e ≠ .text s) : Collected ((p, some e) :: given) (e :: arrays) where
  among a ha := by
    rcases List.mem_cons.mp ha with rfl | ha
    · exact ⟨p, List.mem_cons_self⟩
    · exact (h.among a ha).imp fun _ hmem => List.mem_cons_of_mem _ hmem
  ne_text s hmem := (List.mem_cons.mp hmem).elim (fun heq => he s heq.symm) (h.ne_text s)
  rest q a hmem := by
    rcases List.mem_cons.mp hmem with heq | hmem
    · cases heq
      exact .inl List.mem_cons_self
    · exact (h.rest q a hmem).imp_left fun hmem => List.mem_cons_of_mem _ hmem

theorem Collected.option {given : List (Param × Option Expr)} {arrays : List Expr} {p : Param} (h : Collected given arrays)
    (he : e.IsLiteral) : Collected ((p, some e) :: given) arrays where
  among a ha := (h.among a ha).imp fun _ hmem => List.mem_cons_of_mem _ hmem
  ne_text := h.ne_text
  rest q a hmem := by
    rcases List.mem_cons.mp hmem with heq | hmem
    · cases heq
      exact .inr he
    · exact h.rest q a hmem

theorem collect_collected : ∀ {given : List (Param × Option Expr)} {c : List Expr × CallOptions},
    collect given = .ok c → Collected given c.1
  | [], c, h => by
    cases h
    exact ⟨by simp, by simp, by simp⟩
  | (p, none) :: given, c, h => by
    unfold collect at h
    split at h
    · cases h
    · exact (collect_collected h).skip
  | (p, some e) :: given, c, h => by
    unfold collect at h
    split at h
    · cases h
    · rename_i hnot
      obtain ⟨c', hc, rfl⟩ := map_eq_ok.mp h
      exact (collect_collected hc).array hnot
    · obtain ⟨c', hc, rfl⟩ := map_eq_ok.mp h
      exact (collect_collected hc).option (.text _)
    · obtain ⟨c', hc, rfl⟩ := map_eq_ok.mp h
      exact (collect_collected hc).option (.number _)
    · cases h

/-- The arrays of a bound call are arguments and no texts, and all other arguments are literals. -/
structure Binds (args : List Expr) (kwargs : List (String × Expr)) (arrays : List Expr) : Prop where
  argument : ∀ e ∈ arrays, Argument args kwargs e
  ne_text : ∀ s, Expr.text s ∉ arrays
  rest : ∀ e, Argument args kwargs e → e ∈ arrays ∨ e.IsLiteral

theorem bindOne_binds {f : FunctionSpec} {call : BoundCall} (h : bindOne f args kwargs = .ok call) :
    Binds args kwargs call.arrays := by
  unfold bindOne at h
  split at h
  · cases h
  · rename_i sl hsl
    obtain ⟨c, hc, rfl⟩ := map_eq_ok.mp h
    have hcollected := collect_collected hc
    refine ⟨fun e he => ?_, hcollected.ne_text, fun e he => ?_⟩
    · obtain ⟨p, hmem⟩ := hcollected.among e he
      exact (mem_slots hsl).mp (List.of_mem_zip hmem).2
    · obtain ⟨i, hi, hslot⟩ := List.mem_iff_getElem.mp ((mem_slots hsl).mpr he)
      have hp : i < f.params.length := length_slots hsl ▸ hi
      refine hcollected.rest f.params[i] e (List.mem_iff_getElem.mpr ⟨i, ?_, ?_⟩)
      · rw [List.length_zip]
        exact Nat.lt_min.mpr ⟨hp, hi⟩
      · rw [List.getElem_zip, hslot]

/-- So it is with a call that is bound to one of the functions of its name. -/
theorem bind_binds {functions : Functions} {name : String} {call : BoundCall}
    (h : functions.bind name args kwargs = .ok call) : Binds args kwargs call.arrays := by
  obtain ⟨f, -, hf⟩ := bindFirst_eq_ok h
  exact bindOne_binds hf

end Functions
end Concord
