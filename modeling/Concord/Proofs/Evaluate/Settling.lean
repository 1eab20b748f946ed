import Concord.Proofs.Evaluate.Traces
import Concord.Proofs.Evaluate.Values

/-! Settling gives a node its value, and settles what the node depends on. Reductions along the dimension
    that is cut have to be settled before; levels tell which those are. -/

namespace Concord.Engine

open Traced

variable {e : Engine} {level : Nat} {settled settled' : List (Option (Grid Double))} {id : Nat} {g : Grid Double}

/-- Levels follow the graph. A reduction along the dimension that is cut has one parent, which is
    streamed, and comes one level later; none comes later than the root. -/
structure Ordered (e : Engine) : Prop where
  below : e.store.ParentsBelow
  inside : ∀ i, e.plan.accumulates i = true → i < e.store.count
  level : ∀ i, e.plan.accumulates i = false → ∀ p ∈ e.store.parents i, (e.plan.role p).level ≤ (e.plan.role i).level
  fed : ∀ i, e.plan.accumulates i = true →
    ∃ p, e.store.parents i = [p] ∧ e.plan.streamed p = true ∧ (e.plan.role i).level = (e.plan.role p).level + 1
  root : e.plan.root < e.store.count
  last : ∀ i, e.plan.accumulates i = true → (e.plan.role i).level ≤ (e.plan.role e.plan.root).level
  passes : e.plan.passes = (e.plan.role e.plan.root).level + if e.plan.rootStreamed then 1 else 0
  chunks : 0 < e.plan.chunks.length

/-- What is settled is right, and all reductions up to a level are settled. -/
structure Knows (e : Engine) (level : Nat) (settled : List (Option (Grid Double))) : Prop where
  length : settled.length = e.store.count
  sound : ∀ i g, settled.getD i none = some g → e.value i none = some g
  ready : ∀ i, e.plan.accumulates i = true → (e.plan.role i).level ≤ level → (settled.getD i none).isSome = true

/-- What is settled stays settled. -/
def Extends (settled settled' : List (Option (Grid Double))) : Prop :=
  ∀ i g, settled.getD i none = some g → settled'.getD i none = some g

theorem Extends.refl (settled : List (Option (Grid Double))) : Extends settled settled := fun _ _ h => h

theorem Extends.trans {s t u : List (Option (Grid Double))} (h : Extends s t) (h' : Extends t u) : Extends s u :=
  fun i g hi => h' i g (h i g hi)

theorem Extends.isSome (h : Extends settled settled') (hs : (settled.getD id none).isSome = true) :
    (settled'.getD id none).isSome = true := by
  obtain ⟨g, hg⟩ := Option.isSome_iff_exists.mp hs
  rw [h id g hg]
  rfl

/-! ### New values -/

theorem getD_set {α : Type} {l : List α} {a d : α} (h : id < l.length) (i : Nat) :
    (l.set id a).getD i d = if i = id then a else l.getD i d := by
  rw [List.getD_eq_getElem?_getD, List.getD_eq_getElem?_getD, List.getElem?_set]
  by_cases hi : id = i
  · subst hi
    rw [if_pos rfl, if_pos rfl, if_pos h]
    rfl
  · rw [if_neg hi, if_neg (Ne.symm hi)]

theorem extends_set (h : id < settled.length) (hg : ∀ g', settled.getD id none = some g' → g' = g) :
    Extends settled (settled.set id (some g)) := by
  intro i g' hi
  rw [getD_set h]
  split
  · rename_i heq
    subst heq
    rw [hg g' hi]
  · exact hi

/-- A value that is the right one can be noted. -/
theorem Knows.set (h : e.Knows level settled) (hid : id < e.store.count) (hg : e.value id none = some g) :
    e.Knows level (settled.set id (some g)) ∧ Extends settled (settled.set id (some g)) := by
  have hlt : id < settled.length := h.length.symm ▸ hid
  have hext : Extends settled (settled.set id (some g)) :=
    extends_set hlt fun g' hg' => Option.some.inj ((h.sound id g' hg').symm.trans hg)
  refine ⟨⟨by rw [List.length_set, h.length], fun i g' hi => ?_, fun i ha hl => hext.isSome (h.ready i ha hl)⟩, hext⟩
  rw [getD_set hlt] at hi
  split at hi
  · rename_i heq
    subst heq
    rw [← hi, hg]
  · exact h.sound i g' hi

/-! ### Settling -/

theorem keyFor_none (p : Nat) : e.keyFor none p = none := by
  unfold keyFor
  split <;> rfl

theorem readInput_quiet (e : Engine) (id : Nat) (name : String) (chunk : Option Nat) :
    (e.readInput id name chunk).emitted = [] := by
  have hlayout : (Traced.ofExcept (e.layout id)).Meets (fun _ => True) True :=
    meets_ofExcept (fun _ _ => trivial) fun _ _ => trivial
  have hbounds : ∀ dims, (Traced.ofExcept (e.boundsFor id name dims chunk)).Meets (fun _ => True) True :=
    fun _ => meets_ofExcept (fun _ _ => trivial) fun _ _ => trivial
  have hfetch : ∀ bounds, (Traced.fetch e.source name bounds).Meets (fun _ => True) True := fun _ =>
    meets_iff.mpr ⟨rfl, fun _ _ => trivial, fun _ _ => trivial⟩
  refine (hlayout.bind (R := fun _ => True) fun a _ => (hbounds a.dims).bind fun bounds _ =>
    (hfetch bounds).mapError.bind fun value _ => ?_).quiet
  split
  · exact meets_fail trivial
  · exact meets_pure trivial

theorem evaluate_quiet (e : Engine) (id : Nat) (inputs : List (Grid Double)) (chunk : Option Nat) :
    (e.evaluate id inputs chunk).emitted = [] := by
  unfold evaluate
  split
  · rfl
  · exact readInput_quiet ..
  all_goals rfl

theorem settledInputs_toOption (h : e.Knows level settled)
    (hp : ∀ p ∈ e.store.parents id, (settled.getD p none).isSome = true) :
    (settledInputs settled (e.store.parents id)).toOption = e.inputs id none := by
  refine toOption_mapM fun p hmem => ?_
  obtain ⟨g, hg⟩ := Option.isSome_iff_exists.mp (hp p hmem)
  rw [hg, keyFor_none, h.sound p g hg]
  rfl

/-- Nodes are settled one after the other. -/
theorem foldlM_settle_meets {fuel : Nat} {ids : List Nat} {B : Prop} (hk : e.Knows level settled)
    (hsettle : ∀ p ∈ ids, ∀ {s : List (Option (Grid Double))}, e.Knows level s → (e.settle fuel p s).Meets
      (fun s' => e.Knows level s' ∧ Extends s s' ∧ (s'.getD p none).isSome = true) B) :
    (ids.foldlM (fun s p => e.settle fuel p s) settled).Meets
      (fun s => e.Knows level s ∧ Extends settled s ∧ ∀ p ∈ ids, (s.getD p none).isSome = true) B := by
  refine meets_foldlM (P := fun done s => e.Knows level s ∧ Extends settled s ∧
    ∀ p ∈ done, (s.getD p none).isSome = true) _ ?_ (List.nil_append _).symm
    ⟨hk, .refl _, fun _ h => absurd h List.not_mem_nil⟩
  rintro done p rest s hall ⟨hs, hext, hdone⟩
  have hp : p ∈ ids := hall ▸ List.mem_append_right _ List.mem_cons_self
  refine (hsettle p hp hs).imp ?_ fun h => h
  rintro s' ⟨hs', hext', hsome⟩
  refine ⟨hs', hext.trans hext', fun q hq => ?_⟩
  rcases List.mem_append.mp hq with hq | hq
  · exact hext'.isSome (hdone q hq)
  · rw [List.mem_singleton.mp hq]
    exact hsome

theorem settle_meets (ho : e.Ordered) : ∀ (fuel id : Nat) {settled : List (Option (Grid Double))},
    e.Knows level settled → id < fuel → id < e.store.count → (e.plan.role id).level ≤ level →
    (e.settle fuel id settled).Meets
      (fun s => e.Knows level s ∧ Extends settled s ∧ (s.getD id none).isSome = true) (e.value id none = none)
  | 0, _, _, _, h, _, _ => absurd h (Nat.not_lt_zero _)
  | fuel + 1, id, settled, hk, hf, hid, hl => by
    unfold settle
    split
    · rename_i hsome
      exact meets_pure ⟨hk, .refl _, hsome⟩
    split
    · rename_i hnone ha
      exact absurd (hk.ready id ha hl) hnone
    · rename_i hnone ha
      rw [Bool.not_eq_true] at ha
      have hvalue := value_whole ho.below ha
      have hparents : ((e.store.parents id).foldlM (fun s p => e.settle fuel p s) settled).Meets
          (fun s => e.Knows level s ∧ Extends settled s ∧ ∀ p ∈ e.store.parents id, (s.getD p none).isSome = true)
          (e.inputs id none = none) := by
        refine foldlM_settle_meets hk fun p hp s hs => ?_
        have hlt := ho.below id p hp
        refine (settle_meets ho fuel p hs (by omega) (Nat.lt_trans hlt hid)
          (Nat.le_trans (ho.level id ha p hp) hl)).imp (fun _ h => h) fun hnone => ?_
        exact inputs_eq_none hp (by rw [keyFor_none]; exact hnone)
      refine (hparents.imp (fun _ h => h) fun h => ?_).bind ?_
      · rw [hvalue, h, Option.bind_none]
      rintro s ⟨hs, hext, hall⟩
      have hin := settledInputs_toOption hs hall
      refine Meets.bind (Q := fun gs => e.inputs id none = some gs) (meets_ofExcept (fun gs hgs => ?_) fun f hf => ?_)
        fun gs hgs => ?_
      · rw [← hin, hgs]
        rfl
      · rw [hvalue, ← hin, hf]
        rfl
      · rw [hgs, Option.bind_some] at hvalue
        rw [hvalue]
        refine (meets_of_quiet (evaluate_quiet e id gs none)).bind fun g hg => ?_
        obtain ⟨hs', hext'⟩ := hs.set hid (hvalue.trans hg)
        refine meets_pure ⟨hs', hext.trans hext', ?_⟩
        rw [getD_set (hs.length.symm ▸ hid), if_pos rfl]
        rfl

/-- Settling the parents of a node for a chunk. -/
theorem settleAll_meets (ho : e.Ordered) (hk : e.Knows level settled) {key : Option Nat} (hid : id < e.store.count)
    (hp : ∀ p ∈ e.store.parents id, (e.plan.role p).level ≤ level) :
    (e.settleAll (e.store.parents id) settled).Meets
      (fun s => e.Knows level s ∧ Extends settled s ∧
        ∀ p ∈ e.store.parents id, e.plan.streamed p = false → (s.getD p none).isSome = true)
      (e.inputs id key = none) := by
  unfold settleAll
  have hmeets : (((e.store.parents id).filter fun p => !e.plan.streamed p).foldlM
      (fun s p => e.settle (e.store.count + 1) p s) settled).Meets
      (fun s => e.Knows level s ∧ Extends settled s ∧
        ∀ p ∈ (e.store.parents id).filter fun p => !e.plan.streamed p, (s.getD p none).isSome = true)
      (e.inputs id key = none) := by
    refine foldlM_settle_meets hk fun p hmem s hs => ?_
    obtain ⟨hmem, hstreamed⟩ := List.mem_filter.mp hmem
    have hlt := Nat.lt_trans (ho.below id p hmem) hid
    refine (settle_meets ho _ p hs (Nat.lt_succ_of_lt hlt) hlt (hp p hmem)).imp (fun _ h => h) fun hnone => ?_
    refine inputs_eq_none hmem ?_
    unfold keyFor
    rw [Bool.not_eq_true'] at hstreamed
    rw [hstreamed, if_neg Bool.false_ne_true]
    exact hnone
  refine hmeets.imp (fun s hs => ⟨hs.1, hs.2.1, fun p hp hstreamed => hs.2.2 p ?_⟩) fun h => h
  exact List.mem_filter.mpr ⟨hp, by rw [hstreamed]; rfl⟩

end Concord.Engine
