import Concord.Proofs.Evaluate.Whole
import Concord.Scalar

/-! Graphs of arithmetic, evaluated at one place in any numbers. In numbers of 64 bits this is what evaluation as a
    whole has at the place. -/

namespace Concord

namespace NodeStore

variable {α : Type} {s t : NodeStore} {node : NodeKind → List α → Option α} {id : Nat}

/-- The value of a node at one place; none if it or a node that it depends on has none. -/
def pointAt (s : NodeStore) (node : NodeKind → List α → Option α) (id : Nat) : Option α :=
  s.valueAt (fun id inputs => (inputs.mapM fun v => v).bind fun xs => (s.kind? id).bind fun k => node k xs) id

theorem pointAt_eq (hb : s.ParentsBelow) (id : Nat) :
    s.pointAt node id = ((s.parents id).mapM (s.pointAt node)).bind fun xs => (s.kind? id).bind fun k => node k xs := by
  have hmap : ∀ l : List Nat, (l.map (s.pointAt node)).mapM (fun v => v) = l.mapM (s.pointAt node) := by
    intro l
    rw [List.mapM_map]
    rfl
  rw [← hmap]
  exact valueAt_eq hb id

/-- Values do not depend on the numbers of the nodes. -/
theorem pointAt_renumber {ρ : Nat → Nat} {P : Nat → Prop} (hs : s.ParentsBelow) (ht : t.ParentsBelow)
    (hparents : ∀ id, P id → (∀ p ∈ s.parents id, P p) ∧ t.parents (ρ id) = (s.parents id).map ρ)
    (hkind : ∀ id, P id → t.kind? (ρ id) = s.kind? id) :
    ∀ id, P id → t.pointAt node (ρ id) = s.pointAt node id := by
  intro id
  induction id using Nat.strongRecOn with
  | ind id ih =>
    intro hid
    obtain ⟨hclosed, hmap⟩ := hparents id hid
    have hvalues : ((s.parents id).map ρ).mapM (t.pointAt node) = (s.parents id).mapM (s.pointAt node) := by
      rw [List.mapM_map]
      exact mapM_congr fun p hp => ih p (hs id p hp) (hclosed p hp)
    rw [pointAt_eq hs, pointAt_eq ht, hmap, hkind id hid, hvalues]

theorem kind_eq_keys (s : NodeStore) (i : Nat) : s.kind? i = (s.keys[i]?).map (·.1) := by
  rw [kind?, node?, keys, List.getElem?_map, Option.map_map]
  rfl

theorem parents_eq_keys (s : NodeStore) (i : Nat) : s.parents i = ((s.keys[i]?).map (·.2)).getD [] := by
  rw [NodeStore.parents, node?, keys, List.getElem?_map, Option.map_map]
  rfl

/-- More nodes behind a graph do not change the values of its nodes. -/
theorem pointAt_of_keys (hs : s.ParentsBelow) (ht : t.ParentsBelow) (h : s.keys <+: t.keys) (hid : id < s.count) :
    t.pointAt node id = s.pointAt node id := by
  have hkeys : ∀ i, i < s.count → t.keys[i]? = s.keys[i]? := by
    intro i hi
    obtain ⟨more, hmore⟩ := h
    rw [← hmore, List.getElem?_append_left (by rwa [keys, List.length_map])]
  have hparents : ∀ i, i < s.count → t.parents i = s.parents i := fun i hi => by
    rw [parents_eq_keys, parents_eq_keys, hkeys i hi]
  have hkind : ∀ i, i < s.count → t.kind? i = s.kind? i := fun i hi => by
    rw [kind_eq_keys, kind_eq_keys, hkeys i hi]
  exact pointAt_renumber (ρ := fun i => i) (P := fun i => i < s.count) hs ht
    (fun i hi => ⟨fun p hp => Nat.lt_trans (hs i p hp) hi, by rw [hparents i hi, List.map_id']⟩) hkind id hid

end NodeStore

/-! ### Arithmetic in any numbers -/

section
variable {α : Type} [Scalar α] [Neg α]

/-- The arithmetic among the functions of single elements. -/
def Elementwise.arithmetic? : Elementwise → List α → Option α
  | .add, [x, y] => some (x + y)
  | .sub, [x, y] => some (x - y)
  | .mul, [x, y] => some (x * y)
  | .div, [x, y] => some (x / y)
  | .keep, [x] => some x
  | .negate, [x] => some (-x)
  | _, _ => none

/-- What evaluates graphs of arithmetic at one place. -/
structure Points (α : Type) where
  functions : Functions
  conversion : String → String → Option (α → α)
  /-- The element of an input. -/
  element : String → α

namespace Points

/-- The value of a node, given those of its parents. -/
def node (w : Points α) : NodeKind → List α → Option α
  | .operand name, _ => some (w.element name)
  | .convert source target, [x] => (w.conversion source target).map fun f => f x
  | .transpose _, [x] => some x
  | .call function _, xs =>
    (w.functions.get? function xs.length).bind fun f =>
      match f.kernel with
      | .map e => e.arithmetic? xs
      | _ => none
  | _, _ => none

/-- The value of a node of a graph. -/
def value (w : Points α) (s : NodeStore) (id : Nat) : Option α := s.pointAt w.node id

end Points
end

namespace Whole.Evaluator

variable {w : Evaluator} {p : Place} {element : String → Double}

theorem value_eq (hb : w.store.ParentsBelow) (id : Nat) :
    w.value id = ((w.store.parents id).mapM w.value).bind (w.node id) := by
  unfold value
  rw [NodeStore.valueAt_eq hb, List.mapM_map]
  rfl

theorem map_of_mapM {α β γ : Type} {f : α → Option β} {g : α → Option γ} {h : β → γ} :
    ∀ {l : List α} {bs : List β} {cs : List γ}, l.mapM f = some bs → l.mapM g = some cs →
      (∀ a ∈ l, ∀ b c, f a = some b → g a = some c → h b = c) → cs = bs.map h
  | [], _, _, hf, hg, _ => by
    cases hf
    cases hg
    rfl
  | a :: l, _, _, hf, hg, hall => by
    rw [List.mapM_cons] at hf hg
    obtain ⟨b, hb, hf⟩ := Option.bind_eq_some_iff.mp hf
    obtain ⟨bs, hbs, hf⟩ := Option.bind_eq_some_iff.mp hf
    obtain ⟨c, hc, hg⟩ := Option.bind_eq_some_iff.mp hg
    obtain ⟨cs, hcs, hg⟩ := Option.bind_eq_some_iff.mp hg
    cases hf
    cases hg
    rw [List.map_cons, hall a List.mem_cons_self b c hb hc,
      map_of_mapM hbs hcs fun a' ha' => hall a' (List.mem_cons_of_mem _ ha')]

/-- An arithmetic function of arrays works place by place. -/
theorem pointwise_at {e : Elementwise} {options : CallOptions} {vs : List Field} {v : Field} {x : Double}
    (hv : pointwise e options vs = some v) (hx : e.arithmetic? (vs.map (· p)) = some x) : v p = x := by
  match vs, hv with
  | [a], hv =>
    cases e <;> first | (cases hx; cases hv; rfl) | cases hx
  | [a, b], hv =>
    cases e <;> first | (cases hx; cases hv; rfl) | cases hx

/-- At a place a node has the value that arithmetic gives from the elements of the inputs there. -/
theorem value_at_place (hb : w.store.ParentsBelow)
    (helement : ∀ id name g, w.store.kind? id = some (.operand name) → w.source.fetch name none = .ok g →
      g.read (w.store.dims id).names p = element name) :
    ∀ {id : Nat} {v : Field} {x : Double}, w.value id = some v →
      Points.value ⟨w.functions, w.converter.conversion, element⟩ w.store id = some x → v p = x := by
  intro id
  induction id using Nat.strongRecOn with
  | ind id ih =>
    intro v x hv hx
    rw [value_eq hb] at hv
    rw [Points.value, NodeStore.pointAt_eq hb] at hx
    obtain ⟨vs, hvs, hv⟩ := Option.bind_eq_some_iff.mp hv
    obtain ⟨xs, hxs, hx⟩ := Option.bind_eq_some_iff.mp hx
    obtain ⟨k, hk, hx⟩ := Option.bind_eq_some_iff.mp hx
    have hsame : xs = vs.map (· p) :=
      map_of_mapM hvs hxs fun q hq b c hb' hc => ih q (hb id q hq) hb' hc
    subst hsame
    unfold node at hv
    rw [hk] at hv
    cases k with
    | literal y => cases hx
    | operand name =>
      cases hx
      obtain ⟨g, hg, rfl⟩ := Option.map_eq_some_iff.mp hv
      exact helement id name g hk (toOption_eq_some.mp hg)
    | convert source target =>
      match vs, hv with
      | [a], hv =>
        obtain ⟨f, hf, rfl⟩ := Option.map_eq_some_iff.mp hv
        obtain ⟨f', hf', rfl⟩ := Option.map_eq_some_iff.mp hx
        cases hf.symm.trans hf'
        rfl
    | transpose order =>
      match vs, hv with
      | [a], hv =>
        cases hv
        cases hx
        rfl
    | call function options =>
      obtain ⟨f, hf, hv⟩ := Option.bind_eq_some_iff.mp hv
      obtain ⟨f', hf', hx⟩ := Option.bind_eq_some_iff.mp hx
      rw [List.length_map] at hf'
      cases hf.symm.trans hf'
      cases hkernel : f.kernel with
      | map e =>
        rw [hkernel] at hv hx
        exact pointwise_at hv hx
      | _ => rw [hkernel] at hx; cases hx

end Whole.Evaluator
end Concord
