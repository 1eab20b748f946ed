import Concord.Proofs.Evaluate.Ordering
import Concord.Proofs.Evaluate.Whole

/-! Variables that are resolved over the builtin functions and planned, with a dataset that is sound for
    them. All axes of all nodes are then known, and each input is what its axes say. -/

namespace Concord

open Grid Whole Signature NodeStore

/-! ### Lengths of inputs -/

namespace Signature

variable {s : Signature}

theorem lengths_eq (h : s.Known) : s.map (·.length) = (s.names.map s.lens).map some := by
  rw [List.map_map, names, List.map_map]
  exact List.map_congr_left fun d hd => h.length hd

theorem shape_of_lengths {shape : List Nat} (h : s.Known) (hs : s.map (·.length) = shape.map some) :
    shape = s.names.map s.lens :=
  List.map_injective_iff.mpr (fun _ _ => Option.some.inj) (hs.symm.trans (lengths_eq h))

theorem lengths_renamed (s : Signature) (map : NameMap String) :
    (s.renamed map).map (·.length) = s.map (·.length) := by
  unfold renamed
  rw [List.map_map]
  rfl

end Signature

/-- A dataset whose arrays have the lengths that their axes say. -/
def Dataset.Sound (d : Dataset) : Prop :=
  ∀ name x, d.get? name = some x → x.metadata.dims.map (·.length) = x.data.shape.map some

/-- A variable that is resolved over the builtin functions and planned, and a sound dataset for it: the axes
    of each input differ, the inputs agree on the length of the dimension that is cut, and all arrays are
    small enough. -/
structure Prepared (c : Resolution.Context) (d : Dataset) (v : ResolvedVariable) (plan : Plan) : Prop where
  resolved : Resolution.Resolved c Functions.Fit v
  builtin : c.functions = .builtins
  source : c.source = d.source
  planned : Plan.Planned c.functions v plan
  sound : d.Sound
  distinct : ∀ i name, v.store.kind? i = some (.operand name) → (v.store.dims i).names.Nodup
  agree : ∀ x, plan.dimension = some x → ∀ i name, v.store.kind? i = some (.operand name) →
    x ∈ (v.store.dims i).names → (v.store.dims i).lens x = plan.domain
  small : ∀ i < v.store.count, fits ((v.store.dims i).names.map (v.store.dims i).lens) = true

namespace Prepared

variable {c : Resolution.Context} {d : Dataset} {v : ResolvedVariable} {plan : Plan} {i : Nat}

/-- What evaluates the graph as a whole. -/
def whole (c : Resolution.Context) (v : ResolvedVariable) : Evaluator := ⟨v.store, c.functions, c.source, c.converter⟩

/-- What evaluates it by the plan. -/
def engine (c : Resolution.Context) (v : ResolvedVariable) (plan : Plan) : Engine :=
  .ofVariable v plan c.source c.converter

theorem below (h : Prepared c d v plan) : v.store.ParentsBelow := fun _ _ hp => h.resolved.typed.parents_lt hp

/-! ### Axes -/

/-- What an input has. -/
structure Held (c : Resolution.Context) (d : Dataset) (v : ResolvedVariable) (i : Nat) (name : String)
    (x : InputVariable) : Prop where
  found : d.get? name = some x
  dims : v.store.dims i = x.metadata.dims.renamed c.dimensionMap
  native : v.native.get? name = some x.metadata.dims

theorem held_of_resolved {Fit : String → CallOptions → Prop} (hv : Resolution.Resolved c Fit v)
    (hs : c.source = d.source) {name : String} (hi : v.store.kind? i = some (.operand name)) :
    ∃ x, Held c d v i name x := by
  obtain ⟨m, hm, hnative⟩ := hv.native i name hi
  obtain ⟨-, m', hm', hdims⟩ := hv.typed.operand hi
  cases hm.symm.trans hm'
  rw [hs] at hm
  obtain ⟨x, hx, rfl⟩ := Option.map_eq_some_iff.mp hm
  exact ⟨x, hx, hdims, hnative⟩

theorem held (h : Prepared c d v plan) {name : String} (hi : v.store.kind? i = some (.operand name)) :
    ∃ x, Held c d v i name x := held_of_resolved h.resolved h.source hi

theorem fetch_whole (h : Prepared c d v plan) {name : String} {x : InputVariable} (hx : Held c d v i name x) :
    (whole c v).source.fetch name none = .ok x.data := by
  show c.source.fetch name none = _
  rw [h.source]
  show Dataset.fetch d name none = _
  unfold Dataset.fetch
  rw [hx.found]

theorem known_input (h : Prepared c d v plan) {name : String} (hi : v.store.kind? i = some (.operand name)) :
    (v.store.dims i).Known := by
  obtain ⟨x, hx⟩ := h.held hi
  refine ⟨h.distinct i name hi, fun e he => ?_⟩
  have hlen : some e.length ∈ ((v.store.dims i).map (·.length)).map some :=
    List.mem_map_of_mem (List.mem_map_of_mem he)
  rw [hx.dims, lengths_renamed, h.sound name x hx.found, List.mem_map] at hlen
  obtain ⟨l, hl, heq⟩ := hlen
  obtain ⟨n, -, rfl⟩ := List.mem_map.mp hl
  rw [← Option.some.inj heq]
  rfl

theorem known (h : Prepared c d v plan) (i : Nat) : (v.store.dims i).Known :=
  h.resolved.typed.known h.builtin (fun _ _ => h.known_input) i

theorem lens_along (h : Prepared c d v plan) {x : String} (hx : plan.dimension = some x)
    (hi : x ∈ (v.store.dims i).names) : (v.store.dims i).lens x = plan.domain :=
  h.resolved.typed.length_along h.builtin (fun _ _ => h.known_input) (h.agree x hx) i hi

theorem shape_held (h : Prepared c d v plan) {name : String}
    {x : InputVariable} (hx : Held c d v i name x) :
    x.data.shape = (v.store.dims i).names.map (v.store.dims i).lens := by
  refine shape_of_lengths (h.known i) ?_
  rw [hx.dims, lengths_renamed]
  exact h.sound name x hx.found

end Prepared
end Concord
