import Concord.Proofs.Evaluate.Window
import Concord.Proofs.Evaluate.Prepared

/-! What the nodes of a prepared variable make of parts of arrays, kind by kind: the part of what they make
    of the whole arrays. -/

namespace Concord

open Grid Whole Signature Window NodeStore

/-- The window of a chunk; none for the whole. -/
def Plan.windowFor (plan : Plan) (key : Option Nat) : Option Window :=
  match key, plan.dimension with
  | some c, some x => some ⟨x, (plan.chunks.getD c (0, 0)).1, (plan.chunks.getD c (0, 0)).2 - (plan.chunks.getD c (0, 0)).1⟩
  | _, _ => none

namespace Prepared

variable {c : Resolution.Context} {d : Dataset} {v : ResolvedVariable} {plan : Plan} {i n : Nat}
  {key : Option Nat} {x : String}

/-! ### Windows -/

theorem consecutive (h : Prepared c d v plan) : ∃ edge, Plan.Consecutive plan.chunks plan.domain edge := by
  obtain ⟨length, hpos, hchunks⟩ := h.planned.chunks
  rw [hchunks]
  exact Plan.cut_consecutive plan.domain hpos

theorem windowFor_chunk {edge : Nat → Nat} (hx : plan.dimension = some x)
    (he : Plan.Consecutive plan.chunks plan.domain edge) (hn : n < plan.chunks.length) :
    plan.windowFor (some n) = some ⟨x, edge n, edge (n + 1) - edge n⟩ := by
  unfold Plan.windowFor
  rw [hx]
  dsimp only
  rw [he.chunk n hn]

theorem windowFor_axis {u : Window} (hu : u ∈ plan.windowFor key) : plan.dimension = some u.axis := by
  unfold Plan.windowFor at hu
  split at hu
  · rename_i hx
    cases hu
    exact hx
  · cases hu

theorem inside (h : Prepared c d v plan) (hkey : ∀ n, key = some n → n < plan.chunks.length) (i : Nat) :
    Inside (plan.windowFor key) (v.store.dims i) := by
  intro u hu hin
  obtain ⟨edge, he⟩ := h.consecutive
  have hx := windowFor_axis hu
  cases key with
  | none => cases hu
  | some n =>
    rw [windowFor_chunk hx he (hkey n rfl)] at hu
    have hstart : u.start = edge n := congrArg Window.start (Option.some.inj hu).symm
    have hcount : u.count = edge (n + 1) - edge n := congrArg Window.count (Option.some.inj hu).symm
    have := he.mono n
    have := he.le (n + 1)
    rw [h.lens_along hx hin, hstart, hcount]
    omega

/-- A node that is not streamed does not have the axis of the window. -/
theorem axis_not_mem (h : Prepared c d v plan) (hs : plan.streamed i = false) :
    ∀ u ∈ plan.windowFor key, u.axis ∉ (v.store.dims i).names := by
  intro u hu hin
  have := (h.planned.streamed_along (windowFor_axis hu)).mpr hin
  rw [hs] at this
  cases this

/-! ### Layouts -/

theorem layout_eq (h : Prepared c d v plan) (hi : i < v.store.count) :
    ∃ a, (engine c v plan).layout i = .ok a ∧ a.dims = v.store.dims i := by
  obtain ⟨n, hn⟩ := exists_node hi
  obtain ⟨-, a, ha, -⟩ := h.resolved.typed.node i n hn
  refine ⟨a, ?_, (dims_of_node hn ha).symm⟩
  have hlayout : v.store.layout? i = some a := by
    unfold layout?
    rw [hn]
    exact ha
  unfold Engine.layout
  rw [show (engine c v plan).store.layout? i = some a from hlayout]

/-! ### Inputs -/

theorem readInput_outcome {e : Engine} {name : String} {a : Layout} {bounds : Option Bounds} {g : Grid Double}
    (ha : e.layout i = .ok a) (hb : e.boundsFor i name a.dims key = .ok bounds)
    (hf : e.source.fetch name bounds = .ok g) (hg : g.axes = a.dims.length) :
    (e.readInput i name key).outcome = .ok g := by
  have hfetch : ((Traced.fetch e.source name bounds).mapError EvaluationFault.unreadable).outcome = .ok g := by
    show (e.source.fetch name bounds).mapError _ = _
    rw [hf]
    rfl
  unfold Engine.readInput
  rw [Traced.bind_ok (show (Traced.ofExcept (e.layout i)).outcome = .ok a from ha),
    Traced.bind_ok (show (Traced.ofExcept (e.boundsFor i name a.dims key)).outcome = .ok bounds from hb),
    Traced.bind_ok hfetch, if_neg (not_not.mpr hg)]
  rfl

theorem axes_held (h : Prepared c d v plan) {name : String} {y : InputVariable} (hy : Held c d v i name y) :
    y.data.axes = (v.store.dims i).length := by
  rw [axes, h.shape_held hy, List.length_map, names, List.length_map]

/-- The name at the source of the axis that is cut. -/
theorem native_axis {y : InputVariable} {name : String} (hy : Held c d v i name y) (hx : x ∈ (v.store.dims i).names) :
    ∃ a, y.metadata.dims[(v.store.dims i).names.idxOf x]? = some a ∧
      y.metadata.dims.position a.name = some ((v.store.dims i).names.idxOf x) := by
  have hpos := position_of_mem hx
  rw [hy.dims] at hpos ⊢
  exact position_renamed hpos

theorem boundsFor_chunk {e : Engine} {name : String} {s t : Signature} {axis : Nat} {a : Dimension}
    (hdim : e.plan.dimension = some x) (hs : e.plan.streamed i = true) (hpos : s.position x = some axis)
    (hnative : e.native.get? name = some t) (ha : t[axis]? = some a) (n : Nat) :
    e.boundsFor i name s (some n) =
      .ok (some ⟨a.name, (e.plan.chunks.getD n (0, 0)).1, (e.plan.chunks.getD n (0, 0)).2⟩) := by
  unfold Engine.boundsFor
  rw [hdim]
  dsimp only
  rw [hs, if_pos rfl, hpos]
  dsimp only
  rw [hnative, Option.bind_some, ha]
  rfl

theorem readInput_part (h : Prepared c d v plan) {name : String} (hk : v.store.kind? i = some (.operand name))
    {y : InputVariable} (hy : Held c d v i name y) (hkey : ∀ n, key = some n → n < plan.chunks.length)
    (hs : key = none ∨ plan.streamed i = true) :
    ((engine c v plan).readInput i name key).outcome =
      .ok (part (plan.windowFor key) (v.store.dims i) (y.data.read (v.store.dims i).names)) := by
  obtain ⟨n, hn, -⟩ := Option.map_eq_some_iff.mp hk
  obtain ⟨a, ha, hdims⟩ := h.layout_eq (lt_count hn)
  have hknown := h.known i
  have hshape := h.shape_held hy
  have hwhole : part none (v.store.dims i) (y.data.read (v.store.dims i).names) = y.data :=
    tabulate_read hknown.nodup hshape
  cases key with
  | none =>
    have hw : plan.windowFor none = none := rfl
    rw [hw, hwhole]
    exact readInput_outcome ha rfl (h.fetch_whole hy) (hdims ▸ h.axes_held hy)
  | some n =>
    obtain ⟨x, hdim, hx⟩ := h.planned.streamed_iff.mp (hs.resolve_left fun h => by cases h)
    obtain ⟨edge, he⟩ := h.consecutive
    have hn := hkey n rfl
    obtain ⟨b, hb, hpos⟩ := native_axis hy hx
    have hbounds := boundsFor_chunk (e := engine c v plan) hdim ((h.planned.streamed_along hdim).mpr hx)
      (position_of_mem hx) hy.native hb n
    rw [← hdims] at hbounds
    have hmono := he.mono n
    have hle := he.le (n + 1)
    have hlen : y.data.length ((v.store.dims i).names.idxOf x) = plan.domain := by
      rw [← hwhole]
      exact (length_tabulate hx).trans (h.lens_along hdim hx)
    rw [windowFor_chunk hdim he hn]
    rw [show (engine c v plan).plan.chunks.getD n (0, 0) = _ from he.chunk n hn] at hbounds
    refine readInput_outcome ha hbounds ?_ ?_
    · show c.source.fetch name _ = _
      rw [h.source]
      show Dataset.fetch d name _ = _
      unfold Dataset.fetch Dataset.cut
      rw [hy.found]
      dsimp only
      rw [hpos]
      dsimp only
      rw [hlen, if_neg (by omega)]
      refine congrArg Except.ok ?_
      have hin : edge n + (edge (n + 1) - edge n) ≤ (v.store.dims i).lens x := by
        rw [h.lens_along hdim hx]
        omega
      have hslice := slice_tabulate hknown.nodup hx (read_supported (v.store.dims i).names y.data) hin
      rw [tabulate_read hknown.nodup hshape] at hslice
      exact hslice
    · rw [hdims, part, axes, shape_tabulate, List.length_map, names, List.length_map]

end Prepared
end Concord
