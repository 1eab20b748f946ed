import Mathlib.Algebra.BigOperators.Group.List.Basic
import Mathlib.Data.List.Range
import Mathlib.Order.Bounds.Basic
import Concord.Conformance
import Concord.Proofs.Evaluate.Ordering

/-! How a length is cut: the chunks cover it piece by piece, and without a set length they are the longest that the
    budget allows for every streamed node. -/

namespace Concord

open NodeStore

/-! ### Sizes -/

theorem foldl_word (ns : List Nat) : ∀ p, ns.foldl (fun p n => p * n % 2 ^ 64) (p % 2 ^ 64) = p * ns.prod % 2 ^ 64 := by
  induction ns with
  | nil => exact fun p => by rw [List.foldl_nil, List.prod_nil, Nat.mul_one]
  | cons n ns ih =>
    intro p
    rw [List.foldl_cons, Nat.mod_mul_mod, ih, List.prod_cons, Nat.mul_assoc]

theorem wordProduct_eq (ns : List Nat) : wordProduct ns = ns.prod % 2 ^ 64 := by
  have h := foldl_word ns 1
  rwa [Nat.one_mul] at h

namespace Signature

/-- The lengths of all axes but one. A length that is not known counts as 1. -/
def lengthsExcluding (s : Signature) (along : Option String) : List Nat :=
  (s.filter fun d => some d.name ≠ along).map fun d => d.length.getD 1

/-- The number of elements per step along an axis, however large it is. -/
def elements (s : Signature) (along : Option String) : Nat := (s.lengthsExcluding along).prod

theorem elementsExcluding_eq (s : Signature) (along : Option String) :
    s.elementsExcluding along = s.elements along % 2 ^ 64 := wordProduct_eq _

end Signature

namespace Plan

/-! ### Pieces of a length -/

/-- Chunks cover the places below `domain` and nothing else, one behind the other, in pieces of one length with a
    possibly shorter last one. -/
structure Tiles (chunks : List (Nat × Nat)) (domain length : Nat) : Prop where
  nonempty : chunks ≠ []
  adjacent : chunks.IsChain fun c c' => c.2 = c'.1
  covers : ∀ place, place < domain ↔ ∃ c ∈ chunks, c.1 ≤ place ∧ place < c.2
  full : ∀ c ∈ chunks.dropLast, c.2 = c.1 + length
  last : ∀ c ∈ chunks.getLast?, 0 < domain → c.1 < c.2 ∧ c.2 ≤ c.1 + length
  empty : domain = 0 → chunks = [(0, 0)]

theorem cut_zero (length : Nat) : cut 0 length = [(0, 0)] := if_pos rfl

/-- A piece by its number. -/
def piece (domain length i : Nat) : Nat × Nat := (i * length, min (i * length + length) domain)

/-- All pieces but the last one are whole, and that one reaches the end. -/
theorem cut_eq {domain length : Nat} (hd : 0 < domain) (hl : 0 < length) :
    ∃ n, n * length < domain ∧ domain ≤ n * length + length ∧
      cut domain length = (List.range (n + 1)).map (piece domain length) := by
  have hcount : 0 < (domain + length - 1) / length := Nat.div_pos (by omega) hl
  refine ⟨(domain + length - 1) / length - 1, ?_, ?_, ?_⟩
  · have := Nat.div_mul_le_self (domain + length - 1) length
    rw [Nat.sub_mul, Nat.one_mul]
    omega
  · have := Nat.lt_div_mul_add (a := domain + length - 1) hl
    rw [Nat.sub_mul, Nat.one_mul]
    omega
  · unfold cut
    rw [if_neg (Nat.ne_of_gt hd), Nat.sub_add_cancel hcount]
    rfl

theorem piece_of_lt {domain length i n : Nat} (hn : n * length < domain) (hi : i < n) :
    piece domain length i = (i * length, (i + 1) * length) := by
  have hle : (i + 1) * length ≤ n * length := Nat.mul_le_mul_right length hi
  unfold piece
  rw [← Nat.succ_mul, Nat.min_eq_left (Nat.le_of_lt (Nat.lt_of_le_of_lt hle hn))]

theorem piece_last {domain length n : Nat} (hend : domain ≤ n * length + length) :
    piece domain length n = (n * length, domain) := by
  unfold piece
  rw [Nat.min_eq_right hend]

theorem cut_tiles (domain : Nat) {length : Nat} (hl : 0 < length) : Tiles (cut domain length) domain length := by
  rcases Nat.eq_zero_or_pos domain with rfl | hd
  · rw [cut_zero]
    exact ⟨by simp, by simp, by simp, by simp, fun _ _ h => absurd h (Nat.lt_irrefl 0), fun _ => rfl⟩
  obtain ⟨n, hn, hend, heq⟩ := cut_eq hd hl
  have hsplit : cut domain length = (List.range n).map (piece domain length) ++ [(n * length, domain)] := by
    rw [heq, List.range_succ, List.map_append, List.map_singleton, piece_last hend]
  refine ⟨?_, ?_, fun place => ?_, ?_, ?_, fun h => absurd h (Nat.ne_of_gt hd)⟩
  · rw [hsplit]
    exact List.append_ne_nil_of_right_ne_nil _ (List.cons_ne_nil _ _)
  · rw [heq, List.isChain_map, List.isChain_range_succ]
    intro i hi
    rw [piece_of_lt hn hi]
    rfl
  · rw [heq]
    constructor
    · intro hplace
      -- The piece whose number is the quotient.
      have hnumber : place / length < n + 1 := by
        rw [Nat.div_lt_iff_lt_mul hl, Nat.succ_mul]
        omega
      exact ⟨_, List.mem_map_of_mem (List.mem_range.mpr hnumber), Nat.div_mul_le_self place length,
        Nat.lt_min.mpr ⟨Nat.lt_div_mul_add hl, hplace⟩⟩
    · rintro ⟨c, hc, -, hlt⟩
      obtain ⟨i, -, rfl⟩ := List.mem_map.mp hc
      exact (Nat.lt_min.mp hlt).2
  · rw [hsplit, List.dropLast_concat]
    intro c hc
    obtain ⟨i, hi, rfl⟩ := List.mem_map.mp hc
    rw [piece_of_lt hn (List.mem_range.mp hi)]
    exact Nat.succ_mul i length
  · rw [hsplit, List.getLast?_concat]
    rintro c ⟨⟩ -
    exact ⟨hn, hend⟩

/-! ### Streamed nodes -/

section
variable {functions : Functions} {s : NodeStore} {dimension : Option String} {p : Progress}

/-- A node is streamed by its own axes, whatever its parents are. -/
theorem foldlM_addRole_streamed (h : s.nodes.foldlM (addRole functions s dimension) ⟨[], none⟩ = .ok p) :
    p.roles.map (·.streamed) =
      s.nodes.map fun n => dimension.any fun d => Signature.named ((n.layout.map (·.dims)).getD []) d := by
  refine foldlM_induction (P := fun (done : List Node) (q : Progress) => q.roles.map (·.streamed) =
    done.map fun n => dimension.any fun d => Signature.named ((n.layout.map (·.dims)).getD []) d) s.nodes ?_
    (List.nil_append _).symm rfl h
  intro done n rest q q' _ hdone hq
  obtain ⟨r, heq, hr⟩ := addRole_role hq
  rw [heq, List.map_append, List.map_append, hdone]
  refine congrArg (_ ++ ·) ?_
  cases hr <;> rfl

variable {v : ResolvedVariable} {config : Config}

theorem streamed_planOf (h : rolesFor v config functions = .ok p) {i : Nat} {n : Node} (hn : v.store.node? i = some n) :
    ∃ r, p.roles[i]? = some r ∧ r.streamed = (planOf v config p.roles).streamed i ∧
      r.streamed = (dimensionFor v config).any (Signature.named (v.store.dims i)) := by
  have hi : (p.roles.map (·.streamed))[i]? = _ := congrArg (·[i]?) (foldlM_addRole_streamed h)
  rw [List.getElem?_map, List.getElem?_map, show v.store.nodes[i]? = some n from hn, Option.map_some] at hi
  obtain ⟨r, hr, heq⟩ := Option.map_eq_some_iff.mp hi
  refine ⟨r, hr, ?_, by rw [heq, Planned.dims_of_layout hn]⟩
  unfold Plan.streamed Plan.role planOf
  rw [List.getD_eq_getElem?_getD, hr]
  rfl

/-- The elements per step are the most that a streamed node has, at least one. -/
theorem elementsPerStep_le_iff (h : rolesFor v config functions = .ok p) {m : Nat} :
    elementsPerStep v.store (dimensionFor v config) p.roles ≤ m ↔
      1 ≤ m ∧ ∀ i < v.store.count, (planOf v config p.roles).streamed i = true →
        (v.store.dims i).elementsExcluding (dimensionFor v config) ≤ m := by
  unfold elementsPerStep
  rw [Nat.max_le, foldl_max_le_iff]
  constructor
  · rintro ⟨hm, -, hall⟩
    refine ⟨hm, fun i hi hs => ?_⟩
    obtain ⟨n, hn⟩ := exists_node hi
    obtain ⟨r, hr, hrs, -⟩ := streamed_planOf h hn
    have hzip : (n, r) ∈ v.store.nodes.zip p.roles :=
      List.mem_iff_getElem?.mpr ⟨i, List.getElem?_zip_eq_some.mpr ⟨hn, hr⟩⟩
    refine hall _ (List.mem_filterMap.mpr ⟨_, hzip, ?_⟩)
    rw [if_pos (hrs.trans hs), Planned.dims_of_layout hn]
  · rintro ⟨hm, hall⟩
    refine ⟨hm, Nat.zero_le m, fun x hx => ?_⟩
    obtain ⟨⟨n, r⟩, hzip, hx⟩ := List.mem_filterMap.mp hx
    obtain ⟨i, hi⟩ := List.mem_iff_getElem?.mp hzip
    obtain ⟨hn, hr⟩ := List.getElem?_zip_eq_some.mp hi
    obtain ⟨r', hr', hrs, -⟩ := streamed_planOf h hn
    cases hr.symm.trans hr'
    split at hx
    · rename_i hs
      cases hx
      rw [Planned.dims_of_layout hn]
      exact hall i (lt_count hn) (hrs.symm.trans hs)
    · cases hx

/-- If a dimension is cut, an input is streamed. -/
theorem exists_streamed (h : rolesFor v config functions = .ok p) {d : String} (hd : dimensionFor v config = some d) :
    ∃ i < v.store.count, (planOf v config p.roles).streamed i = true := by
  obtain ⟨s, hs, hlen⟩ := List.exists_of_findSome?_eq_some (domainOf_dimensionFor hd)
  obtain ⟨i, name, hk, rfl⟩ := mem_inputDims hs
  obtain ⟨n, hn, -⟩ := Option.map_eq_some_iff.mp hk
  obtain ⟨r, -, hrs, hnamed⟩ := streamed_planOf h hn
  refine ⟨i, lt_count hn, ?_⟩
  rw [← hrs, hnamed, hd]
  refine Signature.named_iff.mpr ?_
  by_contra hnot
  rw [Signature.dimension?_of_not_mem hnot] at hlen
  cases hlen

end

/-! ### Budgets -/

/-- A length of chunks is not above what there is, and of every streamed node the budget has eight bytes for each
    element of a chunk. A node without elements counts as if it had one per step. One step is always allowed. -/
structure Affordable (v : ResolvedVariable) (plan : Plan) (budget length : Nat) : Prop where
  pos : 1 ≤ length
  le : length ≤ max plan.domain 1
  bytes : length = 1 ∨ ∀ i < v.store.count, plan.streamed i = true →
    length * (8 * max 1 ((v.store.dims i).elements plan.dimension)) ≤ budget

/-- The bytes that a streamed node needs per step can be counted. -/
def Countable (v : ResolvedVariable) (plan : Plan) : Prop :=
  ∀ i < v.store.count, plan.streamed i = true → 8 * (v.store.dims i).elements plan.dimension < 2 ^ 64

section
variable {functions : Functions} {v : ResolvedVariable} {config : Config} {p : Progress}
  (h : rolesFor v config functions = .ok p) (hsize : Countable v (planOf v config p.roles))
include h hsize

theorem perStep_le_iff {m : Nat} : elementsPerStep v.store (dimensionFor v config) p.roles ≤ m ↔
    1 ≤ m ∧ ∀ i < v.store.count, (planOf v config p.roles).streamed i = true →
      (v.store.dims i).elements (dimensionFor v config) ≤ m := by
  rw [elementsPerStep_le_iff h]
  refine and_congr_right fun _ => forall₃_congr fun i hi hs => ?_
  have hlt : 8 * (v.store.dims i).elements (dimensionFor v config) < 2 ^ 64 := hsize i hi hs
  rw [Signature.elementsExcluding_eq, Nat.mod_eq_of_lt (by omega)]

theorem bytesPerStep_lt : 8 * elementsPerStep v.store (dimensionFor v config) p.roles < 2 ^ 64 := by
  have hle : elementsPerStep v.store (dimensionFor v config) p.roles ≤ 2 ^ 61 - 1 := by
    refine (perStep_le_iff h hsize).mpr ⟨by decide, fun i hi hs => ?_⟩
    have hlt : 8 * (v.store.dims i).elements (dimensionFor v config) < 2 ^ 64 := hsize i hi hs
    omega
  omega

/-- What the budget allows for the largest streamed node, it allows for all of them. -/
theorem bytes_le_iff {d : String} (hd : dimensionFor v config = some d) {c budget : Nat} (hc : 0 < c) :
    c * (8 * elementsPerStep v.store (dimensionFor v config) p.roles) ≤ budget ↔
      ∀ i < v.store.count, (planOf v config p.roles).streamed i = true →
        c * (8 * max 1 ((v.store.dims i).elements (dimensionFor v config))) ≤ budget := by
  have hdiv : ∀ {x}, x ≤ budget / (c * 8) ↔ c * (8 * x) ≤ budget := fun {x} => by
    rw [Nat.le_div_iff_mul_le (by omega), Nat.mul_comm x, Nat.mul_assoc]
  simp only [← hdiv, perStep_le_iff h hsize, Nat.max_le]
  constructor
  · exact fun ⟨hone, hall⟩ i hi hs => ⟨hone, hall i hi hs⟩
  · intro hall
    obtain ⟨i, hi, hs⟩ := exists_streamed h hd
    exact ⟨(hall i hi hs).1, fun i hi hs => (hall i hi hs).2⟩

/-- Without a set length, chunks are as long as the budget allows. -/
theorem chunkLength_isGreatest (hc : config.chunkLength = none) :
    IsGreatest {length | Affordable v (planOf v config p.roles) config.memoryBudget length}
      (planOf v config p.roles).chunkLength := by
  have hperStep : 1 ≤ elementsPerStep v.store (dimensionFor v config) p.roles := Nat.le_max_left ..
  have hlength : (planOf v config p.roles).chunkLength = max 1 (min (config.memoryBudget /
      (8 * elementsPerStep v.store (dimensionFor v config) p.roles)) (max (domainFor v config) 1)) := by
    unfold planOf chunkLengthFor
    rw [hc]
    dsimp only
    rw [Nat.mod_eq_of_lt (bytesPerStep_lt h hsize)]
  have hdiv : ∀ {c}, c ≤ config.memoryBudget / (8 * elementsPerStep v.store (dimensionFor v config) p.roles) ↔
      c * (8 * elementsPerStep v.store (dimensionFor v config) p.roles) ≤ config.memoryBudget :=
    Nat.le_div_iff_mul_le (by omega)
  cases hd : dimensionFor v config with
  | none =>
    -- There is one place only.
    have hdomain := domainFor_of_none hd
    have hone : (planOf v config p.roles).chunkLength = 1 := by rw [hlength, hdomain]; omega
    rw [hone]
    refine ⟨⟨Nat.le_refl 1, Nat.le_max_right .., .inl rfl⟩, fun c hc => ?_⟩
    have hle : c ≤ max (domainFor v config) 1 := hc.le
    rwa [hdomain] at hle
  | some d =>
    constructor
    · refine ⟨by omega, ?_, ?_⟩
      · show _ ≤ max (domainFor v config) 1
        omega
      · rcases Nat.eq_or_lt_of_le (show 1 ≤ (planOf v config p.roles).chunkLength by omega) with hone | hlt
        · exact .inl hone.symm
        · exact .inr ((bytes_le_iff h hsize hd (by omega)).mp (hdiv.mp (by omega)))
    · intro c hc
      rw [hlength]
      rcases hc.bytes with rfl | hbytes
      · exact Nat.le_max_left ..
      · have hle : c ≤ max (domainFor v config) 1 := hc.le
        have hallowed := hdiv.mpr ((bytes_le_iff h hsize hd hc.pos).mpr hbytes)
        omega

end

/-- A plan cuts the length of its dimension into chunks of one length, the last one possibly shorter. Without a set
    length they are as long as the budget allows for every streamed node, if its bytes per step can be counted. A set
    length is brought into the range from 1 to what there is. -/
theorem build_cuts {v : ResolvedVariable} {functions : Functions} {config : Config} {plan : Plan}
    (h : build v functions config = .ok plan) :
    Tiles plan.chunks plan.domain plan.chunkLength ∧
      (config.chunkLength = none → Countable v plan →
        IsGreatest {length | Affordable v plan config.memoryBudget length} plan.chunkLength) ∧
      ∀ k, config.chunkLength = some k → plan.chunkLength = max 1 (min k (max plan.domain 1)) := by
  obtain ⟨p, hp, rfl⟩ := build_eq_ok h
  refine ⟨cut_tiles _ (chunkLengthFor_pos ..), fun hc hsize => chunkLength_isGreatest hp hsize hc, fun k hk => ?_⟩
  unfold planOf chunkLengthFor
  rw [hk]

/-- Temperatures of ten times at some latitudes, which are doubled within a budget. -/
def bands (latitudes budget : Nat) : Conformance where
  standard := .ofList [("out", ⟨["time", "lat"], "K", .empty⟩)]
  definitions := .ofList [("out", "tas * 2")]
  source := Dataset.source (.ofList [("tas", ⟨⟨[⟨"time", some 10⟩, ⟨"lat", some latitudes⟩], "K", .empty⟩,
    ⟨[10, latitudes], Array.replicate (10 * latitudes) 0, by simp [volume]⟩⟩)])
  config := { Config.standard with memoryBudget := budget }
  functions := .builtins
  converter := Measure.linear

/-- Four latitudes take 32 bytes per time, so 128 bytes are enough for four times. -/
theorem build_cuts_bands : ∃ v plan, (bands 4 128).resolve "out" = .ok v ∧
    build v .builtins (bands 4 128).config = .ok plan ∧ plan.chunks = [(0, 4), (4, 8), (8, 10)] ∧
      Tiles plan.chunks 10 4 ∧ IsGreatest {length | Affordable v plan 128 length} 4 := by
  have hfacts : ∃ v ∈ ((bands 4 128).resolve "out").toOption, ∃ plan ∈ (build v .builtins (bands 4 128).config).toOption,
      plan.chunks = [(0, 4), (4, 8), (8, 10)] ∧ plan.domain = 10 ∧ plan.chunkLength = 4 ∧
        ∀ i < v.store.count, plan.streamed i = true → 8 * (v.store.dims i).elements plan.dimension < 2 ^ 64 := by
    decide +kernel
  obtain ⟨v, hv, plan, hplan, hchunks, hdomain, hlength, hsize⟩ := hfacts
  have hplan := toOption_eq_some.mp hplan
  obtain ⟨htiles, hgreatest, -⟩ := build_cuts hplan
  rw [hdomain, hlength] at htiles
  exact ⟨v, plan, toOption_eq_some.mp hv, hplan, hchunks, htiles, hlength ▸ hgreatest rfl hsize⟩

/-- Without latitudes no node has elements. The budget of 32 bytes allows all ten times then, but chunks have four. -/
theorem chunkLength_not_longest : ∃ v plan, (bands 0 32).resolve "out" = .ok v ∧
    build v .builtins (bands 0 32).config = .ok plan ∧ Countable v plan ∧ plan.chunkLength = 4 ∧
      ¬IsGreatest {length | length ≤ plan.domain ∧ (length = 1 ∨ ∀ i < v.store.count, plan.streamed i = true →
        length * (8 * (v.store.dims i).elements plan.dimension) ≤ (bands 0 32).config.memoryBudget)} plan.chunkLength := by
  have hfacts : ∃ v ∈ ((bands 0 32).resolve "out").toOption, ∃ plan ∈ (build v .builtins (bands 0 32).config).toOption,
      plan.chunkLength = 4 ∧ plan.domain = 10 ∧
        (∀ i < v.store.count, plan.streamed i = true → 8 * (v.store.dims i).elements plan.dimension < 2 ^ 64) ∧
        ∀ i < v.store.count, plan.streamed i = true →
          10 * (8 * (v.store.dims i).elements plan.dimension) ≤ (bands 0 32).config.memoryBudget := by
    decide +kernel
  obtain ⟨v, hv, plan, hplan, hlength, hdomain, hsize, hbytes⟩ := hfacts
  refine ⟨v, plan, toOption_eq_some.mp hv, toOption_eq_some.mp hplan, hsize, hlength, fun hgreatest => ?_⟩
  have hle : 10 ≤ plan.chunkLength := hgreatest.2 ⟨hdomain.ge, .inr hbytes⟩
  rw [hlength] at hle
  exact absurd hle (by decide)

end Plan
end Concord
