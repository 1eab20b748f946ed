import Mathlib.Algebra.Order.BigOperators.GroupWithZero.List
import Concord.Proofs.Evaluate.Coverage
import Concord.Proofs.Evaluate.Cutting
import Concord.Proofs.Resolve.Distinct

/-! Sizes of plans in 64-bit words. A dataset from a document bounds the axes of each of its inputs, but those of length
    zero are left out of that bound, and so is what inputs have together. -/

namespace Concord

open NodeStore Signature

/-! ### Sizes of inputs -/

theorem Grid.fits_ofList {α : Type} {shape : List Nat} {values : List α} {g : Grid α}
    (h : Grid.ofList shape values = .ok g) : fits shape = true := by
  unfold Grid.ofList at h
  cases hf : fits shape with
  | true => rfl
  | false =>
    rw [hf] at h
    cases h

namespace Dataset

theorem ofEntry_fits {input : String} {e : Entry} {y : InputVariable} (h : ofEntry input e = .ok y) :
    Grid.fits y.data.shape = true := by
  obtain ⟨shape, -, hdata, -⟩ := ofEntry_eq_ok h
  rw [Grid.shape_ofList hdata]
  exact Grid.fits_ofList hdata

theorem read_fits {text : String} {d : Dataset} (h : read text = .ok d) :
    ∀ input y, d.get? input = some y → Grid.fits y.data.shape = true := read_all (fun _ _ _ => ofEntry_fits) h

end Dataset

namespace Signature

variable {s t : Signature} {along : Option String} {l : List Nat}

def lengths (s : Signature) : List Nat := s.map fun d => d.length.getD 1

/-- The number of elements if the axes of length zero are left out. -/
def extent (s : Signature) : Nat := (s.lengths.filter (· ≠ 0)).prod

theorem lengthsExcluding_sublist (s : Signature) (along : Option String) :
    (s.lengthsExcluding along).Sublist s.lengths := List.filter_sublist.map _

theorem lengths_pos (s : Signature) : ∀ n ∈ s.lengths.filter (· ≠ 0), 0 < n := fun _ hn =>
  Nat.pos_of_ne_zero (of_decide_eq_true (List.mem_filter.mp hn).2)

theorem extent_pos (s : Signature) : 0 < s.extent := List.prod_pos s.lengths_pos

/-- A product of some lengths is not above that of all that are not zero. -/
theorem prod_le_extent (h : List.Subperm l s.lengths) : l.prod ≤ s.extent := by
  by_cases hzero : 0 ∈ l
  · rw [List.prod_eq_zero hzero]
    exact Nat.zero_le _
  · have hsame : l.filter (· ≠ 0) = l :=
      List.filter_eq_self.mpr fun n hn => decide_eq_true fun h0 => hzero (h0 ▸ hn)
    have hsub := h.filter (· ≠ 0)
    rw [hsame] at hsub
    obtain ⟨l', hperm, hsublist⟩ := hsub
    rw [← hperm.prod_eq]
    exact Nat.le_of_dvd s.extent_pos hsublist.prod_dvd_prod

theorem extent_flatten (signatures : List Signature) :
    extent signatures.flatten = (signatures.map extent).prod := by
  induction signatures with
  | nil => rfl
  | cons s rest ih =>
    rw [List.map_cons, List.prod_cons, ← ih, List.flatten_cons]
    unfold extent lengths
    rw [List.map_append, List.filter_append, List.prod_append]

theorem lengths_subperm (h : List.Subperm s t) : List.Subperm s.lengths t.lengths := by
  obtain ⟨s', hperm, hsub⟩ := h
  exact ⟨lengths s', hperm.map _, hsub.map _⟩

/-- No product over the axes leaves the 64-bit words on its way. -/
def Counted (s : Signature) (along : Option String) : Prop := ∀ l, l <+: s.lengthsExcluding along → l.prod < 2 ^ 64

theorem prefix_prod_le (h : List.Subperm s t) (hl : l <+: s.lengthsExcluding along) : l.prod ≤ t.extent := by
  have hsub : List.Subperm l s.lengths := (hl.sublist.trans (s.lengthsExcluding_sublist along)).subperm
  exact prod_le_extent (hsub.trans (lengths_subperm h))

end Signature

/-! ### Axes of nodes -/

namespace Typing

theorem joinLength_eq {name : String} {a b l : Option Nat} (h : joinLength name a b = .ok l) : l = a ∨ l = b := by
  unfold joinLength at h
  split at h
  · split at h
    · exact .inl (Except.ok.inj h).symm
    · cases h
  · exact .inl (Except.ok.inj h).symm
  · exact .inr (Except.ok.inj h).symm

/-- A joined axis is one of those that are joined. -/
theorem joinDimension_subset {d : Dimension} : ∀ {s out : Signature}, joinDimension d s = .ok out →
    ∀ e ∈ out, e ∈ s ∨ e = d
  | [], _, h, e, he => by
    cases h
    exact .inr (List.mem_singleton.mp he)
  | x :: rest, _, h, e, he => by
    unfold joinDimension at h
    split at h
    · rename_i hname
      obtain ⟨l, hl, rfl⟩ := map_eq_ok.mp h
      rcases List.mem_cons.mp he with rfl | he
      · rcases joinLength_eq hl with rfl | rfl
        · exact .inl List.mem_cons_self
        · exact .inr (by rw [hname])
      · exact .inl (List.mem_cons_of_mem _ he)
    · obtain ⟨rest', hjoin, rfl⟩ := map_eq_ok.mp h
      rcases List.mem_cons.mp he with rfl | he
      · exact .inl List.mem_cons_self
      · exact (joinDimension_subset hjoin e he).imp_left (List.mem_cons_of_mem _)

theorem union_subset {signatures : List Signature} {out : Signature} (h : union signatures = .ok out) :
    out ⊆ signatures.flatten := by
  have hfold : ∀ {l s out : Signature}, l.foldlM (fun out d => joinDimension d out) s = .ok out →
      ∀ e ∈ out, e ∈ s ∨ e ∈ l := by
    intro l
    induction l with
    | nil =>
      intro s out h e he
      cases h
      exact .inl he
    | cons d l ih =>
      intro s out h e he
      obtain ⟨mid, hmid, h⟩ := foldlM_cons_eq_ok.mp h
      rcases ih h e he with he | he
      · refine (joinDimension_subset hmid e he).imp_right fun heq => ?_
        rw [heq]
        exact List.mem_cons_self
      · exact .inr (List.mem_cons_of_mem d he)
  exact fun e he => (hfold h e he).resolve_left List.not_mem_nil

theorem dims_subperm {rule : ShapeRule} {function : String} {operands : List Operand} {options : CallOptions}
    {out all : Signature} (ho : ∀ o ∈ operands, List.Subperm o.dims all)
    (h : Typing.dims rule function operands options = .ok out) : List.Subperm out all := by
  have hfirst : List.Subperm (firstDims operands) all := by
    cases operands with
    | nil => exact List.nil_subperm
    | cons o operands => exact ho o List.mem_cons_self
  cases rule with
  | passThrough =>
    cases h
    exact hfirst
  | broadcast =>
    have hunion := dims_broadcast h
    refine List.subperm_of_subset (union_nodup hunion).of_map fun e he => ?_
    obtain ⟨s, hs, he⟩ := List.mem_flatten.mp (union_subset hunion he)
    obtain ⟨o, hmem, rfl⟩ := List.mem_map.mp hs
    exact (ho o hmem).subset he
  | reduce =>
    obtain ⟨d, -, -, rfl⟩ := dims_along (.inl rfl) h
    exact List.filter_sublist.subperm.trans hfirst
  | scan =>
    obtain ⟨d, -, -, rfl⟩ := dims_along (.inr rfl) h
    exact hfirst

end Typing

section
variable {c : Resolution.Context} {Fit : String → CallOptions → Prop} {s : NodeStore}

theorem AxesOf.subperm {dims : Nat → Signature} {kind : NodeKind} {parents : List Nat} {out all : Signature}
    (h : AxesOf c Fit dims kind parents out) (hp : ∀ p ∈ parents, List.Subperm (dims p) all)
    (hinput : ∀ name, kind = .operand name → List.Subperm out all) : List.Subperm out all := by
  cases h with
  | literal => exact List.nil_subperm
  | operand => exact hinput _ rfl
  | convert => exact hp _ (List.mem_singleton_self _)
  | transpose horder =>
    obtain ⟨hnames, hsub⟩ := perm_apply horder
    have hnodup : (names (Permutation.apply _ _)).Nodup := hnames ▸ permutationTo_nodup horder
    exact (List.subperm_of_subset hnodup.of_map hsub).trans (hp _ (List.mem_singleton_self _))
  | call _ _ _ hdims =>
    refine Typing.dims_subperm (fun o ho => ?_) hdims
    obtain ⟨p, hmem, rfl⟩ := List.mem_map.mp ho
    exact hp p hmem

/-- All axes of a node are axes of the inputs, each of them no more often than there. -/
theorem Typed.dims_subperm (ht : Typed c Fit s) (i : Nat) : List.Subperm (s.dims i) (Plan.inputDims s).flatten := by
  -- By induction on the number: the parents of a node stand before it.
  induction i using Nat.strongRecOn with
  | ind i ih =>
    rcases Nat.lt_or_ge i s.count with hi | hi
    · obtain ⟨n, hn⟩ := exists_node hi
      refine (ht.axes hn).subperm (fun p hp => ih p ((ht.node i n hn).1 p hp)) fun name hkind => ?_
      have hmem : s.dims i ∈ Plan.inputDims s := Plan.dims_mem_inputDims (hkind ▸ kind_of_node hn)
      exact (List.sublist_flatten_of_mem hmem).subperm
    · rw [dims_of_le hi]
      exact List.nil_subperm

/-- The axes of an input of a dataset from a document are bounded together, those of length zero left out. -/
theorem Plan.extent_lt {text : String} {d : Dataset} (hd : Dataset.read text = .ok d) (hs : c.source = d.source)
    (ht : Typed c Fit s) {t : Signature} (h : t ∈ Plan.inputDims s) : t.extent < 2 ^ 63 := by
  obtain ⟨i, name, hk, rfl⟩ := Plan.mem_inputDims h
  obtain ⟨-, m, hm, hdims⟩ := ht.operand hk
  rw [hs] at hm
  obtain ⟨y, hy, rfl⟩ := Option.map_eq_some_iff.mp hm
  have hfits := of_decide_eq_true (Dataset.read_fits hd name y hy)
  have hlengths : (s.dims i).lengths = y.data.shape := by
    have hall : (s.dims i).map (·.length) = y.data.shape.map some := by
      rw [hdims, lengths_renamed]
      exact Dataset.read_sound hd name y hy
    calc (s.dims i).lengths = ((s.dims i).map (·.length)).map (·.getD 1) := by
          rw [List.map_map]; rfl
      _ = y.data.shape := by rw [hall, List.map_map]; exact List.map_id _
  unfold extent
  rw [hlengths]
  exact hfits

end

/-! ### Plans -/

namespace Plan

/-- Planning stays in the 64-bit words: with the products over the axes of inputs and of streamed nodes, and with the
    bytes per step, which the budget is divided by. -/
structure Safe (v : ResolvedVariable) (config : Config) (roles : List Role) : Prop where
  inputs : ∀ s ∈ inputDims v.store, s.Counted none
  streamed : ∀ i < v.store.count, (planOf v config roles).streamed i = true →
    (v.store.dims i).Counted (dimensionFor v config)
  bytes : 8 * elementsPerStep v.store (dimensionFor v config) roles < 2 ^ 64
  divisor : 8 * elementsPerStep v.store (dimensionFor v config) roles % 2 ^ 64 ≠ 0

section
variable {functions : Functions} {v : ResolvedVariable} {config : Config} {p : Progress}

theorem safe_iff (h : rolesFor v config functions = .ok p) (hinputs : ∀ s ∈ inputDims v.store, s.Counted none) :
    Safe v config p.roles ↔ (∀ i < v.store.count, (planOf v config p.roles).streamed i = true →
      (v.store.dims i).Counted (dimensionFor v config)) ∧ Countable v (planOf v config p.roles) := by
  constructor
  · intro hsafe
    refine ⟨hsafe.streamed, fun i hi hs => ?_⟩
    have hcounted : (v.store.dims i).elements (dimensionFor v config) < 2 ^ 64 :=
      hsafe.streamed i hi hs _ List.prefix_rfl
    have hle := ((elementsPerStep_le_iff h).mp (Nat.le_refl _)).2 i hi hs
    rw [elementsExcluding_eq, Nat.mod_eq_of_lt hcounted] at hle
    exact Nat.lt_of_le_of_lt (Nat.mul_le_mul_left 8 hle) hsafe.bytes
  · rintro ⟨hstreamed, hsize⟩
    have hbytes := bytesPerStep_lt h hsize
    have hone : 1 ≤ elementsPerStep v.store (dimensionFor v config) p.roles := Nat.le_max_left ..
    refine ⟨hinputs, hstreamed, hbytes, ?_⟩
    rw [Nat.mod_eq_of_lt hbytes]
    omega

end

/-- The axes of each input of a document can be counted. Planning is safe exactly if those of all streamed nodes can,
    and the bytes that they need per step. No node has more elements than there are if axes of length zero are left out
    and all inputs are combined, so it is safe if the bytes of that many can be counted. -/
theorem build_safe_iff {text name : String} {d : Dataset} {c : Resolution.Context} {definitions : Definitions}
    {w : CompiledVariable} {target : Target} {v : ResolvedVariable} (config : Config)
    (hd : Dataset.read text = .ok d) (hs : c.source = d.source)
    (hw : (Compilation.compile c.functions c.source definitions).compiled.get? name = some w)
    (hv : Resolution.resolve c w target = .ok v) :
    ∃ p, rolesFor v config c.functions = .ok p ∧
      (∀ s ∈ inputDims v.store, ∀ along l, l <+: s.lengthsExcluding along → l.prod < 2 ^ 63) ∧
      (∀ i along l, l <+: (v.store.dims i).lengthsExcluding along →
        l.prod ≤ ((inputDims v.store).map extent).prod) ∧
      (Safe v config p.roles ↔ (∀ i < v.store.count, (planOf v config p.roles).streamed i = true →
        (v.store.dims i).Counted (dimensionFor v config)) ∧ Countable v (planOf v config p.roles)) ∧
      (8 * ((inputDims v.store).map extent).prod < 2 ^ 64 → Safe v config p.roles) := by
  have ht := (Resolution.resolved_of_compiled hw hv).typed
  obtain ⟨p, hp⟩ := exists_roles ht (dimensionFor v config)
  have hinput : ∀ s ∈ inputDims v.store, ∀ along l, l <+: s.lengthsExcluding along → l.prod < 2 ^ 63 :=
    fun s hmem _ _ hl => Nat.lt_of_le_of_lt (prefix_prod_le (List.Subperm.refl s) hl) (extent_lt hd hs ht hmem)
  have hnode : ∀ i along l, l <+: (v.store.dims i).lengthsExcluding along →
      l.prod ≤ ((inputDims v.store).map extent).prod := by
    intro i along l hl
    rw [← extent_flatten]
    exact prefix_prod_le (ht.dims_subperm i) hl
  have hiff := safe_iff hp fun s hmem l hl => Nat.lt_trans (hinput s hmem none l hl) (by decide)
  refine ⟨p, hp, hinput, hnode, hiff, fun hsmall => hiff.mpr ⟨fun i _ _ l hl => ?_, fun i _ _ => ?_⟩⟩
  · have := hnode i _ l hl
    omega
  · have := hnode i (planOf v config p.roles).dimension _ List.prefix_rfl
    unfold elements
    omega

/-- Two times, no height, and very many longitudes: no values at all. -/
def heightlessText : String :=
  "\x7b\"variables\": \x7b\"a\": \x7b\"dimensions\": [\"time\", \"z\", \"x\"], \"units\": \"K\", " ++
    "\"shape\": [2, 0, 2305843009213693953], \"values\": []\x7d\x7d\x7d"

def heightless (d : Dataset) : Resolution.Context := ⟨.builtins, d.source, Measure.linear, .empty⟩

/-- The sum over all heights takes eight bytes more than 64 bits can count for each time. The budget is divided by 8
    instead, and one chunk has both times. -/
theorem build_safe_iff_heightless : ∃ d w v p, Dataset.read heightlessText = .ok d ∧
    (Compilation.compile .builtins d.source (.ofList [("out", "sum(a, dim='z')")])).compiled.get? "out" = some w ∧
    Resolution.resolve (heightless d) w ⟨["time", "x"], "K", .empty⟩ = .ok v ∧
    rolesFor v Config.standard .builtins = .ok p ∧
    ¬Safe v Config.standard p.roles ∧
    build v .builtins Config.standard = .ok (planOf v Config.standard p.roles) ∧
    (planOf v Config.standard p.roles).chunks = [(0, 2)] ∧
    Config.standard.memoryBudget < 8 * (v.store.dims v.root).elements (dimensionFor v Config.standard) := by
  have hfacts : ∃ d ∈ (Dataset.read heightlessText).toOption,
      ∃ w ∈ (Compilation.compile .builtins d.source (.ofList [("out", "sum(a, dim='z')")])).compiled.get? "out",
      ∃ v ∈ (Resolution.resolve (heightless d) w ⟨["time", "x"], "K", .empty⟩).toOption,
      ∃ plan ∈ (build v .builtins Config.standard).toOption,
        v.root < v.store.count ∧ plan.streamed v.root = true ∧ plan.chunks = [(0, 2)] ∧
        8 * (v.store.dims v.root).elements (dimensionFor v Config.standard) = 2 ^ 64 + 8 := by
    decide +kernel
  obtain ⟨d, hd, w, hw, v, hv, plan, hplan, hlt, hs, hchunks, hbytes⟩ := hfacts
  have hd := toOption_eq_some.mp hd
  have hv := toOption_eq_some.mp hv
  have hplan := toOption_eq_some.mp hplan
  obtain ⟨p, hp, -, -, hiff, -⟩ := build_safe_iff (c := heightless d) Config.standard hd rfl hw hv
  obtain ⟨p', hp', rfl⟩ := build_eq_ok hplan
  cases hp.symm.trans hp'
  refine ⟨d, w, v, p, hd, hw, hv, hp, fun hsafe => ?_, hplan, hchunks, ?_⟩
  · have hlt : 8 * (v.store.dims v.root).elements (dimensionFor v Config.standard) < 2 ^ 64 :=
      (hiff.mp hsafe).2 v.root hlt hs
    omega
  · rw [hbytes]
    decide +kernel

end Plan
end Concord
