import Concord.Proofs.Evaluate.Coverage
import Concord.Proofs.Evaluate.Cutting
import Concord.Proofs.Resolve.Distinct

/-! The roles of a plan in terms of the graph: what is streamed, what carries state along which axis, and how many
    passes are needed. The level of a node is the largest number of reductions along the dimension that is cut on a
    path to it. -/

namespace Concord

open NodeStore Signature

/-! ### Calls along a dimension -/

/-- A node calls a function along a dimension. -/
def NodeStore.CallsAlong (functions : Functions) (s : NodeStore) (i : Nat) (f : FunctionSpec) (d : String) : Prop :=
  ∃ function options, s.kind? i = some (.call function options) ∧
    functions.get? function (s.parents i).length = some f ∧ options.text? "dim" = some d

section
variable {c : Resolution.Context} {Fit : String → CallOptions → Prop} {s : NodeStore} {i : Nat} {f : FunctionSpec}
  {d : String}

/-- A reduction or scan has one array, with the axis that it goes along; a reduction takes this axis away. -/
theorem NodeStore.CallsAlong.parent (h : s.CallsAlong c.functions i f d) (ht : Typed c Fit s)
    (hsingle : c.functions.Single) (hshape : f.shape = .reduce ∨ f.shape = .scan) :
    ∃ p, s.parents i = [p] ∧ d ∈ (s.dims p).names ∧
      s.dims i = if f.shape = .reduce then (s.dims p).without d else s.dims p := by
  obtain ⟨function, options, hk, hf, hd⟩ := h
  obtain ⟨n, hn, hkind⟩ := Option.map_eq_some_iff.mp hk
  obtain ⟨hmem, -, harity⟩ := Functions.get?_eq_some hf
  obtain ⟨p, hp⟩ := List.length_eq_one_iff.mp (harity.symm.trans (hsingle f hmem hshape))
  have haxes := ht.axes hn
  rw [hkind, ← parents_of_node hn] at haxes
  cases haxes with
  | call hf' _ _ hdims =>
    cases hf.symm.trans hf'
    obtain ⟨d', hd', hin, hout⟩ := dims_along hshape hdims
    cases hd.symm.trans hd'
    rw [hp, Engine.firstDims_map] at hin hout
    exact ⟨p, hp, hin, hout⟩

end

namespace Plan

variable {c : Resolution.Context} {Fit : String → CallOptions → Prop} {v : ResolvedVariable} {plan : Plan}
  {i axis : Nat} {f : FunctionSpec} {d : String}

/-! ### Roles -/

section
variable (ht : Typed c Fit v.store) (hp : Planned c.functions v plan) (hsingle : c.functions.Single)
include ht hp hsingle

/-- State is carried along the dimension that is cut only, by what goes along it. -/
theorem carriedAxis_iff {function : String} {options : CallOptions} (hk : v.store.kind? i = some (.call function options))
    (hf : c.functions.get? function (v.store.parents i).length = some f) :
    carriedAxis v.store plan.dimension plan.roles f options (v.store.parents i) = some axis ↔
      ∃ d p, plan.dimension = some d ∧ (f.shape = .reduce ∨ f.shape = .scan) ∧ options.text? "dim" = some d ∧
        v.store.parents i = [p] ∧ (v.store.dims p).position d = some axis := by
  constructor
  · intro h
    obtain ⟨d, p, rest, hd, hparents, hshape, hdim, -, haxis⟩ := carriedAxis_eq_some h
    obtain ⟨q, hq, -⟩ := CallsAlong.parent ⟨function, options, hk, hf, hd⟩ ht hsingle hshape
    obtain ⟨rfl, -⟩ := List.cons.inj (hparents.symm.trans hq)
    exact ⟨d, p, hdim, hshape, hd, hq, haxis⟩
  · rintro ⟨d, p, hdim, hshape, hd, hparents, haxis⟩
    have hs : (plan.roles[p]?).any (·.streamed) = true := by
      rw [Planned.any_streamed, hp.streamed_along hdim, ← named_iff]
      unfold named
      rw [haxis]
      rfl
    unfold carriedAxis
    rw [hd, hparents]
    exact (if_pos ⟨hshape, hdim, hs⟩).trans haxis

theorem carried_eq_some_iff : (plan.role i).carried = some axis ↔
    ∃ d f p, plan.dimension = some d ∧ (f.shape = .reduce ∨ f.shape = .scan) ∧
      v.store.CallsAlong c.functions i f d ∧ v.store.parents i = [p] ∧ (v.store.dims p).position d = some axis := by
  constructor
  · intro h
    have hlt : i < v.store.count := by
      by_contra hge
      rw [hp.role_of_le (Nat.le_of_not_lt hge)] at h
      cases h
    obtain ⟨n, hn⟩ := exists_node hlt
    by_cases hk : ∀ function options, n.kind ≠ .call function options
    · rw [(hp.other hn hk).2.1] at h
      cases h
    · simp only [not_forall, not_not] at hk
      obtain ⟨function, options, hk⟩ := hk
      obtain ⟨f, hf⟩ := hp.call hn hk
      have hkind : v.store.kind? i = some (.call function options) := hk ▸ kind_of_node hn
      rw [hf.carried, carriedAxis_iff ht hp hsingle hkind hf.found] at h
      obtain ⟨d, p, hdim, hshape, hd, hrest⟩ := h
      exact ⟨d, f, p, hdim, hshape, ⟨function, options, hkind, hf.found, hd⟩, hrest⟩
  · rintro ⟨d, f, p, hdim, hshape, ⟨function, options, hk, hf, hd⟩, hrest⟩
    obtain ⟨n, hn, hkind⟩ := Option.map_eq_some_iff.mp hk
    obtain ⟨f', hf'⟩ := hp.call hn hkind
    cases hf.symm.trans hf'.found
    rw [hf'.carried, carriedAxis_iff ht hp hsingle hk hf]
    exact ⟨d, p, hdim, hshape, hd, hrest⟩

theorem carried_isSome_iff : (plan.role i).carried.isSome = true ↔
    ∃ d f, plan.dimension = some d ∧ (f.shape = .reduce ∨ f.shape = .scan) ∧ v.store.CallsAlong c.functions i f d := by
  rw [Option.isSome_iff_exists]
  constructor
  · rintro ⟨axis, h⟩
    obtain ⟨d, f, -, hdim, hshape, hcalls, -⟩ := (carried_eq_some_iff ht hp hsingle).mp h
    exact ⟨d, f, hdim, hshape, hcalls⟩
  · rintro ⟨d, f, hdim, hshape, hcalls⟩
    obtain ⟨p, hparents, hmem, -⟩ := hcalls.parent ht hsingle hshape
    exact ⟨_, (carried_eq_some_iff ht hp hsingle).mpr
      ⟨d, f, p, hdim, hshape, hcalls, hparents, position_of_mem hmem⟩⟩

/-- What accumulates is what takes away the dimension that is cut. -/
theorem accumulates_iff : plan.accumulates i = true ↔
    ∃ d f, plan.dimension = some d ∧ f.shape = .reduce ∧ v.store.CallsAlong c.functions i f d := by
  unfold accumulates
  rw [Bool.and_eq_true, carried_isSome_iff ht hp hsingle, Bool.not_eq_true']
  constructor
  · rintro ⟨⟨d, f, hdim, hshape, hcalls⟩, hs⟩
    refine ⟨d, f, hdim, hshape.resolve_right fun hscan => ?_, hcalls⟩
    -- A scan has the axes of its array, so it is streamed.
    obtain ⟨p, -, hmem, hdims⟩ := hcalls.parent ht hsingle hshape
    rw [if_neg (by rw [hscan]; decide)] at hdims
    rw [(hp.streamed_along hdim).mpr (hdims ▸ hmem)] at hs
    cases hs
  · rintro ⟨d, f, hdim, hshape, hcalls⟩
    obtain ⟨p, -, -, hdims⟩ := hcalls.parent ht hsingle (.inl hshape)
    refine ⟨⟨d, f, hdim, .inl hshape, hcalls⟩, Bool.eq_false_iff.mpr fun hs => ?_⟩
    rw [hp.streamed_along hdim, hdims, if_pos hshape] at hs
    exact not_mem_without _ _ hs

/-- The plan is blocked by reductions along the dimension that is cut that are not put together from parts. -/
theorem blocks_iff {n : Node} (hn : v.store.node? i = some n) :
    Blocks c.functions v.store plan.dimension plan.roles n ↔
      ∃ d f, plan.dimension = some d ∧ f.shape = .reduce ∧ f.chunkAssociative = false ∧
        v.store.CallsAlong c.functions i f d := by
  unfold Blocks
  rw [← parents_of_node hn]
  constructor
  · rintro ⟨function, options, f, hk, hf, hcarried, hshape, hassociative⟩
    have hkind : v.store.kind? i = some (.call function options) := hk ▸ kind_of_node hn
    obtain ⟨axis, haxis⟩ := Option.isSome_iff_exists.mp hcarried
    obtain ⟨d, -, hdim, -, hd, -⟩ := (carriedAxis_iff ht hp hsingle hkind hf).mp haxis
    exact ⟨d, f, hdim, hshape, hassociative, function, options, hkind, hf, hd⟩
  · rintro ⟨d, f, hdim, hshape, hassociative, hcalls⟩
    obtain ⟨p, hparents, hmem, -⟩ := hcalls.parent ht hsingle (.inl hshape)
    obtain ⟨function, options, hk, hf, hd⟩ := hcalls
    refine ⟨function, options, f, Option.some.inj ((kind_of_node hn).symm.trans hk), hf, ?_, hshape, hassociative⟩
    rw [(carriedAxis_iff ht hp hsingle hk hf).mpr
      ⟨d, p, hdim, .inl hshape, hd, hparents, position_of_mem hmem⟩]
    rfl

end

/-! ### Levels -/

/-- A path along parents, from the node that it ends at back to where it starts. -/
inductive PathTo (s : NodeStore) : Nat → List Nat → Prop
  | here {i : Nat} : PathTo s i [i]
  | there {i p : Nat} {path : List Nat} (hp : p ∈ s.parents i) (h : PathTo s p path) : PathTo s i (i :: path)

section
variable {e : Engine} (ho : e.Ordered)
include ho

/-- No path has more reductions on it than the level of its end. -/
theorem countP_le_level {path : List Nat} (h : PathTo e.store i path) :
    path.countP e.plan.accumulates ≤ (e.plan.role i).level := by
  induction h with
  | @here i =>
    rw [List.countP_singleton]
    split
    · rename_i ha
      obtain ⟨p, -, -, hlevel⟩ := ho.fed i ha
      omega
    · exact Nat.zero_le _
  | @there i p path hparent _ ih =>
    rw [List.countP_cons]
    split
    · rename_i ha
      obtain ⟨q, hq, -, hlevel⟩ := ho.fed i ha
      rw [hq, List.mem_singleton] at hparent
      rw [hlevel, ← hparent]
      exact Nat.succ_le_succ ih
    · rename_i ha
      exact Nat.le_trans ih (ho.level i (Bool.eq_false_iff.mpr ha) p hparent)

/-- A path has as many, if the level of a node that does not accumulate is 0 or that of a parent. -/
theorem exists_path (hfrom : ∀ i, e.plan.accumulates i = false → (e.plan.role i).level = 0 ∨
      ∃ p ∈ e.store.parents i, (e.plan.role i).level = (e.plan.role p).level) (i : Nat) :
    ∃ path, PathTo e.store i path ∧ path.countP e.plan.accumulates = (e.plan.role i).level := by
  -- By induction on the number: the parents of a node stand before it.
  induction i using Nat.strongRecOn with
  | ind i ih =>
    cases ha : e.plan.accumulates i with
    | true =>
      obtain ⟨p, hparents, -, hlevel⟩ := ho.fed i ha
      have hmem : p ∈ e.store.parents i := hparents ▸ List.mem_singleton_self p
      obtain ⟨path, hpath, hcount⟩ := ih p (ho.below i p hmem)
      exact ⟨i :: path, .there hmem hpath, by rw [List.countP_cons_of_pos ha, hcount, hlevel]⟩
    | false =>
      have hnot : ¬e.plan.accumulates i = true := Bool.eq_false_iff.mp ha
      rcases hfrom i ha with hzero | ⟨p, hmem, hlevel⟩
      · exact ⟨[i], .here, by rw [List.countP_cons_of_neg hnot, hzero, List.countP_nil]⟩
      · obtain ⟨path, hpath, hcount⟩ := ih p (ho.below i p hmem)
        exact ⟨i :: path, .there hmem hpath, by rw [List.countP_cons_of_neg hnot, hcount, hlevel]⟩

end

theorem foldl_max_eq (l : List Nat) : ∀ a, l.foldl max a = a ∨ l.foldl max a ∈ l := by
  induction l with
  | nil => exact fun a => .inl rfl
  | cons x l ih =>
    intro a
    rcases ih (max a x) with h | h
    · rw [List.foldl_cons, h]
      rcases Nat.le_total a x with hle | hle
      · exact .inr (by rw [Nat.max_eq_right hle]; exact List.mem_cons_self)
      · exact .inl (Nat.max_eq_left hle)
    · exact .inr (List.mem_cons_of_mem x h)

/-- The largest level of some parents is that of one of them. -/
theorem levelOf_eq (plan : Plan) (parents : List Nat) : levelOf plan.roles parents false = 0 ∨
    ∃ p ∈ parents, levelOf plan.roles parents false = (plan.role p).level := by
  unfold levelOf
  rw [if_neg Bool.false_ne_true]
  refine (foldl_max_eq _ 0).imp_right fun h => ?_
  obtain ⟨p, hp, heq⟩ := List.mem_map.mp h
  exact ⟨p, hp, heq.symm.trans (Planned.role_level plan p)⟩

theorem level_isGreatest (hv : Resolution.Resolved c Fit v) (hp : Planned c.functions v plan)
    (hsingle : c.functions.Single) (i : Nat) :
    IsGreatest {n | ∃ path, PathTo v.store i path ∧ path.countP plan.accumulates = n} (plan.role i).level := by
  have ho := Engine.ordered hv hp hsingle c.source c.converter
  refine ⟨exists_path ho (fun i ha => ?_) i, ?_⟩
  · rcases Nat.lt_or_ge i v.store.count with hi | hi
    · have hlevel : (plan.role i).level = levelOf plan.roles (v.store.parents i) false :=
        Engine.level_of_not_accumulates hv.typed hp hi ha
      have hfrom := levelOf_eq plan (v.store.parents i)
      rwa [← hlevel] at hfrom
    · exact .inl (congrArg (·.level) (hp.role_of_le hi))
  · rintro n ⟨path, hpath, rfl⟩
    exact countP_le_level ho hpath

/-! ### Plans -/

/-- What the roles of a plan say of the graph. -/
structure Assigned (functions : Functions) (v : ResolvedVariable) (plan : Plan) : Prop where
  root : plan.root = v.root
  streamed : ∀ i, plan.streamed i = true ↔ ∃ d, plan.dimension = some d ∧ d ∈ (v.store.dims i).names
  settled : ∀ i p, p ∈ v.store.parents i → plan.streamed p = true → plan.streamed i = false →
    plan.accumulates i = true
  accumulates : ∀ i, plan.accumulates i = true ↔
    ∃ d f, plan.dimension = some d ∧ f.shape = .reduce ∧ v.store.CallsAlong functions i f d
  carried : ∀ i, (plan.role i).carried.isSome = true ↔ ∃ d f, plan.dimension = some d ∧
    (f.shape = .reduce ∨ f.shape = .scan) ∧ v.store.CallsAlong functions i f d
  axis : ∀ i axis, (plan.role i).carried = some axis → ∃ d p, plan.dimension = some d ∧ v.store.parents i = [p] ∧
    ∀ k, (v.store.dims p).names[k]? = some d ↔ k = axis
  level : ∀ i, IsGreatest {n | ∃ path, PathTo v.store i path ∧ path.countP plan.accumulates = n} (plan.role i).level
  passes : plan.passes = (plan.role plan.root).level + if plan.rootStreamed then 1 else 0

/-- If the names of the axes of a node differ, an axis is found by its name alone. -/
theorem getElem?_names_iff {s : Signature} (hn : s.names.Nodup) (h : s.position d = some axis) {k : Nat} :
    s.names[k]? = some d ↔ k = axis := by
  have hmem : d ∈ s.names := by
    by_contra hnot
    rw [position_of_not_mem hnot] at h
    cases h
  cases Option.some.inj ((position_of_mem hmem).symm.trans h)
  constructor
  · intro hk
    obtain ⟨hlt, rfl⟩ := List.getElem?_eq_some_iff.mp hk
    exact (hn.idxOf_getElem k hlt).symm
  · rintro rfl
    have hlt := List.idxOf_lt_length_of_mem hmem
    rw [List.getElem?_eq_getElem hlt, List.getElem_idxOf hlt]

theorem assigned_of_planned (hv : Resolution.Resolved c Fit v) (hp : Planned c.functions v plan)
    (hf : c.functions = .builtins) (hnames : ∀ i, (v.store.dims i).names.Nodup) : Assigned c.functions v plan := by
  have hsingle : c.functions.Single := hf ▸ Functions.builtins_single
  have hconfined := Engine.confined_of_planned hv hp (hf ▸ Functions.builtins_oneArray) c.source c.converter
  refine ⟨hp.root, fun i => hp.streamed_iff, fun i p hparent hs hi => ?_, fun i => accumulates_iff hv.typed hp hsingle,
    fun i => carried_isSome_iff hv.typed hp hsingle, fun i axis h => ?_, level_isGreatest hv hp hsingle, hp.passes⟩
  · exact (hconfined i p hparent hs).resolve_left fun hsi => by cases hi.symm.trans hsi
  · obtain ⟨d, -, p, hdim, -, -, hparents, haxis⟩ := (carried_eq_some_iff hv.typed hp hsingle).mp h
    exact ⟨d, p, hdim, hparents, fun _ => getElem?_names_iff (hnames p) haxis⟩

/-- A reduction along the dimension that is cut is not put together from parts. -/
def Blocked (functions : Functions) (v : ResolvedVariable) (config : Config) : Prop :=
  ∃ i d f, dimensionFor v config = some d ∧ f.shape = .reduce ∧ f.chunkAssociative = false ∧
    v.store.CallsAlong functions i f d

theorem hasLayouts_of_typed {s : NodeStore} (ht : Typed c Fit s) : hasLayouts s = true := by
  refine List.all_eq_true.mpr fun n hn => ?_
  obtain ⟨i, hi⟩ := List.mem_iff_getElem?.mp hn
  obtain ⟨-, a, ha, -⟩ := ht.node i n hi
  rw [ha]
  rfl

theorem refused_iff {config : Config} {p : Progress} (ht : Typed c Fit v.store) (hsingle : c.functions.Single)
    (h : rolesFor v config c.functions = .ok p) :
    Refused v config p ↔ Blocked c.functions v config ∧ 1 < (planOf v config p.roles).chunks.length := by
  have hb : v.store.ParentsBelow := fun i p hp => ht.parents_lt hp
  have hplanned := planned_planOf hb h
  have hblocked : p.blocking.isSome = true ↔ Blocked c.functions v config := by
    rw [(foldlM_addRole hb h).blocking]
    constructor
    · rintro ⟨i, n, hn, hblocks⟩
      obtain ⟨d, f, hcase⟩ := (blocks_iff ht hplanned hsingle hn).mp hblocks
      exact ⟨i, d, f, hcase⟩
    · rintro ⟨i, d, f, hcase⟩
      obtain ⟨-, -, -, function, options, hk, -⟩ := id hcase
      obtain ⟨n, hn, -⟩ := Option.map_eq_some_iff.mp hk
      exact ⟨i, n, hn, (blocks_iff ht hplanned hsingle hn).mpr ⟨d, f, hcase⟩⟩
  unfold Refused
  rw [hblocked]
  refine and_congr_right fun ⟨_, d, _, hd, _⟩ => ⟨And.right, fun hchunks => ⟨?_, hchunks⟩⟩
  rw [hd]
  rfl

/-- The plan of a variable that is resolved over the builtin functions, and whose inputs have axes of different names.
    It is made unless a reduction along the dimension that is cut is not put together from parts, and there are several
    chunks. -/
theorem build_assigned {source : Source} {definitions : Definitions} {name : String} {w : CompiledVariable}
    {converter : Measure.Converter} {dimensionMap : NameMap String} {target : Target} {v : ResolvedVariable}
    (hw : (Compilation.compile .builtins source definitions).compiled.get? name = some w)
    (hv : Resolution.resolve ⟨.builtins, source, converter, dimensionMap⟩ w target = .ok v)
    (hnames : ∀ i input, v.store.kind? i = some (.operand input) → (v.store.dims i).names.Nodup) (config : Config) :
    ∃ p, rolesFor v config .builtins = .ok p ∧
      Assigned .builtins v (planOf v config p.roles) ∧
      (∀ plan, build v .builtins config = .ok plan ↔ plan = planOf v config p.roles ∧
        ¬(Blocked .builtins v config ∧ 1 < (planOf v config p.roles).chunks.length)) ∧
      ((∃ function d, build v .builtins config = .error (.nonAssociativeReduction function d)) ↔
        Blocked .builtins v config ∧ 1 < (planOf v config p.roles).chunks.length) := by
  have hresolved := Resolution.resolved_of_compiled (c := ⟨.builtins, source, converter, dimensionMap⟩) hw hv
  have ht := hresolved.typed
  have hdistinct : ∀ i, (v.store.dims i).names.Nodup := Resolution.nodup_of_inputs ht fun i input m hk hm => by
    obtain ⟨-, m', hm', hdims⟩ := ht.operand hk
    cases hm.symm.trans hm'
    exact hdims ▸ hnames i input hk
  obtain ⟨p, hp⟩ := exists_roles ht (dimensionFor v config)
  have hbuild : build v .builtins config = accept v config p := by
    rw [build_eq, hasLayouts_of_typed ht]
    exact congrArg (· >>= accept v config) hp
  have hplanned := planned_planOf (fun i p hp => ht.parents_lt hp) hp
  refine ⟨p, hp, assigned_of_planned hresolved hplanned rfl hdistinct, fun plan => ?_, ?_⟩
  all_goals rw [hbuild, ← refused_iff ht Functions.builtins_single hp]
  · constructor
    · intro h
      refine ⟨accept_eq_ok h, fun hr => ?_⟩
      obtain ⟨function, d, herror⟩ := accept_of_refused hr
      cases h.symm.trans herror
    · rintro ⟨rfl, hr⟩
      exact accept_of_not_refused hr
  · refine ⟨fun ⟨function, d, herror⟩ => ?_, accept_of_refused⟩
    by_contra hr
    cases herror.symm.trans (accept_of_not_refused hr)

/-- Temperatures of ten times and four latitudes. -/
def climate : Resolution.Context := ⟨.builtins, (bands 4 128).source, Measure.linear, .empty⟩

def departures : Definitions :=
  .ofList [("anomaly", "tas - mean(tas, dim='time')"), ("middle", "median(tas, dim='time')")]

/-- Four times are a chunk. -/
def fourTimes : Config := { Config.standard with chunkLength := some 4 }

/-- The anomaly needs a second pass, after the mean. The median is not put together from chunks. -/
theorem build_assigned_departures :
    (∃ w v plan, (Compilation.compile .builtins climate.source departures).compiled.get? "anomaly" = some w ∧
      Resolution.resolve climate w ⟨["time", "lat"], "K", .empty⟩ = .ok v ∧ build v .builtins fourTimes = .ok plan ∧
      Assigned .builtins v plan ∧ plan.chunks.length = 3 ∧ plan.passes = 2 ∧
      IsGreatest {n | ∃ path, PathTo v.store v.root path ∧ path.countP plan.accumulates = n} 1) ∧
    ∃ w v, (Compilation.compile .builtins climate.source departures).compiled.get? "middle" = some w ∧
      Resolution.resolve climate w ⟨["lat"], "K", .empty⟩ = .ok v ∧ Blocked .builtins v fourTimes ∧
      ∃ function d, build v .builtins fourTimes = .error (.nonAssociativeReduction function d) := by
  constructor
  · have hfacts : ∃ w ∈ (Compilation.compile .builtins climate.source departures).compiled.get? "anomaly",
        ∃ v ∈ (Resolution.resolve climate w ⟨["time", "lat"], "K", .empty⟩).toOption,
        ∃ plan ∈ (build v .builtins fourTimes).toOption,
          (∀ i < v.store.count, (v.store.dims i).names.Nodup) ∧ plan.chunks.length = 3 ∧ plan.passes = 2 ∧
            (plan.role v.root).level = 1 := by
      decide +kernel
    obtain ⟨w, hw, v, hv, plan, hplan, hnames, hchunks, hpasses, hlevel⟩ := hfacts
    have hv := toOption_eq_some.mp hv
    have hplan := toOption_eq_some.mp hplan
    obtain ⟨p, -, hassigned, hbuild, -⟩ :=
      build_assigned hw hv (fun i _ hk => hnames i (lt_of_kind hk)) fourTimes
    obtain ⟨rfl, -⟩ := (hbuild plan).mp hplan
    exact ⟨w, v, _, hw, hv, hplan, hassigned, hchunks, hpasses, hlevel ▸ hassigned.level v.root⟩
  · have hfacts : ∃ w ∈ (Compilation.compile .builtins climate.source departures).compiled.get? "middle",
        ∃ v ∈ (Resolution.resolve climate w ⟨["lat"], "K", .empty⟩).toOption,
        (∀ i < v.store.count, (v.store.dims i).names.Nodup) ∧
          (build v .builtins fourTimes).toOption.isSome = false := by
      decide +kernel
    obtain ⟨w, hw, v, hv, hnames, hfails⟩ := hfacts
    have hv := toOption_eq_some.mp hv
    obtain ⟨p, -, -, hbuild, herror⟩ :=
      build_assigned hw hv (fun i _ hk => hnames i (lt_of_kind hk)) fourTimes
    have hrefused : Blocked .builtins v fourTimes ∧ 1 < (planOf v fourTimes p.roles).chunks.length := by
      by_contra hnot
      rw [(hbuild _).mpr ⟨rfl, hnot⟩] at hfails
      cases hfails
    exact ⟨w, v, hw, hv, hrefused.1, herror.mpr hrefused⟩

end Plan
end Concord
