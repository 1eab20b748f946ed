import Concord.Proofs.Conformance
import Concord.Proofs.Evaluate.NodeParts
import Concord.Proofs.Evaluate.Readings

/-! How much of its inputs a run reads. The length to cut is that of one input, and all inputs that have the
    dimension are read up to it: those that are longer are read in part. -/

namespace Concord

open NodeStore Signature

/-! ### Datasets from documents -/

theorem Grid.shape_ofList {α : Type} {shape : List Nat} {values : List α} {g : Grid α}
    (h : Grid.ofList shape values = .ok g) : g.shape = shape := by
  unfold Grid.ofList at h
  split at h
  · cases h
  split at h
  · cases h
    rfl
  · split at h <;> cases h

namespace Dataset

variable {d : Dataset} {input : String} {y : InputVariable}

theorem ofEntry_eq_ok {e : Entry} (h : ofEntry input e = .ok y) :
    ∃ shape : List Nat, shape.length = e.dimensions.length ∧ Grid.ofList shape e.values = .ok y.data ∧
      y.metadata.dims = e.dimensions.zipWith (fun n l => ⟨n, some l⟩) shape := by
  unfold ofEntry at h
  dsimp only at h
  split at h
  · cases h
  · rename_i hlen
    split at h
    · cases h
    · rename_i data hdata
      cases h
      exact ⟨_, not_not.mp hlen, hdata, rfl⟩

theorem ofEntry_lengths {e : Entry} (h : ofEntry input e = .ok y) :
    y.metadata.dims.map (·.length) = y.data.shape.map some := by
  obtain ⟨shape, hlen, hdata, hdims⟩ := ofEntry_eq_ok h
  rw [Grid.shape_ofList hdata, hdims, List.map_zipWith]
  exact List.ext_getElem (by simp [hlen]) fun k hk hk' => by simp

/-- What holds of each input that an entry stands for holds of all inputs of a document. -/
theorem ofEntries_all {P : InputVariable → Prop} (hP : ∀ name e x, ofEntry name e = .ok x → P x) :
    ∀ {entries : List (String × Entry)} {d d' : Dataset}, (∀ name x, d.get? name = some x → P x) →
      ofEntries d entries = .ok d' → ∀ name x, d'.get? name = some x → P x
  | [], _, _, hd, h => by
    cases h
    exact hd
  | (name, e) :: rest, d, d', hd, h => by
    obtain ⟨x, hx, h⟩ := bind_eq_ok.mp h
    refine ofEntries_all hP (fun key y hy => ?_) h
    rw [NameMap.get?_insert] at hy
    split at hy
    · cases hy
      exact hP name e x hx
    · exact hd key y hy

theorem read_all {P : InputVariable → Prop} (hP : ∀ name e x, ofEntry name e = .ok x → P x) {text : String}
    (h : read text = .ok d) : ∀ name x, d.get? name = some x → P x := by
  unfold read at h
  dsimp only at h
  split at h
  · cases h
  · split at h
    · rename_i hentries
      cases h
      exact ofEntries_all hP (fun _ _ hx => by cases hx) hentries
    · cases h

/-- The arrays of a dataset from a document have the lengths that their axes say. -/
theorem read_sound {text : String} (h : read text = .ok d) : d.Sound := read_all (fun _ _ _ => ofEntry_lengths) h

theorem Sound.length_eq (h : d.Sound) (hy : d.get? input = some y) {axis : Nat} {a : Dimension}
    (ha : y.metadata.dims[axis]? = some a) : a.length = some (y.data.length axis) := by
  have hlengths : (y.metadata.dims.map (·.length))[axis]? = (y.data.shape.map some)[axis]? := by rw [h input y hy]
  rw [List.getElem?_map, List.getElem?_map, ha, Option.map_some] at hlengths
  obtain ⟨l, hl, heq⟩ := Option.map_eq_some_iff.mp hlengths.symm
  rw [← heq, Grid.length, List.getD_eq_getElem?_getD, hl, Option.getD_some]

/-- An input of a variable that has the dimension to cut, and the axis that is cut: the first one that goes by
    its name in the output. -/
structure IsCut (d : Dataset) (map : NameMap String) (v : ResolvedVariable) (plan : Plan) (input : String)
    (y : InputVariable) (axis : Nat) : Prop where
  operand : ∃ i, v.store.kind? i = some (.operand input)
  found : d.get? input = some y
  axis : ∃ x, plan.dimension = some x ∧ (y.metadata.dims.renamed map).position x = some axis

end Dataset

/-- A reading of an input takes in a place of an axis. Bounds along another axis leave this one whole. -/
def InputVariable.Takes (y : InputVariable) (axis place : Nat) : Option Bounds → Prop
  | none => True
  | some b => y.metadata.dims.position b.dimension = some axis → b.start ≤ place ∧ place < b.stop

/-- All places of an axis of an input are taken in by readings of it. -/
def InputVariable.ReadWhole (y : InputVariable) (reads : List Reading) (input : String) (axis : Nat) : Prop :=
  ∀ place < y.data.length axis, ∃ bounds, (input, bounds) ∈ reads ∧ y.Takes axis place bounds

/-! ### Chunks -/

/-- Each place is in a chunk. -/
theorem Plan.Consecutive.exists_chunk {chunks : List (Nat × Nat)} {domain : Nat} {edge : Nat → Nat}
    (h : Consecutive chunks domain edge) {place : Nat} (hplace : place < domain) :
    ∃ c < chunks.length, edge c ≤ place ∧ place < edge (c + 1) := by
  have hbelow : ∀ n, place < edge n → ∃ c < n, edge c ≤ place ∧ place < edge (c + 1) := by
    intro n
    induction n with
    | zero =>
      intro hn
      rw [h.start] at hn
      exact absurd hn (Nat.not_lt_zero _)
    | succ n ih =>
      intro hn
      rcases Nat.lt_or_ge place (edge n) with hlt | hge
      · obtain ⟨c, hc, hin⟩ := ih hlt
        exact ⟨c, Nat.lt_succ_of_lt hc, hin⟩
      · exact ⟨n, Nat.lt_succ_self n, hge, hn⟩
  exact hbelow _ (h.stop ▸ hplace)

namespace Engine

theorem dims_of_layout {e : Engine} {i : Nat} {a : Layout} (ha : e.layout i = .ok a) : e.store.dims i = a.dims := by
  unfold layout at ha
  split at ha
  · rename_i l hl
    cases ha
    simp only [dims, hl, Option.map_some, Option.getD_some]
  · cases ha

/-- What depends on a streamed node is streamed, or takes its axis away, if arrays are broadcast or alone. -/
theorem confined_of_planned {c : Resolution.Context} {Fit : String → CallOptions → Prop} {v : ResolvedVariable}
    {plan : Plan} (hv : Resolution.Resolved c Fit v) (hp : Plan.Planned c.functions v plan)
    (hone : c.functions.OneArray) (source : Source) (converter : Measure.Converter) :
    (Engine.ofVariable v plan source converter).Confined := by
  intro i p hparent hs
  have hparent : p ∈ v.store.parents i := hparent
  obtain ⟨x, hx, hmem⟩ := hp.streamed_iff.mp hs
  have hlt : i < v.store.count := by
    by_contra hge
    rw [Engine.parents_of_le (Nat.le_of_not_lt hge)] at hparent
    cases hparent
  obtain ⟨n, hn⟩ := exists_node hlt
  rw [parents_of_node hn] at hparent
  rcases (hv.typed.axes hn).keeps hone hparent hmem with hin | ⟨function, options, f, hk, hd, hparents, hget, hshape⟩
  · exact .inl (hp.streamed_iff.mpr ⟨x, hx, hin⟩)
  · obtain ⟨f', hrole⟩ := hp.call hn hk
    rw [← parents_of_node hn] at hget hparents
    cases hrole.found.symm.trans hget
    have hcarried : (plan.role i).carried = some ((v.store.dims p).names.idxOf x) := by
      have hany : (plan.roles[p]?).any (·.streamed) = true := (Plan.Planned.any_streamed plan p).trans hs
      rw [hrole.carried, hparents]
      simp only [Plan.carriedAxis, hd, hshape, hx, hany, true_or, and_self, if_true, position_of_mem hmem]
    cases hsi : plan.streamed i with
    | true => exact .inl hsi
    | false =>
      refine .inr ?_
      show plan.accumulates i = true
      simp only [Plan.accumulates, hcarried, hsi, Option.isSome_some, Bool.not_false, Bool.and_true]

end Engine

namespace Prepared

variable {c : Resolution.Context} {d : Dataset} {v : ResolvedVariable} {plan : Plan} {i axis m : Nat}
  {input : String} {y : InputVariable}

/-! ### The graph -/

section
variable {Fit : String → CallOptions → Prop} (hv : Resolution.Resolved c Fit v) (hf : c.functions = .builtins)
  (hp : Plan.Planned c.functions v plan)
include hv hf hp

theorem confined : (engine c v plan).Confined :=
  Engine.confined_of_planned hv hp (hf ▸ Functions.builtins_oneArray) c.source c.converter

end

/-! ### Inputs that are cut -/

section
variable {Fit : String → CallOptions → Prop} (hv : Resolution.Resolved c Fit v) (hs : c.source = d.source)
  (hp : Plan.Planned c.functions v plan) (h : d.IsCut c.dimensionMap v plan input y axis)
include hv hs hp h

/-- An input that is cut is streamed, and read for a chunk within the bounds of this chunk. -/
theorem bounds_of_isCut : ∃ native, y.metadata.dims.position native = some axis ∧
    ∀ i, v.store.kind? i = some (.operand input) → plan.streamed i = true ∧
      ∀ n a bounds, (engine c v plan).layout i = .ok a → (engine c v plan).boundsFor i input a.dims (some n) = .ok bounds →
        bounds = some ⟨native, (plan.chunks.getD n (0, 0)).1, (plan.chunks.getD n (0, 0)).2⟩ := by
  obtain ⟨x, hx, haxis⟩ := h.axis
  obtain ⟨b, hb, hnative⟩ := position_renamed haxis
  refine ⟨b.name, hnative, fun i hi => ?_⟩
  obtain ⟨y', hheld⟩ := held_of_resolved hv hs hi
  cases hheld.found.symm.trans h.found
  have hpos : (v.store.dims i).position x = some axis := hheld.dims ▸ haxis
  have hstreamed : plan.streamed i = true := by
    rw [hp.streamed_along hx, ← named_iff]
    simp only [named, hpos, Option.isSome_some]
  refine ⟨hstreamed, fun n a bounds ha hbounds => ?_⟩
  rw [← show v.store.dims i = a.dims from Engine.dims_of_layout ha, boundsFor_chunk (e := engine c v plan) hx hstreamed hpos hheld.native hb n] at hbounds
  exact (Except.ok.inj hbounds).symm

end

section
variable {Fit : String → CallOptions → Prop} {edge : Nat → Nat} {bounds : Option Bounds} {n : Nat}
  (hv : Resolution.Resolved c Fit v) (hf : c.functions = .builtins) (hs : c.source = d.source)
  (hp : Plan.Planned c.functions v plan) (h : d.IsCut c.dimensionMap v plan input y axis)
  (he : Plan.Consecutive plan.chunks plan.domain edge)
include hv hf hs hp h he

/-- An input that is cut is read chunk by chunk only. -/
theorem exists_chunk_of_read (hr : (input, bounds) ∈ (engine c v plan).run.reads) :
    ∃ native n, y.metadata.dims.position native = some axis ∧ n < plan.chunks.length ∧
      bounds = some ⟨native, edge n, edge (n + 1)⟩ := by
  obtain ⟨native, hnative, hall⟩ := bounds_of_isCut hv hs hp h
  have hasks := Engine.run_reads (confined hv hf hp) _ hr
  generalize hread : (input, bounds) = r at hasks
  cases hasks with
  | @chunk i n _ a _ hk hn ha hb =>
    cases hread
    have hbounds := (hall i hk).2 n a bounds ha hb
    rw [he.chunk n hn] at hbounds
    exact ⟨native, n, hnative, hn, hbounds⟩
  | @whole i _ hk hs =>
    cases hread
    cases (hall i hk).1.symm.trans hs

/-- A run that succeeds has read each chunk of an input that is cut, and found it there. -/
theorem chunk_read (hm : (engine c v plan).run.outcome = .ok m) (hn : n < plan.chunks.length) :
    ∃ native, y.metadata.dims.position native = some axis ∧
      (input, some ⟨native, edge n, edge (n + 1)⟩) ∈ (engine c v plan).run.reads ∧
      edge (n + 1) ≤ y.data.length axis := by
  obtain ⟨native, hnative, hall⟩ := bounds_of_isCut hv hs hp h
  obtain ⟨i, hi⟩ := h.operand
  obtain ⟨node, hnode, hkind⟩ := Option.map_eq_some_iff.mp hi
  obtain ⟨hstreamed, hbounds⟩ := hall i hi
  have ho : (engine c v plan).Ordered := Engine.ordered hv hp (hf ▸ Functions.builtins_single) _ _
  have hconn : Resolution.Connected v.store plan.root := hp.root ▸ hv.connected
  have hcarried : (plan.role i).carried = none :=
    (hp.other hnode fun function options hk => by rw [hkind] at hk; cases hk).2.1
  obtain ⟨a, bounds, g, ha, hb, hfetch, hread⟩ :=
    Engine.reads_of_run ho hconn (confined hv hf hp) hm hi hstreamed hcarried hn
  have heq := hbounds n a bounds ha hb
  rw [he.chunk n hn] at heq
  subst heq
  refine ⟨native, hnative, hread, ?_⟩
  have hfetch : d.fetch input (some ⟨native, edge n, edge (n + 1)⟩) = .ok g :=
    (congrArg (fun s : Source => s.fetch input _) hs).symm.trans hfetch
  simp only [Dataset.fetch, h.found, Dataset.cut, hnative] at hfetch
  split at hfetch
  · cases hfetch
  · omega

theorem domain_le (hm : (engine c v plan).run.outcome = .ok m) : plan.domain ≤ y.data.length axis := by
  have hpos : 0 < plan.chunks.length :=
    (Engine.ordered hv hp (hf ▸ Functions.builtins_single) c.source c.converter).chunks
  obtain ⟨-, -, -, hle⟩ := chunk_read hv hf hs hp h he hm (Nat.sub_lt hpos Nat.one_pos)
  rwa [Nat.sub_add_cancel hpos, he.stop] at hle

/-- An input that is cut is read whole exactly if it has the length that is cut. -/
theorem readWhole_iff (hm : (engine c v plan).run.outcome = .ok m) :
    y.ReadWhole (engine c v plan).run.reads input axis ↔ y.data.length axis = plan.domain := by
  have hle := domain_le hv hf hs hp h he hm
  constructor
  · intro hwhole
    by_contra hne
    -- The first place behind the chunks is in no reading.
    obtain ⟨bounds, hread, htakes⟩ := hwhole plan.domain (by omega)
    obtain ⟨native, n, hnative, hn, rfl⟩ := exists_chunk_of_read hv hf hs hp h he hread
    exact absurd (htakes hnative).2 (Nat.not_lt.mpr (he.le (n + 1)))
  · intro heq place hplace
    obtain ⟨n, hn, hin⟩ := he.exists_chunk (heq ▸ hplace)
    obtain ⟨native, -, hread, -⟩ := chunk_read hv hf hs hp h he hm hn
    exact ⟨_, hread, fun _ => hin⟩

end

/-- The length that is cut is that of an input. -/
theorem exists_isCut {Fit : String → CallOptions → Prop} (hv : Resolution.Resolved c Fit v) (hs : c.source = d.source)
    (hp : Plan.Planned c.functions v plan) (hd : d.Sound) {x : String} (hx : plan.dimension = some x) :
    ∃ input y axis, d.IsCut c.dimensionMap v plan input y axis ∧ y.data.length axis = plan.domain := by
  obtain ⟨s, hs', hlen⟩ := List.exists_of_findSome?_eq_some (hp.domain x hx)
  obtain ⟨i, input, hk, rfl⟩ := Plan.mem_inputDims hs'
  obtain ⟨y, hy⟩ := held_of_resolved hv hs hk
  rw [hy.dims] at hlen
  obtain ⟨e, he, hlen⟩ := Option.bind_eq_some_iff.mp hlen
  have hmem : x ∈ (y.metadata.dims.renamed c.dimensionMap).names := by
    by_contra hnot
    rw [dimension?_of_not_mem hnot] at he
    cases he
  have hpos := position_of_mem hmem
  rw [dimension?_of_position hpos] at he
  simp only [renamed, List.getElem?_map, Option.map_eq_some_iff] at he
  obtain ⟨a, ha, rfl⟩ := he
  exact ⟨input, y, _, ⟨⟨i, hk⟩, hy.found, x, hx, hpos⟩,
    Option.some.inj ((hd.length_eq hy.found ha).symm.trans hlen)⟩

end Prepared

namespace Conformance

variable {t : Conformance} {text name : String} {target : Target} {d : Dataset} {j : Job} {m : Nat}

/-- If a run over a dataset from a document succeeds, all inputs that are cut are at least as long as what is
    cut, and those of this length are read whole. So all are read whole exactly if they have one length; that they
    have is not checked. -/
theorem read_whole_iff (hf : t.functions = .builtins) (hd : Dataset.read text = .ok d) (hs : t.source = d.source)
    (hj : t.prepare t.compile name target = .ok j)
    (hm : (Engine.ofVariable j.resolved j.plan t.source t.converter).run.outcome = .ok m) :
    let reads := (Engine.ofVariable j.resolved j.plan t.source t.converter).run.reads
    let IsCut := d.IsCut t.config.dimensionMap j.resolved j.plan
    (∀ input y axis, IsCut input y axis → j.plan.domain ≤ y.data.length axis ∧
      (y.ReadWhole reads input axis ↔ y.data.length axis = j.plan.domain)) ∧
    ((∀ input y axis, IsCut input y axis → y.ReadWhole reads input axis) ↔
      ∀ input y axis input' y' axis', IsCut input y axis → IsCut input' y' axis' →
        y.data.length axis = y'.data.length axis') := by
  have hengine : Engine.ofVariable j.resolved j.plan t.source t.converter =
      Prepared.engine t.resolution j.resolved j.plan := rfl
  rw [hengine] at hm ⊢
  intro reads IsCut
  have hplanned : Resolution.Resolved t.resolution (fun _ _ => True) j.resolved ∧ _ :=
    prepare_planned (fun _ _ _ _ _ => trivial) hj
  obtain ⟨hv, hp, -⟩ := hplanned
  obtain ⟨length, hpos, hchunks⟩ := hp.chunks
  obtain ⟨edge, he⟩ := Plan.cut_consecutive j.plan.domain hpos
  rw [← hchunks] at he
  have hread : ∀ {input y axis}, IsCut input y axis → (y.ReadWhole reads input axis ↔ y.data.length axis = j.plan.domain) :=
    fun h => Prepared.readWhole_iff hv hf hs hp h he hm
  refine ⟨fun input y axis h => ⟨Prepared.domain_le hv hf hs hp h he hm, hread h⟩, ?_⟩
  constructor
  · intro hall input y axis input' y' axis' h h'
    rw [(hread h).mp (hall input y axis h), (hread h').mp (hall input' y' axis' h')]
  · intro hsame input y axis h
    obtain ⟨x, hx, -⟩ := h.axis
    obtain ⟨input', y', axis', h', hdomain⟩ := Prepared.exists_isCut hv hs hp (Dataset.read_sound hd) hx
    exact (hread h).mpr ((hsame input y axis input' y' axis' h h').trans hdomain)

/-- Temperatures of two times, and of three. -/
def unevenText : String :=
  "\x7b\"variables\": \x7b" ++
    "\"a\": \x7b\"dimensions\": [\"time\"], \"units\": \"K\", \"values\": [1, 2]\x7d, " ++
    "\"b\": \x7b\"dimensions\": [\"time\"], \"units\": \"K\", \"values\": [10, 20, 60]\x7d\x7d\x7d"

/-- The sum of two means, each of which is over all its times. -/
def sumOfMeans (d : Dataset) : Conformance where
  standard := .ofList [("out", ⟨[], "K", .empty⟩)]
  definitions := .ofList [("out", "mean(a, dim='time') + mean(b, dim='time')")]
  source := d.source
  config := Config.standard
  functions := .builtins
  converter := Measure.linear

/-- The run succeeds, and has read two of the three times of the longer input. -/
theorem read_whole_iff_uneven : ∃ d j y, Dataset.read unevenText = .ok d ∧
    (sumOfMeans d).prepare (sumOfMeans d).compile "out" ⟨[], "K", .empty⟩ = .ok j ∧
    d.IsCut Config.standard.dimensionMap j.resolved j.plan "b" y 0 ∧ y.data.length 0 = 3 ∧
      let run := (Engine.ofVariable j.resolved j.plan d.source Measure.linear).run
      run.outcome = .ok 1 ∧ run.reads = [("a", some ⟨"time", 0, 2⟩), ("b", some ⟨"time", 0, 2⟩)] ∧
        ¬y.ReadWhole run.reads "b" 0 := by
  have hfacts : ∃ d ∈ (Dataset.read unevenText).toOption,
      ∃ j ∈ ((sumOfMeans d).prepare (sumOfMeans d).compile "out" ⟨[], "K", .empty⟩).toOption, ∃ y ∈ d.get? "b",
        j.resolved.store.kind? 2 = some (.operand "b") ∧ j.plan.dimension = some "time" ∧ j.plan.domain = 2 ∧
          (y.metadata.dims.renamed Config.standard.dimensionMap).position "time" = some 0 ∧ y.data.length 0 = 3 ∧
          (Engine.ofVariable j.resolved j.plan d.source Measure.linear).run.outcome.toOption = some 1 ∧
          (Engine.ofVariable j.resolved j.plan d.source Measure.linear).run.reads =
            [("a", some ⟨"time", 0, 2⟩), ("b", some ⟨"time", 0, 2⟩)] := by
    decide +kernel
  obtain ⟨d, hd, j, hj, y, hy, hkind, hdimension, hdomain, hposition, hlength, hm, hreads⟩ := hfacts
  have hcut : d.IsCut Config.standard.dimensionMap j.resolved j.plan "b" y 0 :=
    ⟨⟨2, hkind⟩, hy, "time", hdimension, hposition⟩
  obtain ⟨hlengths, -⟩ := read_whole_iff (t := sumOfMeans d) rfl (toOption_eq_some.mp hd) rfl
    (toOption_eq_some.mp hj) (toOption_eq_some.mp hm)
  refine ⟨d, j, y, toOption_eq_some.mp hd, toOption_eq_some.mp hj, hcut, hlength, toOption_eq_some.mp hm, hreads,
    fun hwhole => ?_⟩
  have heq := (hlengths "b" y 0 hcut).2.mp hwhole
  rw [hlength, hdomain] at heq
  cases heq

end Conformance
end Concord
