import Concord.Proofs.Evaluate.Traces
import Concord.Proofs.Schedule.Accounted
import Concord.Proofs.Schedule.Alone

/-! For which variable a run reads. Each reading is made for one of the jobs, and if a run reports a success, then
    all that the pieces of a job of that name read was read in the run. -/

namespace Concord.Dispatch

open Traced Coordinator

variable {σ : Type} {c : Context σ} {j : Job} {item : WorkItem} {threshold : Option Nat} {state : σ} {report : Report}

/-! ### Readings with names -/

/-- What is read for a piece of work, with the name of its job. -/
def readingsOf (c : Context σ) (k : Coordinator σ) (item : WorkItem) : List (String × Reading) :=
  if c.cancelled k.state then []
  else
    match c.coordination.jobs[item.job]? with
    | none => []
    | some j => (runItem c j k item).2.map fun r => (j.name, r)

/-- What is read for some pieces, one after the other. -/
def readingsFrom (c : Context σ) : List WorkItem → Coordinator σ → List (String × Reading)
  | [], _ => []
  | item :: items, k => readingsOf c k item ++ readingsFrom c items (step c (k, []) item).1

/-- What a run reads, with the name of the variable for which it is read. -/
def readings (c : Context σ) (threshold : Option Nat) (state : σ) (report : Report) : List (String × Reading) :=
  readingsFrom c (WorkItem.ofJobs c.coordination.jobs threshold) (start c.coordination state report)

theorem step_readingsOf (s : Coordinator σ × List Reading) (item : WorkItem) :
    step c s item = ((step c (s.1, []) item).1, s.2 ++ (readingsOf c s.1 item).map (·.2)) := by
  unfold step readingsOf
  dsimp only
  split
  · rw [List.map_nil, List.append_nil]
  · cases c.coordination.jobs[item.job]? with
    | none => exact Prod.ext rfl (List.append_nil _).symm
    | some j => rw [List.map_map, show Prod.snd ∘ (fun r : Reading => (j.name, r)) = id from rfl, List.map_id]

theorem foldl_step_readingsFrom : ∀ (items : List WorkItem) (s : Coordinator σ × List Reading),
    (items.foldl (step c) s).2 = s.2 ++ (readingsFrom c items s.1).map (·.2)
  | [], s => (List.append_nil s.2).symm
  | item :: items, s => by
    rw [List.foldl_cons, foldl_step_readingsFrom items, readingsFrom, List.map_append, ← List.append_assoc,
      step_readingsOf s item]

/-- Without the names, these are the readings of the run. -/
theorem run_readings (c : Context σ) (threshold : Option Nat) (state : σ) (report : Report) :
    (run c threshold state report).2 = (readings c threshold state report).map (·.2) :=
  (foldl_step_readingsFrom _ _).trans (List.nil_append _)

/-! ### What a piece reads -/

/-- A consumer that stops a piece lets it read no more, but then its job is lost. -/
theorem deliverEvents_reads (c : Context σ) (item : WorkItem) (outcome : Except Failure Unit) :
    ∀ (events : List Event) (k : Coordinator σ),
    let d := deliverEvents (consume c item.job) outcome events ⟨k, false⟩
    d.reads ⊆ (⟨events, outcome⟩ : Traced Failure Unit).reads ∧
      ((⟨events, outcome⟩ : Traced Failure Unit).reads ⊆ d.reads ∨
        d.state.stopped = true ∧ d.state.coordinator.Lost item.job ∧ ∃ f, d.outcome = .error f)
  | [], _ => ⟨List.Subset.refl _, .inl (List.Subset.refl _)⟩
  | .read name bounds :: rest, k => by
    obtain ⟨hsub, hall⟩ := deliverEvents_reads c item outcome rest k
    exact ⟨List.cons_subset_cons _ hsub, hall.imp_left (List.cons_subset_cons _)⟩
  | .emit i g :: rest, k => by
    have hreads : (⟨.emit i g :: rest, outcome⟩ : Traced Failure Unit).reads =
      (⟨rest, outcome⟩ : Traced Failure Unit).reads := rfl
    rw [hreads, deliverEvents]
    by_cases hstop : c.workers ≤ 1 ∧
        (k.handle c.coordination (.chunk item.job i g)).flow item.job = .stop
    · simp only [consume, if_pos hstop]
      exact ⟨List.nil_subset _, .inr ⟨trivial, lost_of_stop hstop.2, _, rfl⟩⟩
    · simp only [consume, if_neg hstop]
      exact deliverEvents_reads c item outcome rest _

/-- A piece reads all that its evaluation does, unless its job is lost. -/
theorem runItem_reads (k : Coordinator σ) : (runItem c j k item).2 ⊆ (evaluation c j item).reads ∧
    ((evaluation c j item).reads ⊆ (runItem c j k item).2 ∨ (runItem c j k item).1.Lost item.job) := by
  obtain ⟨hsub, hall⟩ := deliverEvents_reads c item (evaluation c j item).outcome (evaluation c j item).events k
  unfold runItem deliver
  dsimp only
  generalize deliverEvents (consume c item.job) (evaluation c j item).outcome (evaluation c j item).events
    ⟨k, false⟩ = d at hsub hall
  cases hd : d.outcome with
  | ok u =>
    refine ⟨hsub, hall.imp_right fun ⟨_, _, f, hf⟩ => ?_⟩
    cases hd.symm.trans hf
  | error f =>
    cases hs : d.state.stopped with
    | true => exact ⟨hsub, hall.imp_right fun h => h.2.1⟩
    | false =>
      refine ⟨hsub, hall.imp_right fun h => ?_⟩
      cases hs.symm.trans h.1

/-! ### What a run reads -/

/-- Nothing is read but by pieces of jobs. -/
theorem exists_piece {name : String} {r : Reading} : ∀ {items : List WorkItem} {k : Coordinator σ},
    (name, r) ∈ readingsFrom c items k → ∃ item ∈ items, ∃ j, c.coordination.jobs[item.job]? = some j ∧
      j.name = name ∧ r ∈ (evaluation c j item).reads
  | item :: items, k, h => by
    rcases List.mem_append.mp h with h | h
    · unfold readingsOf at h
      split at h
      · cases h
      cases hj : c.coordination.jobs[item.job]? with
      | none =>
        rw [hj] at h
        cases h
      | some j =>
        rw [hj] at h
        obtain ⟨r', hr, heq⟩ := List.mem_map.mp h
        cases heq
        exact ⟨item, List.mem_cons_self, j, hj, rfl, (runItem_reads k).1 hr⟩
    · obtain ⟨i, hi, hrest⟩ := exists_piece h
      exact ⟨i, List.mem_cons_of_mem _ hi, hrest⟩

/-- A chunk that is heard of a piece is one that its evaluation gives out. All that the evaluation reads was read,
    unless the job is lost. -/
theorem step_chunk {s : Coordinator σ × List Reading} {n i : Nat} {g : Grid Double}
    (h : .chunk n i g ∈ heardAt c s.1.state item) :
    ∃ j, item.job = n ∧ c.coordination.jobs[n]? = some j ∧ (i, g) ∈ (evaluation c j item).emitted ∧
      ((∀ r ∈ (evaluation c j item).reads, (j.name, r) ∈ readingsOf c s.1 item) ∨ (step c s item).1.Lost n) := by
  unfold heardAt at h
  split at h
  · cases List.mem_singleton.mp h
  rename_i hcancel
  unfold heardOf at h
  split at h
  · cases h
  rename_i j hj
  obtain ⟨rfl, hemitted⟩ := chunk_mem_eventsOf.mp h
  refine ⟨j, rfl, hj, hemitted, ?_⟩
  unfold step readingsOf
  rw [if_neg hcancel, if_neg hcancel, hj]
  exact (runItem_reads s.1).2.imp_left fun hall r hr => List.mem_map_of_mem (hall hr)

/-- So it is with all that a run hears of some pieces. -/
theorem foldl_step_chunks (hnames : ∀ j ∈ c.coordination.jobs, j.header.name = j.name) :
    ∀ (items : List WorkItem) (s : Coordinator σ × List Reading), ∃ events : List WorkEvent,
      (items.foldl (step c) s).1 = events.foldl (Coordinator.handle c.coordination) s.1 ∧
      ∀ n i g, .chunk n i g ∈ events → ∃ item ∈ items, ∃ j, item.job = n ∧ c.coordination.jobs[n]? = some j ∧
        (i, g) ∈ (evaluation c j item).emitted ∧
        ((∀ r ∈ (evaluation c j item).reads, (j.name, r) ∈ readingsFrom c items s.1) ∨
          (items.foldl (step c) s).1.Lost n)
  | [], _ => ⟨[], rfl, fun _ _ _ h => (nomatch h)⟩
  | item :: items, s => by
    obtain ⟨events, hrun, hevents⟩ := foldl_step_chunks hnames items (step c s item)
    have hnext : (step c s item).1 = (step c (s.1, []) item).1 := by rw [step_readingsOf]
    refine ⟨heardAt c s.1.state item ++ events, ?_, fun n i g hmem => ?_⟩
    · rw [List.foldl_cons, hrun, step_heard, List.foldl_append]
    rw [List.foldl_cons, readingsFrom, ← hnext]
    rcases List.mem_append.mp hmem with hmem | hmem
    · obtain ⟨j, hjob, hj, hemitted, hread⟩ := step_chunk hmem
      exact ⟨item, List.mem_cons_self, j, hjob, hj, hemitted, hread.imp
        (fun hall r hr => List.mem_append_left _ (hall r hr)) fun hlost => hrun ▸ hlost.foldl_handle hnames events⟩
    · obtain ⟨item', hitem', j, hjob, hj, hemitted, hread⟩ := hevents n i g hmem
      exact ⟨item', List.mem_cons_of_mem _ hitem', j, hjob, hj, hemitted,
        hread.imp_left fun hall r hr => List.mem_append_right _ (hall r hr)⟩

/-! ### Jobs that succeed -/

theorem exists_mem_ofJob (c : Context σ) (threshold : Option Nat) {t : Conformance} (hj : j.Prepared t) (n : Nat) :
    ∃ item, item ∈ WorkItem.ofJob threshold j n := by
  rcases ofJob_cases c threshold j n with h | ⟨-, h⟩
  · exact ⟨.whole n, h ▸ List.mem_singleton_self _⟩
  · have hpos : 0 < j.plan.chunks.length := (hj.passed c.source c.converter).chunks
    exact ⟨.chunk n 0, h ▸ List.mem_map_of_mem (List.mem_range.mpr hpos)⟩

/-- Each piece of a job has a chunk of its own to give out. -/
theorem exists_own {t : Conformance} (hj : j.Prepared t) {n : Nat} (hitem : item ∈ WorkItem.ofJob threshold j n) :
    ∃ i < j.plan.outputChunks, ∀ item' ∈ WorkItem.ofJob threshold j n, ∀ g,
      (i, g) ∈ (evaluation c j item').emitted → item' = item := by
  rcases ofJob_cases c threshold j n with h | ⟨hi, h⟩
  · rw [h, List.mem_singleton] at hitem
    refine ⟨0, Engine.outputChunks_pos (hj.passed c.source c.converter).chunks, fun item' hitem' _ _ => ?_⟩
    rw [h, List.mem_singleton] at hitem'
    rw [hitem, hitem']
  · rw [h, List.mem_map] at hitem
    obtain ⟨i, hlt, rfl⟩ := hitem
    rw [List.mem_range] at hlt
    refine ⟨i, hi.outputChunks.symm ▸ hlt, fun item' hitem' g hg => ?_⟩
    rw [h, List.mem_map] at hitem'
    obtain ⟨i', hlt', rfl⟩ := hitem'
    rcases chunk_cases (n := n) hj hi (List.mem_range.mp hlt') with ⟨g', -, hemitted, -⟩ | ⟨f, -, hemitted, -⟩
    · rw [hemitted, List.mem_singleton] at hg
      cases hg
      rfl
    · rw [hemitted] at hg
      cases hg

/-- If a run reports a success, each chunk of a job of that name was given out by a piece that was not stopped. -/
theorem chunks_of_succeeded (hnames : ∀ j ∈ c.coordination.jobs, j.header.name = j.name)
    (hreport : ∀ name m, report.get? name ≠ some (.succeeded m)) {name : String} {m : Nat}
    (h : (run c threshold state report).1.report.get? name = some (.succeeded m)) :
    ∃ n j, c.coordination.jobs[n]? = some j ∧ j.name = name ∧ ∀ i < j.plan.outputChunks,
      ∃ item ∈ WorkItem.ofJob threshold j n, ∃ g, (i, g) ∈ (evaluation c j item).emitted ∧
        ∀ r ∈ (evaluation c j item).reads, (name, r) ∈ readings c threshold state report := by
  obtain ⟨events, hrun, hevents⟩ := foldl_step_chunks hnames (WorkItem.ofJobs c.coordination.jobs threshold)
    (start c.coordination state report, [])
  have haccount : Accounted c.coordination events (run c threshold state report).1 := by
    show Accounted c.coordination events (finish c.coordination _)
    rw [hrun]
    exact ((start_accounted state hreport).foldl_handle events (List.Subset.refl _)).finish
  obtain ⟨n, j, hn, rfl, hsucceeded⟩ := haccount.reported name m h
  have hcovered := haccount.covered n
  refine ⟨n, j, hn, rfl, fun i hi => ?_⟩
  obtain ⟨g, hg⟩ := hcovered.written i (Nat.lt_of_lt_of_le hi (hcovered.complete hsucceeded j hn))
  obtain ⟨item, hitem, j', hjob, hj', hemitted, hread⟩ := hevents n i g hg
  cases hn.symm.trans hj'
  refine ⟨item, (mem_ofJobs hn).mp ⟨hitem, hjob⟩, g, hemitted, hread.resolve_right fun hlost => ?_⟩
  have hlost : (run c threshold state report).1.Lost n := Lost.finish (c := c.coordination) hlost
  cases hlost.2.symm.trans hsucceeded

/-- If a run reports a success, all pieces of a job of that name succeed, and the run has read all that they do. -/
theorem run_succeeded {t : Conformance} (hone : ∀ f ∈ t.functions.specs, f.shape = .reduce → f.arity = 1)
    (hjobs : ∀ j ∈ c.coordination.jobs, j.Prepared t)
    (hreport : ∀ name m, report.get? name ≠ some (.succeeded m)) {name : String} {m : Nat}
    (h : (run c threshold state report).1.report.get? name = some (.succeeded m)) :
    ∃ n j, c.coordination.jobs[n]? = some j ∧ j.name = name ∧ ∀ item ∈ WorkItem.ofJob threshold j n,
      (evaluation c j item).outcome = .ok () ∧
        ∀ r ∈ (evaluation c j item).reads, (name, r) ∈ readings c threshold state report := by
  obtain ⟨n, j, hn, hname, hchunk⟩ := chunks_of_succeeded (fun j hj => (hjobs j hj).header_name) hreport h
  have hj := hjobs j (List.mem_of_getElem? hn)
  refine ⟨n, j, hn, hname, fun item hitem => ⟨?_, ?_⟩⟩
  · cases ho : (evaluation c j item).outcome with
    | ok u => rfl
    | error f =>
      obtain ⟨i, hi, hmiss⟩ := exists_missing hj hone ⟨item, hitem, ho⟩
      obtain ⟨item', hitem', g, hemitted, -⟩ := hchunk i hi
      exact absurd hemitted (hmiss item' hitem' g)
  · obtain ⟨i, hi, hown⟩ := exists_own hj hitem
    obtain ⟨item', hitem', g, hemitted, hread⟩ := hchunk i hi
    exact hown item' hitem' g hemitted ▸ hread

end Concord.Dispatch
