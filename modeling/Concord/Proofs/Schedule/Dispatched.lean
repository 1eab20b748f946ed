import Concord.Proofs.Schedule.AnyOrder

/-! Whole runs. A dispatcher that stops a piece early has heard all that matters, so its run is one of the
    coordinator over what is heard of all pieces, one after the other. -/

namespace Concord.Dispatch

open Traced Coordinator

variable {σ : Type}

/-! ### One piece -/

section
variable {c : Context σ} {j : Job} {item : WorkItem} {outcome : Except Failure Unit} {k : Coordinator σ}

/-- The coordinator once a piece was delivered. -/
def delivered (c : Context σ) (item : WorkItem) (d : Delivery (Consumer σ) Failure Unit) : Coordinator σ :=
  match d.outcome with
  | .error f =>
    if d.state.stopped then d.state.coordinator else d.state.coordinator.handle c.coordination (.failed item.job f)
  | .ok () => d.state.coordinator

/-- What is heard of some events. -/
def heardIn (item : WorkItem) (outcome : Except Failure Unit) (events : List Event) : List WorkEvent :=
  (⟨events, outcome⟩ : Traced Failure Unit).emitted.map (fun p => .chunk item.job p.1 p.2) ++
    match outcome with
    | .error f => [.failed item.job f]
    | .ok () => []

theorem job_of_mem_heardIn {events : List Event} {e : WorkEvent} (h : e ∈ heardIn item outcome events) :
    e.job = item.job := by
  rcases List.mem_append.mp h with h | h
  · obtain ⟨p, -, rfl⟩ := List.mem_map.mp h
    rfl
  · split at h
    · rw [List.mem_singleton.mp h]
      rfl
    · cases h

theorem deliverEvents_delivered : ∀ (events : List Event) (k : Coordinator σ),
    delivered c item (deliverEvents (consume c item.job) outcome events ⟨k, false⟩) =
      (heardIn item outcome events).foldl (Coordinator.handle c.coordination) k
  | [], k => by
    cases outcome <;> rfl
  | .read name bounds :: rest, k => deliverEvents_delivered rest k
  | .emit i g :: rest, k => by
    have hheard : heardIn item outcome (.emit i g :: rest) = .chunk item.job i g :: heardIn item outcome rest := rfl
    rw [hheard, List.foldl_cons, deliverEvents]
    by_cases hstop : c.workers ≤ 1 ∧
        (k.handle c.coordination (.chunk item.job i g)).flow item.job = .stop
    · -- The job has ended, so nothing of the rest would have changed it.
      rw [foldl_handle_terminal (terminal_of_stop hstop.2) fun e he => job_of_mem_heardIn he]
      simp only [consume, if_pos hstop, delivered, if_true]
    · simp only [consume, if_neg hstop]
      exact deliverEvents_delivered rest _

theorem runItem_eq (k : Coordinator σ) :
    (runItem c j k item).1 = delivered c item ((evaluation c j item).deliver (consume c item.job) ⟨k, false⟩) := by
  unfold runItem delivered
  dsimp only
  generalize (evaluation c j item).deliver (consume c item.job) ⟨k, false⟩ = d
  cases d.outcome with
  | ok u => rfl
  | error f => cases d.state.stopped <;> rfl

theorem runItem_coordinator (k : Coordinator σ) :
    (runItem c j k item).1 = (eventsOf c j item).foldl (Coordinator.handle c.coordination) k :=
  (runItem_eq k).trans (deliverEvents_delivered (evaluation c j item).events k)

end

/-! ### All pieces -/

section
variable {c : Context σ}

theorem foldl_step (hcancel : ∀ s, c.cancelled s = false) :
    ∀ (items : List WorkItem) (s : Coordinator σ × List Reading),
      (items.foldl (step c) s).1 = (items.flatMap (heardOf c)).foldl (Coordinator.handle c.coordination) s.1
  | [], _ => rfl
  | item :: items, s => by
    have hstep : (step c s item).1 = (heardOf c item).foldl (Coordinator.handle c.coordination) s.1 := by
      unfold step heardOf
      rw [hcancel, if_neg Bool.false_ne_true]
      cases c.coordination.jobs[item.job]? with
      | none => rfl
      | some j => exact runItem_coordinator s.1
    rw [List.foldl_cons, foldl_step hcancel items, hstep, List.flatMap_cons, List.foldl_append]

/-- A run that is not cancelled is one of the coordinator over what is heard of the pieces in turn. -/
theorem run_eq_finish (hcancel : ∀ s, c.cancelled s = false) (threshold : Option Nat) (state : σ) (report : Report) :
    (run c threshold state report).1 =
      finish c.coordination (((WorkItem.ofJobs c.coordination.jobs threshold).flatMap (heardOf c)).foldl
        (Coordinator.handle c.coordination) (start c.coordination state report)) := by
  unfold run
  exact congrArg (finish c.coordination) (foldl_step hcancel _ _)

end

/-! ### What is heard of all pieces -/

/-- In a list that numbers its entries, a number tells the place. -/
theorem mem_iff_getElem?_of_range {α : Type} {es : List (Nat × α)} {n i : Nat} {a : α}
    (h : es.map (·.1) = List.range n) : (i, a) ∈ es ↔ (es.map (·.2))[i]? = some a := by
  have hnumber : ∀ {k : Nat} {p : Nat × α}, es[k]? = some p → p.1 = k := by
    intro k p hk
    have hmap : (es.map (·.1))[k]? = some p.1 := by rw [List.getElem?_map, hk]; rfl
    rw [h] at hmap
    obtain ⟨hlt, heq⟩ := List.getElem?_eq_some_iff.mp hmap
    rw [← heq, List.getElem_range]
  rw [List.getElem?_map, Option.map_eq_some_iff]
  constructor
  · intro hmem
    obtain ⟨k, hk⟩ := List.mem_iff_getElem?.mp hmem
    have heq : i = k := hnumber hk
    subst heq
    exact ⟨(i, a), hk, rfl⟩
  · rintro ⟨⟨k, b⟩, hp, rfl⟩
    have heq : k = i := hnumber hp
    subst heq
    exact List.mem_of_getElem? hp

section
variable {c : Context σ} {n : Nat} {j : Job} {threshold : Option Nat} {events : List WorkEvent}

theorem mem_heard {e : WorkEvent} (hn : c.coordination.jobs[n]? = some j) (he : e.job = n) :
    e ∈ (WorkItem.ofJobs c.coordination.jobs threshold).flatMap (heardOf c) ↔
      ∃ item ∈ WorkItem.ofJob threshold j n, e ∈ eventsOf c j item := by
  rw [List.mem_flatMap]
  constructor
  · rintro ⟨item, hitem, hmem⟩
    unfold heardOf at hmem
    split at hmem
    · cases hmem
    · rename_i j' hj'
      have hjob : item.job = n := by
        rw [← he]
        have hevent : e ∈ heardIn item (evaluation c j' item).outcome (evaluation c j' item).events := hmem
        exact (job_of_mem_heardIn hevent).symm
      subst hjob
      cases hn.symm.trans hj'
      exact ⟨item, (mem_ofJobs hn).mp ⟨hitem, rfl⟩, hmem⟩
  · rintro ⟨item, hitem, hmem⟩
    obtain ⟨hitems, hjob⟩ := (mem_ofJobs hn).mpr hitem
    refine ⟨item, hitems, ?_⟩
    unfold heardOf
    rw [hjob, hn]
    exact hmem

variable (hjobs : ∀ j ∈ c.coordination.jobs, ∃ t, j.Prepared t)
  (hevents : events.Perm ((WorkItem.ofJobs c.coordination.jobs threshold).flatMap (heardOf c)))
include hjobs hevents

theorem heard_inRange : InRange c.coordination.jobs events := by
  intro n i g hmem j hn
  obtain ⟨item, hitem, he⟩ := (mem_heard hn rfl).mp (hevents.mem_iff.mp hmem)
  obtain ⟨t, hj⟩ := hjobs j (List.mem_of_getElem? hn)
  exact index_lt hj hitem (chunk_mem_eventsOf.mp he).2

/-- Of a job that evaluates all chunks are heard, and nothing else. -/
theorem heard_of_ok (hn : c.coordination.jobs[n]? = some j) {m : Nat} (hm : (engine c j).run.outcome = .ok m) :
    Hears n j events ((engine c j).run.emitted.map (·.2)) := by
  obtain ⟨t, hj⟩ := hjobs j (List.mem_of_getElem? hn)
  have hindices := indices_of_run hj hm
  have hlen : (engine c j).run.emitted.length = j.plan.outputChunks := by
    have := congrArg List.length hindices
    rwa [List.length_map, List.length_range] at this
  refine ⟨by rw [List.length_map, hlen], fun i g => ?_, fun f hf => ?_, fun hc => ?_⟩
  · have hmem : .chunk n i g ∈ events ↔ (i, g) ∈ (engine c j).run.emitted := by
      have hpieces : (∃ item ∈ WorkItem.ofJob threshold j n, (i, g) ∈ (evaluation c j item).emitted) ↔ _ := mem_pieces hj hm
      rw [hevents.mem_iff, mem_heard hn rfl, ← hpieces]
      constructor
      · rintro ⟨item, hitem, he⟩
        exact ⟨item, hitem, (chunk_mem_eventsOf.mp he).2⟩
      · rintro ⟨item, hitem, he⟩
        exact ⟨item, hitem, chunk_mem_eventsOf.mpr ⟨(job_of_mem_ofJob hitem).symm, he⟩⟩
    rw [hmem, mem_iff_getElem?_of_range hindices]
  · obtain ⟨item, hitem, he⟩ := (mem_heard hn rfl).mp (hevents.mem_iff.mp hf)
    have hok := (pieces_eq_ok hj).mpr ⟨m, hm⟩ item hitem
    cases hok.symm.trans (failed_mem_eventsOf.mp he).2
  · obtain ⟨item, hitem, he⟩ := (mem_heard hn rfl).mp (hevents.mem_iff.mp hc)
    exact cancelled_not_mem_eventsOf he

omit hjobs in
/-- A chunk that no piece of a job gives out is never heard of. -/
theorem not_heard_of_missing (hn : c.coordination.jobs[n]? = some j) (hmiss : ¬GivesAll c threshold j n) :
    (∃ i < j.plan.outputChunks, ∀ g, .chunk n i g ∉ events) ∧ .cancelled n ∉ events := by
  unfold GivesAll at hmiss
  push Not at hmiss
  obtain ⟨i, hi, hmiss⟩ := hmiss
  refine ⟨⟨i, hi, fun g hmem => ?_⟩, fun hc => ?_⟩
  · obtain ⟨item, hitem, he⟩ := (mem_heard hn rfl).mp (hevents.mem_iff.mp hmem)
    exact hmiss item hitem g (chunk_mem_eventsOf.mp he).2
  · obtain ⟨item, hitem, he⟩ := (mem_heard hn rfl).mp (hevents.mem_iff.mp hc)
    exact cancelled_not_mem_eventsOf he

end

/-! ### Any order -/

/-- The same jobs run one after the other by one worker that is never cancelled, with a log of the calls. -/
def Context.alone (c : Context σ) : Context (σ × List Answer) :=
  ⟨c.source, c.converter, c.coordination.logged, 1, fun _ => false⟩

section
variable {c : Context σ} {s : σ} {report : Report} {n : Nat} {j : Job} {threshold : Option Nat}
  {events : List WorkEvent}

/-- The run of the jobs one after the other is one of the coordinator over what is heard of them as wholes. -/
theorem run_alone :
    (run c.alone none (s, []) report).1 =
      ran c.coordination s report ((WorkItem.ofJobs c.coordination.jobs none).flatMap (heardOf c)) :=
  run_eq_finish (fun _ => rfl) none (s, []) report

/-- The end of a job that evaluates. -/
theorem ran_reported (hjobs : ∀ j ∈ c.coordination.jobs, ∃ t, j.Prepared t) (hsep : Separate c.coordination.jobs report)
    (hw : c.coordination.writer.Separates s)
    (hevents : events.Perm ((WorkItem.ofJobs c.coordination.jobs threshold).flatMap (heardOf c)))
    (hn : c.coordination.jobs[n]? = some j) {m : Nat} (hm : (engine c j).run.outcome = .ok m) :
    ∃ status, (ran c.coordination s report events).report.get? j.name = some status ∧
      ((ran c.coordination s report events).calls j.name, status) =
        reported (c.coordination.writer.reply s) c.coordination.retries j ((engine c j).run.emitted.map (·.2)) := by
  obtain ⟨t, hj⟩ := hjobs j (List.mem_of_getElem? hn)
  obtain ⟨status, hstatus, hended⟩ := ran_ended (s := s) hsep (heard_inRange hjobs hevents) hn
  exact ⟨status, hstatus, hended.eq_reported (heard_of_ok hjobs hevents hn hm)
    (Engine.outputChunks_pos (hj.passed c.source c.converter).chunks) (ran_truthful hw hsep.headers events j.name)⟩

end

/-- What is heard of the pieces of some jobs may come in any order, and the jobs may be split at any threshold.
    A job whose pieces all evaluate is written and reported as if the jobs were run as wholes, one after the
    other. A job with a piece that fails has failed, unless all its chunks were given out before; where reductions
    have one array, they never are. -/
theorem run_any_order (c : Context σ) (s : σ) (report : Report) (threshold : Option Nat) (events : List WorkEvent)
    (hjobs : ∀ j ∈ c.coordination.jobs, ∃ t, j.Prepared t) (hnames : (c.coordination.jobs.map Job.name).Nodup)
    (hfresh : ∀ j ∈ c.coordination.jobs, report.get? j.name = none) (hw : c.coordination.writer.Separates s)
    (hevents : events.Perm ((WorkItem.ofJobs c.coordination.jobs threshold).flatMap (heardOf c))) :
    let split := ran c.coordination s report events
    let whole := (run c.alone none (s, []) report).1
    split.forget = finish c.coordination (events.foldl (handle c.coordination) (start c.coordination s report)) ∧
    whole.forget = (run ⟨c.source, c.converter, c.coordination, 1, fun _ => false⟩ none s report).1 ∧
    ∀ n j, c.coordination.jobs[n]? = some j → ∃ status, split.report.get? j.name = some status ∧
      ((∀ item ∈ WorkItem.ofJob threshold j n, (evaluation c j item).outcome = .ok ()) →
        whole.report.get? j.name = some status ∧ split.calls j.name = whole.calls j.name) ∧
      ((∃ item ∈ WorkItem.ofJob threshold j n, ∃ f, (evaluation c j item).outcome = .error f) →
        (¬GivesAll c threshold j n → status.isFailure = true) ∧
        ∀ t, j.Prepared t → (∀ f ∈ t.functions.specs, f.shape = .reduce → f.arity = 1) →
          ¬GivesAll c threshold j n) := by
  intro split whole
  have hsep : Separate c.coordination.jobs report :=
    ⟨fun j hj => (hjobs j hj).elim fun _ h => h.header_name, hnames, hfresh⟩
  have hforget : ∀ heard : List WorkEvent, (ran c.coordination s report heard).forget =
      finish c.coordination (heard.foldl (handle c.coordination) (start c.coordination s report)) := by
    intro heard
    unfold ran
    rw [finish_forget, foldl_handle_forget]
    rfl
  refine ⟨hforget events, ?_, fun n j hn => ?_⟩
  · show (run c.alone none (s, []) report).1.forget = _
    rw [run_alone, hforget, run_eq_finish fun _ => rfl]
    rfl
  · obtain ⟨t, hj⟩ := hjobs j (List.mem_of_getElem? hn)
    obtain ⟨status, hstatus, hended⟩ := ran_ended (s := s) hsep (heard_inRange hjobs hevents) hn
    refine ⟨status, hstatus, fun hall => ?_, fun ⟨item, hitem, f, hf⟩ => ⟨fun hmiss => ?_, fun t hj hone => ?_⟩⟩
    · obtain ⟨m, hm⟩ := (pieces_eq_ok hj).mp hall
      obtain ⟨status', hstatus', hsplit⟩ := ran_reported hjobs hsep hw hevents hn hm
      cases hstatus.symm.trans hstatus'
      obtain ⟨status'', hstatus'', hwhole⟩ := ran_reported hjobs hsep hw (List.Perm.refl _) hn hm
      obtain ⟨hcalls, hsame⟩ := Prod.mk.inj (hsplit.trans hwhole.symm)
      subst hsame
      have halone : whole = _ := run_alone
      rw [halone]
      exact ⟨hstatus'', hcalls⟩
    · obtain ⟨⟨i, hi, hmiss⟩, hc⟩ := not_heard_of_missing hevents hn hmiss
      exact hended.isFailure hi hmiss hc
    · intro hall
      obtain ⟨i, hi, hmiss⟩ := exists_missing hj hone ⟨item, hitem, hf⟩
      obtain ⟨item', hitem', g, hg⟩ := hall i hi
      exact hmiss item' hitem' g hg

theorem warming_volume : (#[1, 2, 4] : Array Double).size = volume [3] := rfl

/-- Temperatures of three times, once less their mean and once doubled, in chunks of one. -/
def warming : Conformance where
  standard := .ofList [("anomaly", ⟨["time"], "K", .empty⟩), ("double", ⟨["time"], "K", .empty⟩)]
  definitions := .ofList [("anomaly", "tas - mean(tas, dim='time')"), ("double", "2 * tas")]
  source := Dataset.source (.ofList [("tas", ⟨⟨[⟨"time", some 3⟩], "K", .empty⟩, ⟨[3], #[1, 2, 4], warming_volume⟩⟩)])
  config := { Config.standard with chunkLength := some 1 }
  functions := .builtins
  converter := Measure.linear

def warmingJobs : List Job :=
  ["anomaly", "double"].filterMap fun name =>
    (warming.prepare warming.compile name ⟨["time"], "K", .empty⟩).toOption

/-- Two workers write to the memory. -/
def warmingContext (jobs : List Job) : Context Memory :=
  ⟨warming.source, warming.converter, ⟨Memory.writer, jobs, 1⟩, 2, fun _ => false⟩

/-- Only the doubled temperatures are split; all is heard the wrong way round, and one chunk fails to be written
    at first. -/
theorem run_any_order_reversed :
    let c := warmingContext warmingJobs
    let s := Memory.empty.failWrites "double" 1
    let events := ((WorkItem.ofJobs warmingJobs (some 1)).flatMap (heardOf c)).reverse
    WorkItem.ofJobs warmingJobs (some 1) = [.whole 0, .chunk 1 0, .chunk 1 1, .chunk 1 2] ∧
    ∀ (n : Nat) (j : Job), warmingJobs[n]? = some j →
      (ran c.coordination s .empty events).report.get? j.name = (run c.alone none (s, []) .empty).1.report.get? j.name ∧
        (ran c.coordination s .empty events).calls j.name = (run c.alone none (s, []) .empty).1.calls j.name := by
  have hitems : WorkItem.ofJobs warmingJobs (some 1) = [.whole 0, .chunk 1 0, .chunk 1 1, .chunk 1 2] := by
    decide +kernel
  have hnames : warmingJobs.map Job.name = ["anomaly", "double"] := by decide +kernel
  have hsucceed : ∀ p ∈ warmingJobs.zipIdx, ∀ item ∈ WorkItem.ofJob (some 1) p.1 p.2,
      (evaluation (warmingContext warmingJobs) p.1 item).outcome.toOption = some () := by decide +kernel
  have hprepared : ∀ j ∈ warmingJobs, ∃ t, j.Prepared t := by
    intro j hj
    obtain ⟨name, -, hname⟩ := List.mem_filterMap.mp hj
    exact ⟨warming, name, _, toOption_eq_some.mp hname⟩
  -- What follows holds of any jobs, and is not to be evaluated.
  generalize warmingJobs = jobs at *
  have hnodup : (jobs.map Job.name).Nodup := by
    rw [hnames]
    decide
  intro c s events
  obtain ⟨-, -, hjobs⟩ := run_any_order c s .empty (some 1) events hprepared hnodup (fun _ _ => rfl)
    (Memory.views.separates s) (List.reverse_perm _)
  refine ⟨hitems, fun n j hn => ?_⟩
  obtain ⟨status, hstatus, hall, -⟩ := hjobs n j hn
  obtain ⟨hwhole, hcalls⟩ := hall fun item hitem =>
    toOption_eq_some.mp (hsucceed (j, n) (List.mem_zipIdx_iff_getElem?.mpr hn) item hitem)
  exact ⟨hstatus.trans hwhole.symm, hcalls⟩

/-- The memory is the destination of a job with a reduction of two arrays. -/
def lateContext (j : Job) : Context Memory :=
  ⟨Conformance.late.source, Conformance.late.converter, ⟨Memory.writer, [j], 1⟩, 1, fun _ => false⟩

/-- A reduction of two arrays fails when both chunks were given out and the output is closed. The failure is heard
    of too late, and a success is reported. -/
theorem failure_unheard : ∃ j, j.Prepared Conformance.late ∧
    let c := lateContext j
    c.coordination.writer.Separates Memory.empty ∧ WorkItem.ofJobs [j] none = [.whole 0] ∧
      (evaluation c j (.whole 0)).outcome = .error (.chunkEvaluation 1 Accumulator.emptyMessage) ∧
      (ran c.coordination .empty .empty ((WorkItem.ofJobs [j] none).flatMap (heardOf c))).report.get? j.name =
        some (.succeeded 2) := by
  have hfacts : ∃ j ∈ (Conformance.late.prepare Conformance.late.compile "out" ⟨["time", "lat"], "K", .empty⟩).toOption,
      WorkItem.ofJobs [j] none = [.whole 0] ∧
        (evaluation (lateContext j) j (.whole 0)).outcome = .error (.chunkEvaluation 1 Accumulator.emptyMessage) ∧
        (ran (lateContext j).coordination .empty .empty
          ((WorkItem.ofJobs [j] none).flatMap (heardOf (lateContext j)))).report.get? j.name = some (.succeeded 2) := by
    decide +kernel
  obtain ⟨j, hj, hitems, hfails, hreport⟩ := hfacts
  exact ⟨j, ⟨"out", _, toOption_eq_some.mp hj⟩, Memory.views.separates _, hitems, hfails, hreport⟩

end Concord.Dispatch
