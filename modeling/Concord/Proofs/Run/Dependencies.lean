import Concord.Proofs.Evaluate.AllInputs
import Concord.Proofs.Evaluate.Coverage
import Concord.Proofs.Resolve.Core
import Concord.Proofs.Run.WrittenOnce
import Concord.Proofs.Schedule.Attributed

/-! What a variable depends on is what it reads. The inputs that are listed for a variable before anything is
    evaluated are those that its definition names, at once or through others, and if a run succeeds with it, they
    are those that were read for it, whole or chunk by chunk. -/

namespace Concord

open Traced

variable {σ : Type}

/-! ### Readings of pieces -/

namespace Dispatch

variable {c : Context σ} {j : Job} {n i : Nat}

theorem reads_whole : (evaluation c j (.whole n)).reads = (engine c j).run.reads := by
  rw [evaluation_whole]
  cases hrun : (engine c j).run.outcome with
  | ok m => exact (reads_bind_ok (f := fun _ => pure ()) hrun).trans (List.append_nil _)
  | error f => exact reads_bind_error (f := fun _ => pure ()) hrun

theorem reads_chunk : (evaluation c j (.chunk n i)).reads = ((engine c j).runChunk i).reads := by
  rw [evaluation_chunk]
  cases hrun : ((engine c j).runChunk i).outcome with
  | ok g => exact (reads_bind_ok hrun).trans (List.append_nil _)
  | error f => exact reads_bind_error hrun

end Dispatch

namespace Engine

theorem Asks.operand {e : Engine} {x : String} {bounds : Option Bounds} (h : e.Asks (x, bounds)) :
    ∃ i, e.store.kind? i = some (.operand x) := by
  cases h with
  | chunk hk => exact ⟨_, hk⟩
  | whole hk => exact ⟨_, hk⟩

end Engine

namespace Conformance

variable {t : Conformance} {name x : String} {target : Target} {j : Job} {w : Writer σ} {cancelled : σ → Bool} {s : σ}

/-! ### Inputs of jobs -/

/-- What a job is prepared from. -/
theorem prepare_compiled (h : t.prepare t.compile name target = .ok j) :
    ∃ v, t.compile.compiled.get? name = some v ∧ inputsOf t.compile name = .ok v.inputs ∧
      Resolution.resolve t.resolution v target = .ok j.resolved := by
  obtain ⟨v, plan, hv, -, rfl⟩ := prepare_eq_ok h
  unfold resolveIn at hv
  unfold inputsOf
  split at hv
  · cases hv
  · cases hv
  · rename_i u hfailure hcompiled
    refine ⟨u, hcompiled, ?_, hv⟩
    rw [hfailure, hcompiled]

section
variable (hf : t.functions = .builtins) (h : t.prepare t.compile name target = .ok j)
include hf h

/-- The inputs in the graph of a job are those that its definition names, at once or through others. -/
theorem prepare_inputs : ∃ e, Compilation.Means t.definitions name e ∧
    ∃ inputs, inputsOf t.compile name = .ok inputs ∧ inputs.Pairwise (· < ·) ∧
      ∀ x, (x ∈ inputs ↔ Compilation.InputOf t.source t.definitions x e) ∧
        (x ∈ inputs ↔ ∃ i, j.resolved.store.kind? i = some (.operand x)) := by
  obtain ⟨v, hv, hinputs, hresolve⟩ := prepare_compiled h
  refine ⟨v.expression, Compilation.parseAll_parsed.mp (Compilation.compile_graphOf hv).parsed, v.inputs, hinputs, ?_,
    fun x => ⟨Compilation.mem_inputs hv, ?_⟩⟩
  · exact List.pairwise_map.mpr (NameMap.ofList _).sorted
  · have hone : Resolution.ConvertsOne t.functions := hf ▸ Functions.builtins_convertsOne
    exact (Compilation.mem_inputs hv).trans (Resolution.resolve_inputs hone hv hresolve).symm

variable {item : WorkItem}

/-- A piece of a job reads inputs in its graph only. -/
theorem operand_of_read {bounds : Option Bounds}
    (hr : (x, bounds) ∈ (Dispatch.evaluation (t.dispatch w cancelled s) j item).reads) :
    ∃ i, j.resolved.store.kind? i = some (.operand x) := by
  obtain ⟨hv, hp⟩ := planned_of_prepare h
  have hconf : (Dispatch.engine (t.dispatch w cancelled s) j).Confined := Prepared.confined hv hf hp
  cases item with
  | whole n => exact (Engine.run_reads hconf _ (Dispatch.reads_whole ▸ hr)).operand
  | chunk n i => exact (Engine.runChunk_reads hconf _ (Dispatch.reads_chunk ▸ hr)).operand

/-- A piece of a job that succeeds reads all of them. -/
theorem read_of_operand (hok : (Dispatch.evaluation (t.dispatch w cancelled s) j item).outcome = .ok ()) {i : Nat}
    (hi : j.resolved.store.kind? i = some (.operand x)) :
    ∃ bounds, (x, bounds) ∈ (Dispatch.evaluation (t.dispatch w cancelled s) j item).reads := by
  obtain ⟨hv, hp⟩ := planned_of_prepare h
  have hconf : (Dispatch.engine (t.dispatch w cancelled s) j).Confined := Prepared.confined hv hf hp
  have ho : (Dispatch.engine (t.dispatch w cancelled s) j).Ordered :=
    Engine.ordered hv hp (show t.functions.Single from hf ▸ Functions.builtins_single) _ _
  have hconn : Resolution.Connected j.resolved.store j.plan.root := hp.root ▸ hv.connected
  obtain ⟨node, hnode, hkind⟩ := Option.map_eq_some_iff.mp hi
  have hcarried : (j.plan.role i).carried = none :=
    (hp.other hnode fun function options hk => by rw [hkind] at hk; cases hk).2.1
  cases item with
  | whole n =>
    obtain ⟨m, hm⟩ := Dispatch.whole_eq_ok.mp hok
    rw [Dispatch.reads_whole]
    exact Engine.read_of_run ho hconn hconf hm hi hcarried
  | chunk n k =>
    rw [Dispatch.evaluation_chunk] at hok
    obtain ⟨g, hg, -⟩ := bind_outcome_ok hok
    rw [Dispatch.reads_chunk]
    exact Engine.read_of_runChunk ho hconn hconf hg hi hcarried

end

/-! ### Runs -/

/-- What a run reads, with the name of the variable for which it is read. -/
def readings (t : Conformance) (w : Writer σ) (cancelled : σ → Bool) (s : σ) : List (String × Reading) :=
  Dispatch.readings (t.dispatch w cancelled s) t.config.splitThreshold s (t.enlisted (w.has s)).report

/-- Without the names, these are the readings of the run. -/
theorem run_readings (t : Conformance) (w : Writer σ) (cancelled : σ → Bool) (s : σ) :
    (t.run w cancelled s).reads = (t.readings w cancelled s).map (·.2) :=
  Dispatch.run_readings (t.dispatch w cancelled s) ..

/-- No success is reported before anything is evaluated. -/
theorem enlistAll_unsucceeded (t : Conformance) (has : String → Bool) : ∀ (names : List String) {p : Progress},
    (∀ name m, p.report.get? name ≠ some (.succeeded m)) →
      ∀ name m, (t.enlistAll has names p).report.get? name ≠ some (.succeeded m)
  | [], _, h => h
  | key :: names, p, h => by
    refine enlistAll_unsucceeded t has names fun name m hm => h name m ?_
    cases t.choice has key with
    | settled status hstatus henlist =>
      rw [henlist] at hm
      exact Coordinator.succeeded_of_record hstatus hm
    | enlisted j target hj henlist =>
      rwa [henlist] at hm

/-- What is listed for the job of a variable. -/
theorem dependencies_of_enlisted {has : String → Bool} (hj : j ∈ (t.enlisted has).jobs) :
    ∃ target, t.prepare t.compile j.name target = .ok j ∧
      t.dependencies.get? j.name = some (inputsOf t.compile j.name) := by
  obtain ⟨hselected, target, h⟩ := prepared_of_enlisted hj
  obtain ⟨v, hv, -⟩ := prepare_compiled h
  have hmeans := Compilation.parseAll_parsed.mp (Compilation.compile_graphOf hv).parsed
  refine ⟨target, h, ?_⟩
  unfold dependencies
  rw [NameMap.get?_ofList_map, if_pos (List.mem_filter.mpr ⟨hselected, hmeans.contains⟩)]

/-- If a run succeeds with a variable, the inputs that are listed for it are those that were read for it, and those
    that its definition names, at once or through others. -/
theorem run_dependencies (t : Conformance) (hf : t.functions = .builtins) (w : Writer σ) (cancelled : σ → Bool) (s : σ) :
    let r := t.run w cancelled s
    r.reads = (t.readings w cancelled s).map (·.2) ∧
    ∀ name m, r.report.get? name = some (.succeeded m) → ∃ e inputs,
      Compilation.Means t.definitions name e ∧ t.dependencies.get? name = some (.ok inputs) ∧
      inputs.Pairwise (· < ·) ∧
      ∀ x, (x ∈ inputs ↔ ∃ bounds, (name, x, bounds) ∈ t.readings w cancelled s) ∧
        (x ∈ inputs ↔ Compilation.InputOf t.source t.definitions x e) := by
  intro r
  refine ⟨t.run_readings w cancelled s, fun name m h => ?_⟩
  have hprepared := t.dispatch_prepared w cancelled s
  have hone : ∀ f ∈ t.functions.specs, f.shape = .reduce → f.arity = 1 := fun f hmem hshape =>
    Functions.builtins_single f (hf ▸ hmem) (.inl hshape)
  have hstart := t.enlistAll_unsucceeded (w.has s) t.selected (p := .none) fun _ _ h => nomatch h
  obtain ⟨n, j, hn, rfl, hpieces⟩ := Dispatch.run_succeeded hone hprepared hstart h
  have hmem := List.mem_of_getElem? hn
  obtain ⟨target, hj, hlisted⟩ := dependencies_of_enlisted hmem
  obtain ⟨e, hmeans, inputs, hinputs, hsorted, hall⟩ := prepare_inputs hf hj
  refine ⟨e, inputs, hmeans, hinputs ▸ hlisted, hsorted, fun x => ⟨⟨fun hx => ?_, ?_⟩, (hall x).1⟩⟩
  · obtain ⟨i, hi⟩ := (hall x).2.mp hx
    obtain ⟨item, hitem⟩ := Dispatch.exists_mem_ofJob (t.dispatch w cancelled s) t.config.splitThreshold
      (hprepared j hmem) n
    obtain ⟨hok, hread⟩ := hpieces item hitem
    obtain ⟨bounds, hbounds⟩ := read_of_operand hf hj hok hi
    exact ⟨bounds, hread _ hbounds⟩
  · -- A variable that is selected twice has two jobs, for which the same is listed.
    rintro ⟨bounds, hread⟩
    obtain ⟨item, -, j', hj', hname, hr⟩ := Dispatch.exists_piece hread
    obtain ⟨target', hprepare, -⟩ := dependencies_of_enlisted (List.mem_of_getElem? hj')
    obtain ⟨_, -, inputs', hinputs', -, hall'⟩ := prepare_inputs hf hprepare
    rw [hname, hinputs] at hinputs'
    rw [Except.ok.inj hinputs']
    exact (hall' x).2.mpr (operand_of_read hf hprepare hr)

theorem trend_volume : (#[3, 5] : Array Double).size = volume [2] := rfl

/-- Temperatures less a base that has a definition of its own, for which a second input is read, and the doubled
    temperatures, in chunks of one that are pieces of work if they do not depend on each other. -/
def detrending : Conformance where
  standard := .ofList [("anomaly", ⟨["time"], "K", .empty⟩), ("double", ⟨["time"], "K", .empty⟩)]
  definitions := .ofList [("anomaly", "tas - base"), ("base", "mean(tas, dim='time') + mean(trend, dim='month')"),
    ("double", "2 * tas")]
  source := Dataset.source (.ofList
    [("tas", ⟨⟨[⟨"time", some 3⟩], "K", .empty⟩, ⟨[3], #[1, 2, 4], Dispatch.warming_volume⟩⟩),
      ("trend", ⟨⟨[⟨"month", some 2⟩], "K", .empty⟩, ⟨[2], #[3, 5], trend_volume⟩⟩)])
  config := { Config.standard with chunkLength := some 1, splitThreshold := some 1 }
  functions := .builtins
  converter := Measure.linear

/-- The anomaly is evaluated as a whole and depends on the trend through another definition; the doubled
    temperatures are evaluated in three pieces. -/
theorem run_dependencies_detrending :
    let r := detrending.run Memory.writer (fun _ => false) .empty
    let readings := detrending.readings Memory.writer (fun _ => false) .empty
    detrending.functions = .builtins ∧
    r.report.get? "anomaly" = some (.succeeded 3) ∧ r.report.get? "double" = some (.succeeded 3) ∧
    detrending.dependencies.get? "anomaly" = some (.ok ["tas", "trend"]) ∧
    detrending.dependencies.get? "double" = some (.ok ["tas"]) ∧
    ∀ x, (x ∈ ["tas", "trend"] ↔ ∃ bounds, ("anomaly", x, bounds) ∈ readings) ∧
      (x ∈ ["tas"] ↔ ∃ bounds, ("double", x, bounds) ∈ readings) := by
  intro r readings
  have hanomaly : r.report.get? "anomaly" = some (.succeeded 3) := by decide +kernel
  have hdouble : r.report.get? "double" = some (.succeeded 3) := by decide +kernel
  have hlisted : (detrending.dependencies.get? "anomaly").bind (·.toOption) = some ["tas", "trend"] ∧
      (detrending.dependencies.get? "double").bind (·.toOption) = some ["tas"] := by decide +kernel
  obtain ⟨-, hall⟩ := run_dependencies detrending rfl Memory.writer (fun _ => false) .empty
  obtain ⟨_, inputs, -, ha, -, hread⟩ := hall "anomaly" 3 hanomaly
  obtain ⟨_, inputs', -, hd, -, hread'⟩ := hall "double" 3 hdouble
  rw [ha, hd] at hlisted
  obtain rfl : inputs = ["tas", "trend"] := Option.some.inj hlisted.1
  obtain rfl : inputs' = ["tas"] := Option.some.inj hlisted.2
  exact ⟨rfl, hanomaly, hdouble, ha, hd, fun x => ⟨(hread x).1, (hread' x).1⟩⟩

end Conformance
end Concord
