import Concord.Proofs.Graph.References
import Concord.Proofs.Run.Selection
import Concord.Proofs.Schedule.Alone
import Concord.Proofs.Schedule.Reported

/-! Runs of a task and of one of its variables. What the others do, and whatever goes wrong with them, changes
    neither the status of a variable nor what is written of it. -/

namespace Concord
namespace Conformance

open Coordinator

variable {σ α : Type} {t : Conformance} {name : String}

/-- The task with one variable to produce. -/
def only (t : Conformance) (name : String) : Conformance :=
  { t with config := { t.config with selection := some [name] } }

/-- The names with a status or a job after all selected ones were seen to. -/
def enlisted (t : Conformance) (has : String → Bool) : Progress := t.enlistAll has t.selected .none

/-- What the run over the enlisted jobs needs to know. -/
def dispatch (t : Conformance) (w : Writer σ) (cancelled : σ → Bool) (s : σ) : Dispatch.Context σ :=
  ⟨t.source, t.converter, ⟨w, (t.enlisted (w.has s)).jobs, t.config.writerRetries⟩, t.config.workers, cancelled⟩

/-- The coordinator at the end of a run with a log of the calls. -/
def ranLogged (t : Conformance) (w : Writer σ) (cancelled : σ → Bool) (s : σ) : Logged σ :=
  (Dispatch.run (t.dispatch w cancelled s).logged t.config.splitThreshold (s, []) (t.enlisted (w.has s)).report).1

/-- The run without a log is the run with one, once the log is left out. -/
theorem run_forget (w : Writer σ) (cancelled : σ → Bool) (s : σ) :
    (t.run w cancelled s).state = (t.ranLogged w cancelled s).state.1 ∧
      (t.run w cancelled s).report = (t.ranLogged w cancelled s).report := by
  have h : (t.ranLogged w cancelled s).forget =
      (Dispatch.run (t.dispatch w cancelled s) t.config.splitThreshold s (t.enlisted (w.has s)).report).1 :=
    Dispatch.run_forget ..
  exact ⟨congrArg Coordinator.state h.symm, congrArg Coordinator.report h.symm⟩

theorem only_enlisted (has : String → Bool) : (t.only name).enlisted has = t.enlistAll has [name] .none := rfl

/-- Jobs are of selected names, under which they were prepared. -/
theorem prepared_of_enlisted {has : String → Bool} {j : Job} (h : j ∈ (t.enlisted has).jobs) :
    j.name ∈ t.selected ∧ ∃ target, t.prepare t.compile j.name target = .ok j := by
  obtain ⟨jobs, hjobs, hprepared, -⟩ := t.enlistAll_adds has t.selected .none
  have hall : (t.enlisted has).jobs = jobs := hjobs
  exact hprepared j (hall ▸ h)

theorem dispatch_names (w : Writer σ) (cancelled : σ → Bool) (s : σ) :
    ∀ j ∈ (t.dispatch w cancelled s).coordination.jobs, j.header.name = j.name := by
  intro j hj
  obtain ⟨-, target, h⟩ := prepared_of_enlisted hj
  exact (prepare_name h).2

/-! ### Every name is reported -/

section
variable {view : String → σ → α} {w : Writer σ} (hv : w.Views view) (cancelled : σ → Bool) (s : σ)

/-- A run, cancelled or not, is one of the coordinator over some events. -/
theorem exists_ran (t : Conformance) (w : Writer σ) : ∃ events : List WorkEvent, t.ranLogged w cancelled s =
    ran (t.dispatch w cancelled s).coordination s (t.enlisted (w.has s)).report events := by
  obtain ⟨events, hrun, -⟩ := Dispatch.run_heard (t.dispatch w cancelled s) s (t.enlisted (w.has s)).report
    t.config.splitThreshold
  exact ⟨events, hrun⟩

include hv in
theorem unreported (h : name ∉ t.selected) : (t.ranLogged w cancelled s).report.get? name = none := by
  obtain ⟨-, -, -, hreport⟩ := t.enlistAll_adds (w.has s) t.selected .none
  obtain ⟨events, hrun⟩ := t.exists_ran cancelled s w
  have hother : ∀ j ∈ (t.enlisted (w.has s)).jobs, j.name ≠ name :=
    fun j hj heq => h (heq ▸ (prepared_of_enlisted hj).1)
  rw [hrun, (ran_same hv (t.dispatch_names w cancelled s) _ events hother).report]
  exact hreport name h

include hv in
theorem reported_of_mem (hmem : name ∈ t.selected) (hcount : t.selected.count name ≤ 1) :
    ((t.ranLogged w cancelled s).report.get? name).isSome = true := by
  obtain ⟨events, hrun⟩ := t.exists_ran cancelled s w
  have hnames := t.dispatch_names w cancelled s
  rw [hrun]
  cases t.fate (w.has s) hmem hcount with
  | settled status hstatus hreport hjobs halone =>
    have hstart : (start (t.dispatch w cancelled s).coordination.logged (s, [])
        (t.enlisted (w.has s)).report).report.get? name = some status := hreport
    rw [(ran_same hv hnames _ events hjobs).report, hstart]
    rfl
  | enlisted n j hn hname hreport hapart halone =>
    exact hname ▸ ran_reports hnames hn s _ events

end

/-! ### One of the variables -/

/-- A run reports, writes and leaves behind of a variable that is selected once what a run of it alone does. -/
theorem ranLogged_only {view : String → σ → α} {w : Writer σ} (hv : w.Views view) (s : σ)
    (hmem : name ∈ t.selected) (hcount : t.selected.count name ≤ 1) :
    Same view name (t.ranLogged w (fun _ => false) s) ((t.only name).ranLogged w (fun _ => false) s) := by
  have hnames := t.dispatch_names w (fun _ => false) s
  have hlone := (t.only name).dispatch_names w (fun _ => false) s
  unfold ranLogged
  cases t.fate (w.has s) hmem hcount with
  | settled status hstatus hreport hjobs halone =>
    rw [← only_enlisted] at halone
    have hnone : ∀ j ∈ ((t.only name).dispatch w (fun _ => false) s).coordination.jobs, j.name ≠ name := by
      unfold dispatch
      rw [halone]
      exact fun _ h => absurd h List.not_mem_nil
    rw [Dispatch.run_logged fun _ => rfl, Dispatch.run_logged fun _ => rfl]
    have hstart : Same view name
        (start (t.dispatch w (fun _ => false) s).coordination.logged (s, []) (t.enlisted (w.has s)).report)
        (start ((t.only name).dispatch w (fun _ => false) s).coordination.logged (s, [])
          ((t.only name).enlisted (w.has s)).report) := by
      refine ⟨?_, rfl, rfl⟩
      show (t.enlisted (w.has s)).report.get? name = ((t.only name).enlisted (w.has s)).report.get? name
      rw [halone]
      exact hreport.trans (by rw [get?_record, if_pos rfl]; rfl)
    exact (ran_same hv hnames _ _ hjobs).trans (hstart.trans (ran_same hv hlone _ _ hnone).symm)
  | enlisted n j hn hname hreport hapart halone =>
    subst hname
    rw [← only_enlisted] at halone
    have hcontext : (t.only j.name).dispatch w (fun _ => false) s = (t.dispatch w (fun _ => false) s).only j := by
      unfold dispatch
      rw [halone]
      rfl
    rw [hcontext, halone]
    exact Dispatch.run_only (c := t.dispatch w (fun _ => false) s) (fun _ => rfl) hv hnames hn hapart hreport

end Conformance

/-! ### Runs that write to the memory -/

/-- The output that a call is about. -/
def WriterCall.name : WriterCall → String
  | opened name => name
  | wrote name _ => name
  | closed name => name
  | abandoned name => name

namespace Memory

/-- What the memory holds of an output. -/
def holds (name : String) (m : Memory) :
    (Option PendingVariable × Option Nat) × Option WrittenVariable × List WriterCall :=
  (m.knows name, m.finished.get? name, m.calls.filter (·.name = name))

/-- What the memory has finished, and its calls, about an output that a request is not about. -/
theorem kept_ask {r : Request} {name : String} (h : name ≠ r.name) (m : Memory) :
    (writer.ask r m).1.finished.get? name = m.finished.get? name ∧
      (writer.ask r m).1.calls.filter (·.name = name) = m.calls.filter (·.name = name) := by
  cases r with
  | openOutput head =>
    have h : head.name ≠ name := Ne.symm h
    simp [Writer.ask, writer, openOutput, note, WriterCall.name, h]
  | writeChunk n index data =>
    have h : n ≠ name := Ne.symm h
    simp only [Writer.ask, writer, writeChunk]
    split
    · exact ⟨rfl, rfl⟩
    · split
      · exact ⟨rfl, rfl⟩
      · split <;> simp [note, WriterCall.name, h]
  | close n =>
    have h : n ≠ name := Ne.symm h
    simp only [Writer.ask, writer, close]
    split
    · exact ⟨rfl, rfl⟩
    · split <;> simp [note, WriterCall.name, NameMap.get?_insert, h, Ne.symm h]
  | abandon n =>
    have h : n ≠ name := Ne.symm h
    simp [Writer.ask, writer, abandon, note, WriterCall.name, h]

/-- What it knows of an output decides what it finishes and notes of it. -/
theorem finished_ask {r : Request} {m t : Memory} (h : m.holds r.name = t.holds r.name) :
    (writer.ask r m).1.finished.get? r.name = (writer.ask r t).1.finished.get? r.name ∧
      (writer.ask r m).1.calls.filter (·.name = r.name) = (writer.ask r t).1.calls.filter (·.name = r.name) := by
  obtain ⟨⟨hpending, hfailing⟩, hfinished, hcalls⟩ := by simpa [holds, knows] using h
  cases r with
  | openOutput head =>
    simp only [Request.name] at hfinished hcalls
    simp [Writer.ask, writer, openOutput, note, Request.name, hfinished, hcalls]
  | writeChunk n index data =>
    simp only [Request.name] at hpending hfailing hfinished hcalls
    simp only [Writer.ask, writer, writeChunk, failsNow, Request.name, hpending, hfailing]
    by_cases hf : (t.failing.get? n).any (0 < ·) = true
    · simp [hf, hfinished, hcalls]
    · cases hp : t.pending.get? n with
      | none => simp [hf, hfinished, hcalls]
      | some p => by_cases hi : index = p.chunks.length <;> simp [hf, hi, note, hfinished, hcalls]
  | close n =>
    simp only [Request.name] at hpending hfinished hcalls
    simp only [Writer.ask, writer, close, Request.name, hpending]
    cases hp : t.pending.get? n with
    | none => simp [hfinished, hcalls]
    | some p => cases ha : assemble p <;> simp [ha, note, NameMap.get?_insert, hfinished, hcalls]
  | abandon n =>
    simp only [Request.name] at hfinished hcalls
    simp [Writer.ask, writer, abandon, note, Request.name, hfinished, hcalls]

theorem holds_views : writer.Views holds where
  other r name m hne := by
    obtain ⟨hfinished, hcalls⟩ := kept_ask hne m
    exact Prod.ext (views.other r name m hne) (Prod.ext hfinished hcalls)
  same r m t h := by
    obtain ⟨houtcome, hknows⟩ := views.same r m t (congrArg Prod.fst h)
    obtain ⟨hfinished, hcalls⟩ := finished_ask h
    exact ⟨houtcome, Prod.ext hknows (Prod.ext hfinished hcalls)⟩

end Memory

namespace Conformance

/-- A run that is not cancelled reports the selected names, if they are distinct, and no others. Of each it
    reports, asks, notes and finishes what the run of that variable alone does, from the same memory, whatever
    becomes of the others. -/
theorem run_isolated (t : Conformance) (m : Memory) (hdistinct : t.selected.Nodup) :
    let run := fun t : Conformance => t.run Memory.writer (fun _ => false) m
    let log := fun t : Conformance => (t.run Memory.writer.logged (fun _ => false) (m, [])).state.2
    (∀ name, name ∈ (run t).report.keys ↔ name ∈ t.selected) ∧
    ∀ name ∈ t.selected,
      (run t).report.get? name = (run (t.only name)).report.get? name ∧
      answersFor name (log t) = answersFor name (log (t.only name)) ∧
      (run t).state.calls.filter (·.name = name) = (run (t.only name)).state.calls.filter (·.name = name) ∧
      (run t).state.finished.get? name = (run (t.only name)).state.finished.get? name := by
  intro run log
  have hcount : ∀ name, t.selected.count name ≤ 1 := List.nodup_iff_count_le_one.mp hdistinct
  refine ⟨fun name => ?_, fun name hmem => ?_⟩
  · rw [NameMap.mem_keys, NameMap.contains, (t.run_forget _ _ _).2]
    refine ⟨fun h => ?_, fun h => t.reported_of_mem Memory.holds_views _ m h (hcount name)⟩
    by_contra hnot
    rw [t.unreported Memory.holds_views _ m hnot] at h
    cases h
  · have hsame := ranLogged_only Memory.holds_views m hmem (hcount name)
    obtain ⟨-, hview⟩ := Prod.mk.inj hsame.view
    obtain ⟨hfinished, hcalls⟩ := Prod.mk.inj hview
    obtain ⟨hstate, hreport⟩ := t.run_forget Memory.writer (fun _ => false) m
    obtain ⟨hstate', hreport'⟩ := (t.only name).run_forget Memory.writer (fun _ => false) m
    refine ⟨?_, hsame.calls, ?_, ?_⟩
    · rw [hreport, hreport']
      exact hsame.report
    · rw [hstate, hstate']
      exact hcalls
    · rw [hstate, hstate']
      exact hfinished

/-- A definition that cannot be read, one that refers to itself, and the double of some temperatures. -/
def troubled : Conformance :=
  { Dispatch.warming with
    standard := .ofList [("bad", ⟨["time"], "K", .empty⟩), ("double", ⟨["time"], "K", .empty⟩),
      ("self", ⟨["time"], "K", .empty⟩)]
    definitions := .ofList [("bad", "tas +* 2"), ("double", "2 * tas"), ("self", "self + 1")] }

/-- The double comes out as it does alone, though one chunk fails to be written at first and the other two
    definitions fail. -/
theorem run_isolated_troubled :
    let m := Memory.empty.failWrites "double" 1
    let run := fun t : Conformance => t.run Memory.writer (fun _ => false) m
    troubled.selected.Nodup ∧ "self" ∈ (run troubled).report.keys ∧
      (run troubled).report.get? "double" = (run (troubled.only "double")).report.get? "double" ∧
      (run troubled).state.finished.get? "double" = (run (troubled.only "double")).state.finished.get? "double" := by
  have hselected : troubled.selected = ["bad", "double", "self"] := by decide +kernel
  have hdistinct : troubled.selected.Nodup := by
    rw [hselected]
    decide
  intro m run
  obtain ⟨hkeys, halone⟩ := run_isolated troubled m hdistinct
  obtain ⟨hreport, -, -, hfinished⟩ := halone "double" (by simp [hselected])
  exact ⟨hdistinct, (hkeys "self").mpr (by simp [hselected]), hreport, hfinished⟩

end Conformance
end Concord
