import Concord.Proofs.Run.Isolated

/-! Each variable is written once. A run opens the output of a name that is selected once at most once, and the
    status of the name tells how its output ended, whatever the destination refuses and whenever the run is
    cancelled. A name that is selected twice has two jobs, each of which writes the output. -/

namespace Concord

variable {σ α : Type}

def Request.isOpen : Request → Bool
  | .openOutput _ => true
  | _ => false

/-- The output was opened at most once, and the status tells how it ended. -/
structure WrittenOnce (name : String) (calls : List Answer) (status : Option Status) : Prop where
  opened : (grants calls).countP Request.isOpen ≤ 1
  succeeded : ∀ n, status = some (.succeeded n) → .close name ∈ grants calls ∧ .abandon name ∉ asked calls
  failed : ∀ kind message, status = some (.failed kind message) → .close name ∉ grants calls

/-- An output that nothing was asked about was not written. -/
theorem WrittenOnce.nil {name : String} {status : Option Status} (h : ∀ n, status ≠ some (.succeeded n)) :
    WrittenOnce name [] status :=
  ⟨Nat.zero_le _, fun n hn => absurd hn (h n), fun _ _ _ => List.not_mem_nil⟩

namespace Coordinator

theorem countP_session (j : Job) (data : List (Grid Double)) : (session j data).countP Request.isOpen = 1 := by
  have hwrites : (data.mapIdx (Request.writeChunk j.name)).countP Request.isOpen = 0 := by
    rw [List.countP_eq_zero]
    intro r hr
    obtain ⟨i, hi, rfl⟩ := List.mem_mapIdx.mp hr
    exact Bool.false_ne_true
  rw [session, opening, List.cons_append, List.countP_cons_of_pos rfl, List.countP_append, hwrites]
  rfl

theorem Orderly.writtenOnce {job : Nat} {j : Job} {events : List WorkEvent} {log : List Answer} {status : Status}
    (h : Orderly job j events log status) : WrittenOnce j.name log (some status) where
  opened := by
    obtain ⟨data, -, done, hdone, hgrants⟩ := h.order
    have hle : done.countP Request.isOpen ≤ 1 := countP_session j data ▸ hdone.sublist.countP_le
    rcases hgrants with hgrants | hgrants
    · rwa [hgrants]
    · rw [hgrants, List.countP_append]
      exact hle
  succeeded n hn := by
    cases hn
    refine ⟨((h.succeeded n).mp rfl).2, fun ha => ?_⟩
    cases (h.abandoned.mp ha).1
  failed kind message hf := by
    cases hf
    intro hclose
    cases (h.succeeded j.plan.outputChunks).mpr ⟨rfl, hclose⟩

section
variable {view : String → σ → α} {c : Context σ} {s : σ} {n : Nat} {j : Job} {report : Report}

theorem InRange.only {events : List WorkEvent} (h : InRange c.jobs events) (hn : c.jobs[n]? = some j) :
    InRange (c.only j).jobs ((events.filter (·.job = n)).map (WorkEvent.renumbered 0)) := by
  intro job index data hmem j' hj'
  obtain ⟨e, hfilter, heq⟩ := List.mem_map.mp hmem
  obtain ⟨he, hjob⟩ := List.mem_filter.mp hfilter
  cases e with
  | failed m f => cases heq
  | cancelled m => cases heq
  | chunk m i g =>
    cases heq
    cases hj'
    have hjob : m = n := of_decide_eq_true hjob
    subst hjob
    exact h m index data he j hn

/-- A job whose name no other has writes its output once, whatever is heard, in whatever order. -/
theorem ran_writtenOnce (hv : c.writer.Views view) (hnames : ∀ j ∈ c.jobs, j.header.name = j.name)
    {events : List WorkEvent} (hrange : InRange c.jobs events) (hn : c.jobs[n]? = some j)
    (hapart : Apart c.jobs n j.name) (hreport : report.get? j.name = none) :
    WrittenOnce j.name ((ran c s report events).calls j.name) ((ran c s report events).report.get? j.name) := by
  have hname := hnames j (List.mem_of_getElem? hn)
  have hsep : Separate (c.only j).jobs .empty :=
    ⟨fun j' hj' => by rw [List.mem_singleton.mp hj']; exact hname, List.nodup_singleton _, fun _ _ => rfl⟩
  have hsame := ran_only (s := s) hv hnames events hn hapart
    (show report.get? j.name = (.empty : Report).get? j.name from hreport)
  obtain ⟨status, hstatus, hended⟩ :=
    ran_ended (s := s) hsep (hrange.only hn) (show (c.only j).jobs[0]? = some j from rfl)
  rw [hsame.calls, hsame.report, hstatus]
  exact hended.orderly.writtenOnce

end
end Coordinator

namespace Conformance

theorem dispatch_prepared (t : Conformance) (w : Writer σ) (cancelled : σ → Bool) (s : σ) :
    ∀ j ∈ (t.dispatch w cancelled s).coordination.jobs, j.Prepared t := by
  intro j hj
  obtain ⟨-, target, h⟩ := prepared_of_enlisted hj
  exact ⟨j.name, target, h⟩

/-- A run writes the output of a name that is selected once at most once, and reports how that ended. -/
theorem run_writtenOnce {view : String → σ → α} (t : Conformance) {w : Writer σ} (hv : w.Views view)
    (cancelled : σ → Bool) (s : σ) (name : String) (hcount : t.selected.count name ≤ 1) :
    let r := t.run w.logged (fun s => cancelled s.1) (s, [])
    WrittenOnce name (answersFor name r.state.2) (r.report.get? name) := by
  obtain ⟨events, hrun, hevents⟩ := Dispatch.run_heard (t.dispatch w cancelled s) s (t.enlisted (w.has s)).report
    t.config.splitThreshold
  have hnames := t.dispatch_names w cancelled s
  have hrange : Coordinator.InRange (t.dispatch w cancelled s).coordination.jobs events := by
    intro n i g hmem j hn
    rcases hevents _ hmem with hc | ⟨item, hitem, he⟩
    · cases hc
    · exact Dispatch.heard_inRange (fun j hj => ⟨t, t.dispatch_prepared w cancelled s j hj⟩) (.refl _) n i g
        (List.mem_flatMap.mpr ⟨item, hitem, he⟩) j hn
  intro r
  have hcalls : answersFor name r.state.2 = (t.ranLogged w cancelled s).calls name := rfl
  have hreport : r.report = (t.ranLogged w cancelled s).report := rfl
  rw [hcalls, hreport, show t.ranLogged w cancelled s = _ from hrun]
  by_cases hmem : name ∈ t.selected
  · cases t.fate (w.has s) hmem hcount with
    | settled status hstatus hreport hjobs halone =>
      have hsame := Coordinator.ran_same (s := s) hv hnames (t.enlisted (w.has s)).report events hjobs
      have hnone : ∀ n, some status ≠ some (.succeeded n) := fun n h => hstatus n (Option.some.inj h)
      rw [hsame.calls, hsame.report]
      exact (show (t.enlisted (w.has s)).report.get? name = some status from hreport) ▸ WrittenOnce.nil hnone
    | enlisted n j hn hname hreport hapart halone =>
      subst hname
      exact Coordinator.ran_writtenOnce hv hnames hrange hn hapart hreport
  · have hnone := t.unreported hv cancelled s hmem
    have hother : ∀ j ∈ (t.enlisted (w.has s)).jobs, j.name ≠ name :=
      fun j hj heq => hmem (heq ▸ (prepared_of_enlisted hj).1)
    rw [show t.ranLogged w cancelled s = _ from hrun] at hnone
    rw [hnone, (Coordinator.ran_same (s := s) hv hnames (t.enlisted (w.has s)).report events hother).calls]
    exact .nil fun _ h => nomatch h

/-- Whether the output of the doubled temperatures is open, or was. -/
def doubleOpened (m : Memory) : Bool := m.calls.contains (.opened "double")

/-- The run is cancelled once the doubled temperatures are open, and their first chunk fails to be written
    twice. -/
theorem run_writtenOnce_failing :
    Dispatch.warming.selected.count "double" ≤ 1 ∧
      let r := Dispatch.warming.run Memory.writer.logged (fun s => doubleOpened s.1)
        (Memory.empty.failWrites "double" 2, [])
      WrittenOnce "double" (answersFor "double" r.state.2) (r.report.get? "double") := by
  have hselected : Dispatch.warming.selected = ["anomaly", "double"] := by decide +kernel
  have hcount : Dispatch.warming.selected.count "double" ≤ 1 := by
    rw [hselected]
    decide
  exact ⟨hcount, run_writtenOnce Dispatch.warming Memory.views doubleOpened (Memory.empty.failWrites "double" 2)
    "double" hcount⟩

/-- A name that is selected twice is reported as failed, as its first job was, though the second one completes its
    output. -/
example :
    let t := { Dispatch.warming with
      config := { Config.standard with selection := some ["double", "double"], writerRetries := 0 } }
    let r := t.run Memory.writer (fun _ => false) (Memory.empty.failWrites "double" 1)
    r.report.get? "double" = some (.failed "WriterError" "writer failed for 'double': injected write failure") ∧
      r.state.calls =
        [.opened "double", .abandoned "double", .opened "double", .wrote "double" 0, .closed "double"] := by
  decide +kernel

end Conformance
end Concord
