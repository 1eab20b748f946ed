import Concord.Proofs.Schedule.Alone
import Concord.Proofs.Schedule.Moves

/-! Runs that are cancelled. Up to some turn a run is as one that is not; from then on nothing is asked of its
    destination but to abandon what is open. A job that has a status keeps it, and one with pieces still to come is
    skipped, or has failed if it was open. -/

namespace Concord
namespace Coordinator

variable {σ : Type}

/-! ### What is known of a job -/

/-- What was asked for a job under way. -/
structure Underway (j : Job) (opened : Bool) (log : List Answer) : Prop where
  opened : opened = true ↔ .openOutput j.header ∈ grants log
  unclosed : .close j.name ∉ grants log
  kept : ∀ r ∈ asked log, r.isAbandon = false

/-- A job is under way and has no status, or it has one, that of a success if its output was closed. -/
structure Tracked (n : Nat) (j : Job) (k : Logged σ) : Prop where
  present : n < k.states.length
  live : (k.jobState n).terminal = false →
    Underway j (k.jobState n).opened (k.calls j.name) ∧ k.report.get? j.name = none
  ended : (k.jobState n).terminal = true → ∃ status, k.report.get? j.name = some status ∧
    (.close j.name ∈ grants (k.calls j.name) → status = .succeeded j.plan.outputChunks)

/-- A job has its status, and no more is asked for it. -/
structure Settled (n : Nat) (name : String) (log : List Answer) (status : Status) (k : Logged σ) : Prop where
  present : n < k.states.length
  terminal : (k.jobState n).terminal = true
  report : k.report.get? name = some status
  calls : k.calls name = log

/-- What becomes of a job that is cancelled after some calls. -/
inductive CutShort (j : Job) (before : List Answer) : List Answer → Status → Prop
  | skipped (h : .openOutput j.header ∉ grants before) : CutShort j before before (.skipped "cancelled")
  | failed (h : .openOutput j.header ∈ grants before) (hkept : ∀ r ∈ asked before, r.isAbandon = false)
      (outcome : Except WriterError Unit) :
      CutShort j before (before ++ [⟨.abandon j.name, outcome⟩]) (.ofFailure .cancelled)

section
variable {c : Context σ} {n : Nat} {j : Job} {k t : Logged σ} {r : Request} {opened : Bool}
  {retries : Nat} {log answers : List Answer}

theorem Underway.refused {e : WriterError} (h : Underway j opened log) (ht : Tried r retries (.error e) answers)
    (hr : r.isAbandon = false) : Underway j opened (log ++ answers) := by
  have hgrants : grants (log ++ answers) = grants log := by rw [grants_append, ht.grants_error, List.append_nil]
  refine ⟨hgrants ▸ h.opened, hgrants ▸ h.unclosed, fun q hq => ?_⟩
  rw [asked_append] at hq
  exact (List.mem_append.mp hq).elim (h.kept q) fun hq => ht.request q hq ▸ hr

theorem Underway.granted (h : Underway j opened log) (ht : Tried r retries (.ok ()) answers)
    (hr : r.isAbandon = false) (hclose : r ≠ .close j.name) {opened' : Bool}
    (hopened : opened' = true ↔ opened = true ∨ r = .openOutput j.header) : Underway j opened' (log ++ answers) := by
  have hgrants : grants (log ++ answers) = grants log ++ [r] := by rw [grants_append, ht.grants_ok]
  refine ⟨?_, ?_, fun q hq => ?_⟩
  · rw [hopened, h.opened, hgrants, List.mem_append, List.mem_singleton, eq_comm (a := r)]
  · rw [hgrants, List.mem_append, List.mem_singleton]
    exact not_or.mpr ⟨h.unclosed, hclose.symm⟩
  · rw [asked_append] at hq
    exact (List.mem_append.mp hq).elim (h.kept q) fun hq => ht.request q hq ▸ hr

/-- An output is given up, and a status recorded. -/
theorem settled_of_abandon (h : n < k.states.length) (hnone : k.report.get? j.name = none) (status : Status) :
    Settled n j.name ((abandon c.logged k n j.name).calls j.name) status
      { abandon c.logged k n j.name with
        report := (abandon c.logged k n j.name).report.record j.name status } where
  present := (abandon_confined (c := c) (k := k) n j.name).length.symm ▸ h
  terminal := abandon_terminal h j.name
  report := by
    rw [get?_record, if_pos rfl, abandon_report, hnone]
    rfl
  calls := rfl

/-- Moves keep track of a job. -/
theorem Tracked.move (h : Tracked n j k) (hm : Move c n j k t) : Tracked n j t := by
  have hset : ∀ {u : Logged σ} (s : JobState), u.states.length = k.states.length → u.report = k.report →
      s.terminal = false → k.report.get? j.name = none → Underway j s.opened (u.calls j.name) →
      Tracked n j (u.setJob n s) := by
    intro u s hlen hreport hs hnone hunder
    have hn : n < u.states.length := hlen ▸ h.present
    refine ⟨by rwa [setJob_states_length], fun _ => ?_, fun hterminal => ?_⟩
    · rw [jobState_setJob hn]
      exact ⟨hunder, hreport ▸ hnone⟩
    · rw [jobState_setJob hn, hs] at hterminal
      cases hterminal
  cases hm with
  | wait hlive =>
    obtain ⟨hunder, hnone⟩ := h.live hlive
    exact hset _ rfl rfl hlive hnone hunder
  | refused hlive hr hplain hs =>
    obtain ⟨hunder, hnone⟩ := h.live hlive
    obtain ⟨answers, htried, hcalls⟩ := persist_calls _ hr hs
    refine ⟨h.present, fun _ => ⟨?_, hnone⟩, fun hterminal => ?_⟩
    · rw [hcalls]
      exact hunder.refused htried hplain
    · cases hlive.symm.trans hterminal
  | opened hlive hr hs =>
    obtain ⟨hunder, hnone⟩ := h.live hlive
    obtain ⟨answers, htried, hcalls⟩ := persist_calls (.openOutput j.header) hr hs
    refine hset _ rfl rfl hlive hnone ?_
    rw [hcalls]
    exact hunder.granted htried rfl (fun h => nomatch h) (by simp)
  | @wrote hlive hopened g s hs =>
    obtain ⟨hunder, hnone⟩ := h.live hlive
    obtain ⟨answers, htried, hcalls⟩ := persist_calls (.writeChunk j.name (k.jobState n).next g) rfl hs
    replace hcalls : ({ k with state := s } : Logged σ).calls j.name = k.calls j.name ++ answers := hcalls
    refine hset _ rfl rfl hlive hnone ?_
    rw [hcalls]
    exact hunder.granted htried rfl (fun h => nomatch h) (by simp)
  | @closed hlive _ s =>
    have hstate := jobState_setJob (k := { k with state := s })
      (s := { k.jobState n with terminal := true, succeeded := true }) h.present
    refine ⟨?_, fun hfalse => ?_, fun _ => ⟨_, ?_, fun _ => rfl⟩⟩
    · exact setJob_states_length.symm ▸ h.present
    · cases (congrArg JobState.terminal hstate).symm.trans hfalse
    · rw [get?_record, if_pos rfl, (h.live hlive).2]
      rfl
  | ended hlive status =>
    obtain ⟨hunder, hnone⟩ := h.live hlive
    have hsettled := settled_of_abandon (c := c) h.present hnone status
    refine ⟨hsettled.present, fun hfalse => ?_, fun _ => ⟨status, hsettled.report, fun hclose => ?_⟩⟩
    · cases hsettled.terminal.symm.trans hfalse
    · exact absurd (((abandon_calls c k n j).mem_grants rfl).mp hclose) hunder.unclosed

theorem Tracked.persistent (c : Context σ) : Persistent c n j (Tracked n j) where
  present h := h.present
  move h hm := h.move hm
  other {k t i name} h hk hi hn := by
    have hstate := hk.jobState n hi
    have hcalls := hk.calls hn
    have hreport := hk.report j.name hn
    exact ⟨hk.length.symm ▸ h.present, by rw [hstate, hcalls, hreport]; exact h.live,
      by rw [hstate, hcalls, hreport]; exact h.ended⟩

theorem Settled.persistent {status : Status} (c : Context σ) : Persistent c n j (Settled n j.name log status) where
  present h := h.present
  move h hm := by cases hm.live.symm.trans h.terminal
  other h hk hi hn := ⟨hk.length.symm ▸ h.present, (hk.jobState n hi).symm ▸ h.terminal,
    (hk.report j.name hn).trans h.report, (hk.calls hn).trans h.calls⟩

theorem start_tracked (s : σ) {report : Report} (hsep : Separate c.jobs report) (hn : c.jobs[n]? = some j) :
    Tracked n j (start c.logged (s, []) report) := by
  have hidle := jobState_start c.logged (s, []) report n
  refine ⟨lt_start _ report hn, fun _ => ⟨?_, hsep.fresh j (List.mem_of_getElem? hn)⟩, fun h => ?_⟩
  · rw [hidle]
    exact ⟨⟨fun h => Bool.noConfusion h, fun h => absurd h List.not_mem_nil⟩, List.not_mem_nil,
      fun _ h => absurd h List.not_mem_nil⟩
  · rw [hidle] at h
    cases h

/-! ### Cancelled jobs -/

/-- A job under way that is cancelled is cut short. -/
theorem Tracked.cancel (h : Tracked n j k) (hlive : (k.jobState n).terminal = false) :
    ∃ log status, CutShort j (k.calls j.name) log status ∧
      Settled n j.name log status (cancel c.logged k n j.name) := by
  obtain ⟨hunder, hnone⟩ := h.live hlive
  have hsettled := fun status => settled_of_abandon (c := c) h.present hnone status
  have hcalls := abandon_calls c k n j
  unfold Coordinator.cancel
  dsimp only
  rw [hlive]
  cases ho : (k.jobState n).opened with
  | false =>
    rw [ho] at hunder hcalls
    refine ⟨_, _, ?_, hsettled _⟩
    rw [show (Coordinator.abandon c.logged k n j.name).calls j.name = k.calls j.name from hcalls]
    exact .skipped fun hopen => Bool.noConfusion (hunder.opened.mpr hopen)
  | true =>
    rw [ho] at hunder hcalls
    obtain ⟨outcome, hcalls⟩ := hcalls
    rw [if_neg Bool.false_ne_true, if_pos rfl, Coordinator.fail, hlive]
    refine ⟨_, _, ?_, hsettled _⟩
    rw [hcalls]
    exact .failed (hunder.opened.mp rfl) hunder.kept outcome

/-- The news that pieces of work were not started. -/
def notices (items : List WorkItem) : List WorkEvent := items.map fun item => .cancelled item.job

/-- A job under way with a piece among those that are not started is cut short. -/
theorem Tracked.notices {report : Report} (hsep : Separate c.jobs report) (hn : c.jobs[n]? = some j) :
    ∀ (items : List WorkItem) {k : Logged σ}, Tracked n j k → (k.jobState n).terminal = false →
      (∃ item ∈ items, item.job = n) → ∃ log status, CutShort j (k.calls j.name) log status ∧
        Settled n j.name log status ((notices items).foldl (handle c.logged) k)
  | [], _, _, _, ⟨_, hmem, _⟩ => absurd hmem List.not_mem_nil
  | item :: items, k, h, hlive, hitem => by
    show ∃ log status, CutShort j (k.calls j.name) log status ∧ Settled n j.name log status
      ((Coordinator.notices items).foldl (handle c.logged) (handle c.logged k (.cancelled item.job)))
    -- The first piece of the job cuts it short; those before it are of other jobs.
    by_cases hi : item.job = n
    · have hcancel : handle c.logged k (.cancelled item.job) = Coordinator.cancel c.logged k n j.name := by
        unfold handle
        rw [show c.logged.jobs[(WorkEvent.cancelled item.job).job]? = some j from hi ▸ hn, hi]
      obtain ⟨log, status, hcut, hsettled⟩ := h.cancel (c := c) hlive
      refine ⟨log, status, hcut, ?_⟩
      exact (Settled.persistent c).foldl_handle hsep hn (Coordinator.notices items) (hcancel ▸ hsettled)
    · have hrest : ∃ item ∈ items, item.job = n := by
        obtain ⟨other, hmem, hother⟩ := hitem
        rcases List.mem_cons.mp hmem with rfl | hmem
        · exact absurd hother hi
        · exact ⟨other, hmem, hother⟩
      rcases handle_cases hsep.headers k (.cancelled item.job) with ⟨-, hsame⟩ | ⟨j', hj', hk⟩
      · rw [hsame]
        exact Tracked.notices hsep hn items h hlive hrest
      · have hname := hsep.name_ne hj' hn (Ne.symm hi)
        have ih := Tracked.notices hsep hn items ((Tracked.persistent c).other h hk (Ne.symm hi) hname)
          ((hk.jobState n (Ne.symm hi)).symm ▸ hlive) hrest
        rwa [hk.calls hname] at ih

/-! ### Requests of a run that is cancelled -/

/-- From `k` to `t` nothing was asked but to abandon outputs. -/
def Abandons (k t : Logged σ) : Prop := ∃ more, t.state.2 = k.state.2 ++ more ∧ ∀ r ∈ asked more, r.isAbandon = true

theorem Abandons.refl (k : Logged σ) : Abandons k k := ⟨[], (List.append_nil _).symm, fun _ h => nomatch h⟩

theorem Abandons.trans {u : Logged σ} (h : Abandons k t) (h' : Abandons t u) : Abandons k u := by
  obtain ⟨more, ht, hmore⟩ := h
  obtain ⟨rest, hu, hrest⟩ := h'
  refine ⟨more ++ rest, by rw [hu, ht, List.append_assoc], fun r hr => ?_⟩
  rw [asked_append] at hr
  exact (List.mem_append.mp hr).elim (hmore r) (hrest r)

theorem Abandons.foldl {β : Type} {f : Logged σ → β → Logged σ} (hf : ∀ k b, Abandons k (f k b)) :
    ∀ (l : List β) (k : Logged σ), Abandons k (l.foldl f k)
  | [], k => .refl k
  | b :: l, k => (hf k b).trans (foldl hf l (f k b))

variable (c k) (name : String)

theorem abandon_abandons : Abandons k (abandon c.logged k n name) := by
  unfold abandon
  dsimp only
  split
  · exact ⟨[⟨.abandon name, (c.writer.ask (.abandon name) k.state.1).2⟩], rfl,
      fun r hr => List.mem_singleton.mp hr ▸ rfl⟩
  · exact .refl k

theorem fail_abandons (f : Failure) : Abandons k (fail c.logged k n name f) := by
  unfold fail
  split
  · exact .refl k
  · exact abandon_abandons c k name

theorem cancel_abandons : Abandons k (cancel c.logged k n name) := by
  unfold Coordinator.cancel
  dsimp only
  split
  · exact .refl k
  · split
    · exact fail_abandons c k name _
    · exact abandon_abandons c k name

theorem notices_abandons (items : List WorkItem) : Abandons k ((notices items).foldl (handle c.logged) k) := by
  rw [notices, List.foldl_map]
  refine Abandons.foldl (fun k item => ?_) items k
  unfold handle
  split
  · exact .refl k
  · exact cancel_abandons c k _

theorem finish_abandons : Abandons k (finish c.logged k) :=
  Abandons.foldl (fun k _ => fail_abandons c k _ _) _ k

end
end Coordinator

namespace Dispatch

open Coordinator

variable {σ : Type}

/-! ### The turn at which a run is cancelled -/

/-- The same run, never cancelled. -/
def Context.steady (c : Context σ) : Context σ := { c with cancelled := fun _ => false }

/-- A run that is cancelled stays so, whatever is asked of its destination. -/
def Context.Latched (c : Context σ) : Prop :=
  ∀ r s, c.cancelled s = true → c.cancelled (c.coordination.writer.ask r s).1 = true

/-- A run before the turn of one of its pieces of work. -/
def before (c : Context σ) (threshold : Option Nat) (s : σ) (report : Report) (i : Nat) :
    Coordinator σ × List Reading :=
  ((WorkItem.ofJobs c.coordination.jobs threshold).take i).foldl (step c)
    (Coordinator.start c.coordination s report, [])

section
variable {c : Context σ} {s : Logged σ × List Reading} {item : WorkItem}

theorem step_cancelled (h : c.cancelled s.1.state.1 = true) :
    step c.logged s item = (handle c.coordination.logged s.1 (.cancelled item.job), s.2) := if_pos h

theorem step_steady (h : c.cancelled s.1.state.1 = false) : step c.logged s item = step c.steady.logged s item :=
  if_neg (Bool.eq_false_iff.mp h)

variable (hlatched : c.Latched) (hnames : ∀ j ∈ c.coordination.jobs, j.header.name = j.name)
include hlatched

theorem Context.Latched.notes : ∀ (rs : List Request) {s : σ × List Answer}, c.cancelled s.1 = true →
    c.cancelled (c.coordination.writer.notes s rs).1 = true
  | [], _, h => h
  | r :: rs, _, h => Context.Latched.notes rs (hlatched r _ h)

include hnames

/-- From the turn at which a run is cancelled on, no piece of work is started. -/
theorem foldl_step_cancelled : ∀ (items : List WorkItem) {s : Logged σ × List Reading}, c.cancelled s.1.state.1 = true →
    items.foldl (step c.logged) s = ((notices items).foldl (handle c.coordination.logged) s.1, s.2) ∧
      c.cancelled (items.foldl (step c.logged) s).1.state.1 = true
  | [], _, h => ⟨rfl, h⟩
  | item :: items, s, h => by
    have hup : c.cancelled (handle c.coordination.logged s.1 (.cancelled item.job)).state.1 = true := by
      rcases handle_cases hnames s.1 (.cancelled item.job) with ⟨-, hsame⟩ | ⟨j, -, hk⟩
      · rwa [hsame]
      · obtain ⟨rs, -, hrs⟩ := hk.requests
        rw [hrs]
        exact hlatched.notes rs h
    rw [List.foldl_cons, step_cancelled h]
    exact foldl_step_cancelled items hup

/-- There is a turn before which a run is as one that is not cancelled, and from which on nothing is started. -/
theorem exists_turn : ∀ (items : List WorkItem) (s : Logged σ × List Reading), ∃ m ≤ items.length,
    (∀ i < items.length, c.cancelled ((items.take i).foldl (step c.logged) s).1.state.1 = decide (m ≤ i)) ∧
    (∀ i ≤ m, (items.take i).foldl (step c.logged) s = (items.take i).foldl (step c.steady.logged) s) ∧
    let t := (items.take m).foldl (step c.logged) s
    items.foldl (step c.logged) s = ((notices (items.drop m)).foldl (handle c.coordination.logged) t.1, t.2)
  | [], s => ⟨0, Nat.le_refl 0, fun i hi => absurd hi (Nat.not_lt_zero i), fun i _ => by rw [List.take_nil]; rfl, rfl⟩
  | item :: items, s => by
    -- The turn is the first one at which the run is found cancelled.
    cases hup : c.cancelled s.1.state.1 with
    | true =>
      refine ⟨0, Nat.zero_le _, fun i _ => ?_, fun i hi => ?_, ?_⟩
      · exact (foldl_step_cancelled hlatched hnames _ hup).2
      · rw [Nat.le_zero.mp hi]
        rfl
      · exact (foldl_step_cancelled hlatched hnames _ hup).1
    | false =>
      obtain ⟨m, hm, hflag, hsteady, hrest⟩ := exists_turn items (step c.logged s item)
      refine ⟨m + 1, Nat.succ_le_succ hm, fun i hi => ?_, fun i hi => ?_, hrest⟩
      · cases i with
        | zero => exact hup
        | succ i =>
          rw [List.take_succ_cons, List.foldl_cons, hflag i (Nat.lt_of_succ_lt_succ hi)]
          exact decide_eq_decide.mpr Nat.succ_le_succ_iff.symm
      · cases i with
        | zero => rfl
        | succ i =>
          rw [List.take_succ_cons, List.foldl_cons, List.foldl_cons, hsteady i (Nat.le_of_succ_le_succ hi),
            step_steady hup]

end

/-! ### Whole runs -/

/-- A run that can be cancelled is as one that cannot up to the turn of some piece of work. From then on nothing is
    read, and nothing asked but to abandon outputs. A job that has a status keeps it, that of a success if its output
    is closed; one without and with pieces still to come is cut short. -/
theorem run_cancelled (c : Context σ) (s : σ) (report : Report) (threshold : Option Nat)
    (hsep : Separate c.coordination.jobs report) (hlatched : c.Latched) :
    let items := WorkItem.ofJobs c.coordination.jobs threshold
    let t := run c.logged threshold (s, []) report
    t.1.forget = (run c threshold s report).1 ∧ ∃ m ≤ items.length,
      (∀ i < items.length, c.cancelled (before c.logged threshold (s, []) report i).1.state.1 = decide (m ≤ i)) ∧
      (∀ i ≤ m, before c.logged threshold (s, []) report i = before c.steady.logged threshold (s, []) report i) ∧
      let k := before c.logged threshold (s, []) report m
      t.2 = k.2 ∧ Abandons k.1 t.1 ∧ ∀ (n : Nat) (j : Job), c.coordination.jobs[n]? = some j →
        (∀ status, k.1.report.get? j.name = some status →
          t.1.report.get? j.name = some status ∧ t.1.calls j.name = k.1.calls j.name) ∧
        (.close j.name ∈ grants (k.1.calls j.name) →
          k.1.report.get? j.name = some (.succeeded j.plan.outputChunks)) ∧
        (k.1.report.get? j.name = none → (∃ item ∈ items.drop m, item.job = n) →
          ∃ status, t.1.report.get? j.name = some status ∧
            CutShort j (k.1.calls j.name) (t.1.calls j.name) status) := by
  intro items t
  refine ⟨run_forget c s report threshold, ?_⟩
  obtain ⟨m, hm, hflag, hsteady, hrest⟩ :=
    exists_turn hlatched hsep.headers items (start c.coordination.logged (s, []) report, [])
  refine ⟨m, hm, hflag, hsteady, ?_⟩
  intro k
  have hlast : t = (finish c.coordination.logged ((notices (items.drop m)).foldl (handle c.coordination.logged) k.1),
      k.2) := congrArg (fun p : Logged σ × List Reading => (finish c.coordination.logged p.1, p.2)) hrest
  rw [hlast]
  refine ⟨rfl, (notices_abandons _ _ _).trans (finish_abandons _ _), fun n j hn => ?_⟩
  have htracked : Tracked n j k.1 := by
    obtain ⟨events, hevents, -⟩ := foldl_step_heard (c := c.logged) (items.take m)
      (start c.coordination.logged (s, []) report, [])
    rw [show k.1 = events.foldl _ _ from hevents]
    exact (Tracked.persistent _).foldl_handle hsep hn events (start_tracked s hsep hn)
  have hend : ∀ {log : List Answer} {status : Status} {u : Logged σ}, Settled n j.name log status u →
      Settled n j.name log status (finish c.coordination.logged u) := (Settled.persistent _).finish hsep hn
  cases hterminal : (k.1.jobState n).terminal with
  | true =>
    obtain ⟨status, hstatus, hclose⟩ := htracked.ended hterminal
    have hsettled : Settled n j.name (k.1.calls j.name) status k.1 := ⟨htracked.present, hterminal, hstatus, rfl⟩
    have h := hend ((Settled.persistent _).foldl_handle hsep hn (notices (items.drop m)) hsettled)
    rw [hstatus]
    refine ⟨fun other hother => ⟨h.report.trans hother, h.calls⟩, fun hc => congrArg some (hclose hc), fun hnone => ?_⟩
    cases hnone
  | false =>
    obtain ⟨hunder, hnone⟩ := htracked.live hterminal
    rw [hnone]
    refine ⟨fun _ hstatus => (nomatch hstatus), fun hc => absurd hc hunder.unclosed, fun _ hitem => ?_⟩
    obtain ⟨log, status, hcut, hsettled⟩ := htracked.notices hsep hn (items.drop m) hterminal hitem
    have h := hend hsettled
    exact ⟨status, h.report, h.calls.symm ▸ hcut⟩

/-- One worker writes to the memory, until the first doubled temperature is written. -/
def interrupted (jobs : List Job) : Context Memory :=
  ⟨warming.source, warming.converter, ⟨Memory.writer, jobs, 1⟩, 1, fun m => m.calls.contains (.wrote "double" 0)⟩

theorem interrupted_latched (jobs : List Job) : (interrupted jobs).Latched := fun r m h =>
  List.contains_iff_mem.mpr ((Memory.calls_prefix r m).subset (List.contains_iff_mem.mp h))

/-- The doubled temperatures, which are split, come first. The other job is never started. -/
theorem run_cancelled_while_writing :
    let jobs := warmingJobs.reverse
    let c := interrupted jobs
    let k := (before c.logged (some 1) (Memory.empty, []) .empty 1).1
    let t := (run c.logged (some 1) (Memory.empty, []) .empty).1
    WorkItem.ofJobs jobs (some 1) = [.chunk 0 0, .chunk 0 1, .chunk 0 2, .whole 1] ∧ Abandons k t ∧
      ∀ (n : Nat) (j : Job), jobs[n]? = some j → ∃ status, t.report.get? j.name = some status ∧
        CutShort j (k.calls j.name) (t.calls j.name) status := by
  have hitems : WorkItem.ofJobs warmingJobs.reverse (some 1) = [.chunk 0 0, .chunk 0 1, .chunk 0 2, .whole 1] := by
    decide +kernel
  have hnames : warmingJobs.reverse.map Job.name = ["double", "anomaly"] := by decide +kernel
  have hheaders : ∀ j ∈ warmingJobs.reverse, j.header.name = j.name := by decide +kernel
  have hdown : (interrupted warmingJobs.reverse).cancelled
      (before (interrupted warmingJobs.reverse).logged (some 1) (Memory.empty, []) .empty 0).1.state.1 = false := by
    decide +kernel
  have hup : (interrupted warmingJobs.reverse).cancelled
      (before (interrupted warmingJobs.reverse).logged (some 1) (Memory.empty, []) .empty 1).1.state.1 = true := by
    decide +kernel
  have hnone : ∀ j ∈ warmingJobs.reverse,
      (before (interrupted warmingJobs.reverse).logged (some 1) (Memory.empty, []) .empty 1).1.report.get? j.name =
        none := by decide +kernel
  -- What follows holds of any jobs, and is not to be evaluated.
  generalize warmingJobs.reverse = jobs at *
  intro jobs' c k t
  have hsep : Separate c.coordination.jobs .empty := ⟨hheaders, hnames ▸ by decide, fun _ _ => rfl⟩
  obtain ⟨-, m, -, hflag, -, -, habandons, hjobs⟩ :=
    run_cancelled c Memory.empty .empty (some 1) hsep (interrupted_latched jobs)
  have hlen : (WorkItem.ofJobs jobs (some 1)).length = 4 := congrArg List.length hitems
  have hm : m = 1 := by
    have hpos : decide (m ≤ 0) = false := (hflag 0 (hlen ▸ by decide)).symm.trans hdown
    have hle : decide (m ≤ 1) = true := (hflag 1 (hlen ▸ by decide)).symm.trans hup
    simp only [decide_eq_false_iff_not, decide_eq_true_eq] at hpos hle
    omega
  subst hm
  refine ⟨hitems, habandons, fun n j hn => ?_⟩
  refine (hjobs n j hn).2.2 (hnone j (List.mem_of_getElem? hn)) ?_
  rw [show WorkItem.ofJobs c.coordination.jobs (some 1) = _ from hitems]
  have hlt : n < 2 := by
    have := (List.getElem?_eq_some_iff.mp hn).1
    rw [← List.length_map (f := Job.name), hnames] at this
    exact this
  match n, hlt with
  | 0, _ => exact ⟨.chunk 0 1, by decide, rfl⟩
  | 1, _ => exact ⟨.whole 1, by decide, rfl⟩

end Dispatch
end Concord
