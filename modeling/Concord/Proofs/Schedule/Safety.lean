import Concord.Output.Memory
import Concord.Proofs.Schedule.SessionSteps

/-! What holds of a run of the coordinator however its events are ordered and whatever the destination
    refuses: each job has its output written in order, and one status that tells what became of it. -/

namespace Concord.Coordinator

variable {σ : Type}

/-! ### Jobs apart from each other -/

/-- The jobs of a run have names of their own, none of which is in the report yet. -/
structure Separate (jobs : List Job) (report : Report) : Prop where
  headers : ∀ j ∈ jobs, j.header.name = j.name
  names : (jobs.map Job.name).Nodup
  fresh : ∀ j ∈ jobs, report.get? j.name = none

theorem Separate.name_ne {jobs : List Job} {report : Report} (h : Separate jobs report) {i job : Nat}
    {j' j : Job} (hi : jobs[i]? = some j') (hj : jobs[job]? = some j) (hne : job ≠ i) : j.name ≠ j'.name := by
  intro heq
  refine hne ((List.getElem?_inj ?_ h.names).mp ?_)
  · rw [List.length_map]
    exact (List.getElem?_eq_some_iff.mp hj).1
  · rw [List.getElem?_map, List.getElem?_map, hi, hj]
    exact congrArg some heq

/-- Every chunk is one of the output of its job. -/
def InRange (jobs : List Job) (events : List WorkEvent) : Prop :=
  ∀ job index data, .chunk job index data ∈ events → ∀ j, jobs[job]? = some j → index < j.plan.outputChunks

section
variable {c : Context σ} {job i : Nat} {j j' : Job} {events : List WorkEvent} {data : List (Grid Double)}
  {missing : Nat → Prop} {k t : Logged σ}

theorem Running.of_confined (h : Running c job j events data k) (hk : Confined c.writer i j'.name k t)
    (hi : job ≠ i) (hn : j.name ≠ j'.name) : Running c job j events data t := by
  have hs := hk.jobState job hi
  exact
    { present := hk.length.symm ▸ h.present
      live := hs.symm ▸ h.live
      next := hs.symm ▸ h.next
      unopened := hs.symm ▸ h.unopened
      within := h.within
      heard := h.heard
      early := hs.symm ▸ h.early
      silent := (hk.report _ hn).trans h.silent
      granted := by
        rw [hs, hk.calls hn]
        exact h.granted }

theorem Over.of_confined (h : Over c job j events missing k) (hk : Confined c.writer i j'.name k t)
    (hi : job ≠ i) (hn : j.name ≠ j'.name) : Over c job j events missing t where
  present := hk.length.symm ▸ h.present
  terminal := (hk.jobState job hi).symm ▸ h.terminal
  ended := by
    rw [hk.report _ hn, hk.calls hn]
    exact h.ended

/-- What happens to another job leaves a job at its stage. -/
theorem Stage.of_confined (h : Stage c job j events k) (hk : Confined c.writer i j'.name k t)
    (hi : job ≠ i) (hn : j.name ≠ j'.name) : Stage c job j events t := by
  rcases h with ⟨data, h⟩ | h
  · have hs := hk.jobState job hi
    exact .inl ⟨data, h.toRunning.of_confined hk hi hn, fun n g hg => hs.symm ▸ h.arrived n g hg,
      hs.symm ▸ h.turn, h.unfinished⟩
  · exact .inr (h.of_confined hk hi hn)

/-- What is not a chunk of a job leaves the job where it is. -/
theorem Stage.mono (h : Stage c job j events k) {e : WorkEvent} (he : ∀ n g, e ≠ .chunk job n g) :
    Stage c job j (events ++ [e]) k := by
  have hsub := List.subset_append_left events [e]
  rcases h with ⟨data, h⟩ | h
  · refine .inl ⟨data, h.toRunning.mono hsub, fun n g hg => ?_, h.turn, h.unfinished⟩
    rcases List.mem_append.mp hg with hg | hg
    · exact h.arrived n g hg
    · exact absurd (List.mem_singleton.mp hg).symm (he n g)
  · exact .inr (h.mono hsub fun _ => id)

theorem Stage.fail (h : Stage c job j events k) {f : Failure} (hf : .failed job f ∈ events) :
    Over c job j events (fun _ => False) (fail c.logged k job j.name f) := by
  rcases h with ⟨data, h⟩ | h
  · exact h.toRunning.fail_over (.failed hf)
  · unfold Coordinator.fail
    rwa [if_pos h.terminal]

theorem Stage.cancel (h : Stage c job j events k) (hc : .cancelled job ∈ events) :
    Over c job j events (fun _ => False) (cancel c.logged k job j.name) := by
  rcases h with ⟨data, h⟩ | h
  · exact h.toRunning.cancel_over hc
  · unfold Coordinator.cancel
    dsimp only
    rwa [if_pos h.terminal]

end

/-! ### Every event keeps every job at a stage -/

section
variable {c : Context σ} {report : Report} {job : Nat} {j : Job} {k : Logged σ}

theorem start_stage (s : σ) (hsep : Separate c.jobs report) (hj : c.jobs[job]? = some j) :
    Stage c job j [] (start c.logged (s, []) report) := by
  have hidle := jobState_start c.logged (s, []) report job
  refine .inl ⟨[], ?_, fun _ _ h => absurd h List.not_mem_nil, by rw [hidle]; exact List.not_mem_nil, Eq.symm⟩
  exact
    { present := lt_start _ report hj
      live := by rw [hidle]; rfl
      next := by rw [hidle]; rfl
      unopened := fun _ => rfl
      within := Nat.zero_le _
      heard := fun _ _ h => by cases h
      early := by rw [hidle]; exact fun _ h => absurd h List.not_mem_nil
      silent := hsep.fresh j (List.mem_of_getElem? hj)
      granted := by rw [hidle]; exact .nil }

/-- An event keeps a job at a stage, whichever job it is about. -/
theorem handle_stage {events : List WorkEvent} {e : WorkEvent} (hsep : Separate c.jobs report)
    (hj : c.jobs[job]? = some j) (hrange : InRange c.jobs [e]) (h : Stage c job j events k) :
    Stage c job j (events ++ [e]) (handle c.logged k e) := by
  have hname := hsep.headers j (List.mem_of_getElem? hj)
  by_cases he : e.job = job
  · have hmem : e ∈ events ++ [e] := List.mem_append_right _ (List.mem_singleton_self e)
    subst he
    unfold handle
    rw [show c.logged.jobs[e.job]? = some j from hj]
    cases e with
    | chunk n index g =>
      exact takeChunk_stage hname (hrange n index g (List.mem_singleton_self _) j hj) h
    | failed n f => exact .inr ((h.mono fun _ _ => WorkEvent.noConfusion).fail hmem)
    | cancelled n => exact .inr ((h.mono fun _ _ => WorkEvent.noConfusion).cancel hmem)
  · have hstage := h.mono (e := e) fun _ _ hc => he (hc ▸ rfl)
    rcases handle_cases hsep.headers k e with ⟨-, hsame⟩ | ⟨j', hi, hk⟩
    · rwa [hsame]
    · exact hstage.of_confined hk (Ne.symm he) (hsep.name_ne hi hj (Ne.symm he))

/-- So do any number of events. -/
theorem foldl_stage (hsep : Separate c.jobs report) (hj : c.jobs[job]? = some j) :
    ∀ (events heard : List WorkEvent) {k : Logged σ}, InRange c.jobs events → Stage c job j heard k →
      Stage c job j (heard ++ events) (events.foldl (handle c.logged) k)
  | [], heard, k, _, h => by rwa [List.append_nil]
  | e :: events, heard, k, hrange, h => by
    have hone : InRange c.jobs [e] := fun n i g hg =>
      hrange n i g (List.mem_cons.mpr (.inl (List.mem_singleton.mp hg)))
    have hrest : InRange c.jobs events := fun n i g hg => hrange n i g (List.mem_cons_of_mem _ hg)
    have := foldl_stage hsep hj events (heard ++ [e]) hrest (handle_stage hsep hj hone h)
    rwa [List.append_assoc] at this

/-! ### The end of a run ends every job -/

/-- A chunk that nothing was heard of. -/
def Missing (job : Nat) (j : Job) (events : List WorkEvent) (i : Nat) : Prop :=
  (∀ g, .chunk job i g ∉ events) ∧ (i = j.plan.outputChunks → j.plan.outputChunks = 0)

theorem Waiting.missing {events : List WorkEvent} {data : List (Grid Double)}
    (h : Waiting c job j events data k) : Missing job j events data.length := by
  refine ⟨fun g hg => ?_, h.unfinished⟩
  rcases h.arrived _ g hg with hlt | hin
  · exact absurd hlt (Nat.lt_irrefl _)
  · exact h.turn hin

/-- What the end of a run does about one of its jobs. -/
def finishJob (c : Context σ) (k : Coordinator σ) (p : Job × Nat) : Coordinator σ :=
  fail c k p.2 p.1.name (.chunkEvaluation (k.jobState p.2).next "output incomplete")

theorem finish_eq (c : Context σ) (k : Coordinator σ) : finish c k = c.jobs.zipIdx.foldl (finishJob c) k := rfl

/-- What ending each of the jobs keeps holds in the end. -/
theorem finish_induction {c : Context σ} {P : Coordinator σ → Prop} {k : Coordinator σ} (h : P k)
    (hjob : ∀ p k, c.jobs[p.2]? = some p.1 → P k → P (finishJob c k p)) : P (finish c k) := by
  have hall : ∀ (l : List (Job × Nat)), (∀ p ∈ l, c.jobs[p.2]? = some p.1) → ∀ {k : Coordinator σ}, P k →
      P (l.foldl (finishJob c) k) := by
    intro l hl
    induction l with
    | nil => exact id
    | cons p l ih =>
      exact fun h => ih (fun q hq => hl q (List.mem_cons_of_mem _ hq)) (hjob p _ (hl p List.mem_cons_self) h)
  exact hall _ (fun _ hp => List.mem_zipIdx_iff_getElem?.mp hp) h

theorem Over.finishJob {events : List WorkEvent} {missing : Nat → Prop} {p : Job × Nat}
    (hsep : Separate c.jobs report) (hj : c.jobs[job]? = some j) (hp : c.jobs[p.2]? = some p.1)
    (h : Over c job j events missing k) : Over c job j events missing (finishJob c.logged k p) := by
  by_cases he : job = p.2
  · subst he
    unfold Coordinator.finishJob fail
    rwa [if_pos h.terminal]
  · exact h.of_confined (fail_confined p.2 p.1.name _) he (hsep.name_ne hp hj he)

theorem Stage.finishJob {events : List WorkEvent} {p : Job × Nat} (hsep : Separate c.jobs report)
    (hj : c.jobs[job]? = some j) (hp : c.jobs[p.2]? = some p.1) (h : Stage c job j events k)
    (hne : p ≠ (j, job)) : Stage c job j events (finishJob c.logged k p) := by
  have he : job ≠ p.2 := by
    intro he
    subst he
    exact hne (Prod.ext (Option.some.inj (hp.symm.trans hj)) rfl)
  exact h.of_confined (fail_confined p.2 p.1.name _) he (hsep.name_ne hp hj he)

theorem Stage.finishJob_self {events : List WorkEvent} (h : Stage c job j events k) :
    Over c job j events (Missing job j events) (Coordinator.finishJob c.logged k (j, job)) := by
  rcases h with ⟨data, h⟩ | h
  · exact h.toRunning.fail_over (h.next.symm ▸ .incomplete h.missing)
  · unfold Coordinator.finishJob Coordinator.fail
    rw [if_pos h.terminal]
    exact h.mono (List.Subset.refl _) fun _ => False.elim

theorem foldl_finishJob {events : List WorkEvent} (hsep : Separate c.jobs report)
    (hj : c.jobs[job]? = some j) :
    ∀ (l : List (Job × Nat)) {k : Logged σ}, (∀ p ∈ l, c.jobs[p.2]? = some p.1) →
      Over c job j events (Missing job j events) k ∨ Stage c job j events k ∧ (j, job) ∈ l →
      Over c job j events (Missing job j events) (l.foldl (Coordinator.finishJob c.logged) k)
  | [], k, _, h => h.elim id fun h => absurd h.2 List.not_mem_nil
  | p :: l, k, hl, h => by
    refine foldl_finishJob hsep hj l (fun q hq => hl q (List.mem_cons_of_mem _ hq)) ?_
    rcases h with h | ⟨h, hmem⟩
    · exact .inl (h.finishJob hsep hj (hl p List.mem_cons_self))
    · rcases List.mem_cons.mp hmem with rfl | hmem
      · exact .inl h.finishJob_self
      · by_cases hp : p = (j, job)
        · exact .inl (hp ▸ h.finishJob_self)
        · exact .inr ⟨h.finishJob hsep hj (hl p List.mem_cons_self) hp, hmem⟩

theorem finish_over {events : List WorkEvent} (hsep : Separate c.jobs report) (hj : c.jobs[job]? = some j)
    (h : Stage c job j events k) :
    Over c job j events (Missing job j events) (finish c.logged k) :=
  foldl_finishJob hsep hj _ (fun _ hp => List.mem_zipIdx_iff_getElem?.mp hp)
    (.inr ⟨h, List.mem_zipIdx_iff_getElem?.mpr hj⟩)

/-! ### A status stays -/

theorem handle_kept {e : WorkEvent} {status : Status} {name : String} (hsep : Separate c.jobs report)
    (h : k.report.get? name = some status) : (handle c.logged k e).report.get? name = some status := by
  rcases handle_cases hsep.headers k e with ⟨-, hsame⟩ | ⟨j, -, hk⟩
  · rwa [hsame]
  · exact hk.stays h

theorem foldl_handle_kept {status : Status} {name : String} (hsep : Separate c.jobs report) :
    ∀ (events : List WorkEvent) {k : Logged σ}, k.report.get? name = some status →
      (events.foldl (handle c.logged) k).report.get? name = some status
  | [], _, h => h
  | _ :: events, _, h => foldl_handle_kept hsep events (handle_kept hsep h)

theorem finish_kept {status : Status} {name : String} (h : k.report.get? name = some status) :
    (finish c.logged k).report.get? name = some status :=
  finish_induction (P := fun k => k.report.get? name = some status) h fun p _ _ h =>
    (fail_confined (c := c) p.2 p.1.name _).stays h

end

/-! ### What the calls of a job look like -/

section
variable {j : Job} {rs : List Request} {data : List (Grid Double)} {log before after : List Answer}
  {opened : Bool}

theorem isAbandon_of_mem_session {q : Request} (h : q ∈ session j data) : q.isAbandon = false := by
  rcases List.mem_append.mp h with h | h
  · rcases List.mem_cons.mp h with rfl | h
    · rfl
    · obtain ⟨i, hi, rfl⟩ := List.mem_mapIdx.mp h
      rfl
  · rw [List.mem_singleton.mp h]
    rfl

theorem close_not_mem_opening {name : String} : .close name ∉ opening j data := by
  intro h
  rcases List.mem_cons.mp h with h | h
  · cases h
  · obtain ⟨i, hi, h⟩ := List.mem_mapIdx.mp h
    cases h

theorem getElem?_of_write_mem_session {name : String} {i : Nat} {g : Grid Double}
    (h : .writeChunk name i g ∈ session j data) : data[i]? = some g := by
  rcases List.mem_append.mp h with h | h
  · rcases List.mem_cons.mp h with h | h
    · cases h
    · obtain ⟨n, hn, h⟩ := List.mem_mapIdx.mp h
      cases h
      exact List.getElem?_eq_getElem hn
  · cases List.mem_singleton.mp h

theorem openOutput_mem_iff (h : rs <+: opening j data) : .openOutput j.header ∈ rs ↔ rs ≠ [] := by
  constructor
  · rintro hm rfl
    cases hm
  · intro hne
    obtain ⟨r, rest, rfl⟩ := List.exists_cons_of_ne_nil hne
    rw [(List.cons_prefix_cons.mp h).1]
    exact List.mem_cons_self

/-- Requests that open an output and write to it begin those for a complete one. -/
theorem exists_session (hlen : data.length ≤ j.plan.outputChunks) (h : rs <+: opening j data) :
    ∃ all, all.length = j.plan.outputChunks ∧ rs <+: session j all := by
  refine ⟨data ++ List.replicate (j.plan.outputChunks - data.length) default, ?_, ?_⟩
  · rw [List.length_append, List.length_replicate]
    omega
  · exact h.trans ((opening_mono (List.prefix_append ..)).trans (List.prefix_append ..))

/-- What has been granted before a refusal opens the output and writes to it. -/
theorem Within.opening {job : Nat} {events : List WorkEvent} {r : Request}
    (h : Within j job events (rs ++ [r])) :
    ∃ data, Heard job events data ∧ data.length ≤ j.plan.outputChunks ∧ rs <+: opening j data := by
  obtain ⟨data, hd, ⟨hlen, hrs⟩ | ⟨hlen, hrs⟩⟩ := h
  · exact ⟨data, hd, hlen, (List.prefix_append ..).trans hrs⟩
  · exact ⟨data, hd, Nat.le_of_eq hlen, List.append_inj_left' hrs rfl ▸ List.prefix_rfl⟩

namespace Abandoned

theorem grants (h : Abandoned j opened before after) :
    grants after = grants before ∨ grants after = grants before ++ [.abandon j.name] := by
  unfold Abandoned at h
  split at h
  · obtain ⟨e | _, rfl⟩ := h
    · exact .inl (by rw [grants_append, grants_error, grants_nil, List.append_nil])
    · exact .inr (grants_append ..)
  · exact .inl (h ▸ rfl)

theorem mem_grants (h : Abandoned j opened before after) {r : Request} (hr : r.isAbandon = false) :
    r ∈ Concord.grants after ↔ r ∈ Concord.grants before := by
  rcases h.grants with heq | heq <;> rw [heq]
  rw [List.mem_append, List.mem_singleton, or_iff_left]
  rintro rfl
  cases hr

/-- Giving up is the last thing asked for. -/
theorem last (h : Abandoned j opened before after) (hb : ∀ q ∈ asked before, q.isAbandon = false)
    {a : Answer} {early late : List Answer} (heq : after = early ++ a :: late)
    (ha : a.request.isAbandon = true) : late = [] := by
  have hnot : a ∉ before := fun hm => absurd (hb _ (List.mem_map_of_mem hm)) (by rw [ha]; decide)
  unfold Abandoned at h
  split at h
  · obtain ⟨outcome, rfl⟩ := h
    rcases List.eq_nil_or_concat late with rfl | ⟨init, x, rfl⟩
    · rfl
    · rw [List.concat_eq_append, ← List.cons_append, ← List.append_assoc] at heq
      have hinit := List.append_inj_left' heq rfl
      exact absurd (hinit ▸ List.mem_append_right _ List.mem_cons_self) hnot
  · subst h
    exact absurd (heq ▸ List.mem_append_right _ List.mem_cons_self) hnot

theorem requested (h : Abandoned j opened before after) (hb : ∀ q ∈ asked before, q.isAbandon = false) :
    .abandon j.name ∈ asked after ↔ opened = true := by
  have hnot : .abandon j.name ∉ asked before := fun hm => by cases hb _ hm
  unfold Abandoned at h
  split at h
  · rename_i ho
    obtain ⟨outcome, rfl⟩ := h
    exact ⟨fun _ => ho, fun _ => by simp [asked]⟩
  · rename_i ho
    exact h ▸ ⟨fun hm => absurd hm hnot, fun h => absurd h ho⟩

end Abandoned

end

/-! ### Safety -/

/-- The calls about the output of a job and its status fit together. -/
structure Orderly (job : Nat) (j : Job) (events : List WorkEvent) (log : List Answer) (status : Status) :
    Prop where
  /-- What was granted begins the requests for a complete output, but for giving it up in the end. -/
  order : ∃ data, data.length = j.plan.outputChunks ∧ ∃ done, done <+: session j data ∧
    (grants log = done ∨ grants log = done ++ [.abandon j.name])
  /-- Nothing is asked for after giving up. -/
  last : ∀ early a late, log = early ++ a :: late → a.request.isAbandon = true → late = []
  /-- The chunk written in a place is one that was heard of for this place. -/
  written : ∀ i g, .writeChunk j.name i g ∈ grants log → .chunk job i g ∈ events
  succeeded : ∀ n, status = .succeeded n ↔ n = j.plan.outputChunks ∧ .close j.name ∈ grants log
  skipped : ∀ reason, status = .skipped reason → .openOutput j.header ∉ grants log
  abandoned : .abandon j.name ∈ asked log ↔ status.isFailure = true ∧ .openOutput j.header ∈ grants log

/-- A job that was not completed is orderly. -/
theorem orderly_of_unfinished {job : Nat} {j : Job} {events : List WorkEvent} {rs : List Request}
    {data : List (Grid Double)} {before log : List Answer} {status : Status}
    (hdata : Heard job events data) (hlen : data.length ≤ j.plan.outputChunks) (hrs : rs <+: opening j data)
    (hgrants : grants before = rs) (hasked : ∀ q ∈ asked before, q.isAbandon = false)
    (hafter : Abandoned j (!rs.isEmpty) before log)
    (hstatus : status.isFailure = true ∨ rs = [] ∧ ∃ reason, status = .skipped reason) :
    Orderly job j events log status := by
  have hopen : .openOutput j.header ∈ grants log ↔ rs ≠ [] := by
    rw [hafter.mem_grants rfl, hgrants, openOutput_mem_iff hrs]
  refine
    { order := ?_
      last := fun _ _ _ heq ha => hafter.last hasked heq ha
      written := fun i g hg => ?_
      succeeded := fun n => ?_
      skipped := fun reason hreason => ?_
      abandoned := ?_ }
  · obtain ⟨all, hall, hprefix⟩ := exists_session hlen hrs
    exact ⟨all, hall, rs, hprefix, hgrants ▸ hafter.grants⟩
  · rw [hafter.mem_grants rfl, hgrants] at hg
    exact hdata i g (getElem?_of_write_mem_session (List.mem_append_left _ (hrs.subset hg)))
  · constructor
    · rintro rfl
      obtain hfail | ⟨-, reason, hskip⟩ := hstatus
      · cases hfail
      · cases hskip
    · rintro ⟨-, hclose⟩
      rw [hafter.mem_grants rfl, hgrants] at hclose
      exact absurd (hrs.subset hclose) close_not_mem_opening
  · obtain hfail | ⟨hnil, -⟩ := hstatus
    · rw [hreason] at hfail
      cases hfail
    · exact fun h => hopen.mp h hnil
  · rw [hafter.requested hasked, hopen]
    obtain hfail | ⟨hnil, reason, hskip⟩ := hstatus
    · simp [hfail]
    · simp [hnil]

/-- A job that is over is orderly. -/
theorem Ended.orderly {n job : Nat} {j : Job} {events : List WorkEvent} {missing : Nat → Prop}
    {log : List Answer} {status : Status} (h : Ended n job j events missing log status) :
    Orderly job j events log status := by
  cases h with
  | @complete data _ hlen hdata hlog =>
    have hnot : ∀ q ∈ asked log, q.isAbandon = false := fun q hq =>
      isAbandon_of_mem_session (hlog.mem_asked q hq)
    refine
      { order := ⟨data, hlen, session j data, List.prefix_rfl, .inl hlog.grants⟩
        last := fun _ _ _ heq ha => ?_
        written := fun i g hg => hdata i g (getElem?_of_write_mem_session (hlog.grants ▸ hg))
        succeeded := fun n => ?_
        skipped := fun _ hskip => Status.noConfusion hskip
        abandoned := ⟨fun h => Bool.noConfusion (hnot _ h), fun h => Bool.noConfusion h.1⟩ }
    · refine absurd (hnot _ (List.mem_map_of_mem (heq ▸ List.mem_append_right _ List.mem_cons_self))) ?_
      rw [ha]
      decide
    · rw [hlog.grants, Status.succeeded.injEq, eq_comm, and_iff_left]
      exact List.mem_append_right _ (List.mem_singleton_self _)
  | refused hrs hlog hafter =>
    obtain ⟨data, hdata, hlen, hopening⟩ := hrs.opening
    refine orderly_of_unfinished hdata hlen hopening hlog.grants (fun q hq => ?_) hafter (.inl rfl)
    obtain ⟨data, -, ⟨-, hsub⟩ | ⟨-, hsub⟩⟩ := hrs
    · exact isAbandon_of_mem_session (List.mem_append_left _ (hsub.subset (hlog.mem_asked q hq)))
    · exact isAbandon_of_mem_session (hsub ▸ hlog.mem_asked q hq)
  | @stopped data opened before _ _ hlen hdata hstop hlog hafter =>
    have hsub := begun_le j opened data
    refine orderly_of_unfinished hdata hlen hsub hlog.grants (fun q hq => ?_) ?_ ?_
    · exact isAbandon_of_mem_session (List.mem_append_left _ (hsub.subset (hlog.mem_asked q hq)))
    · cases opened <;> exact hafter
    · cases hstop with
      | failed => exact .inl rfl
      | cancelled => exact .inl rfl
      | skipped => exact .inr ⟨rfl, _, rfl⟩
      | incomplete => exact .inl rfl

/-- After any events and the end of the run, each job has one status, which has stayed since it was
    recorded, and the calls that were made about its output are orderly. -/
theorem run_orderly (c : Context σ) (s : σ) (report : Report) (events : List WorkEvent)
    (hsep : Separate c.jobs report) (hrange : InRange c.jobs events) :
    let after := fun heard : List WorkEvent => heard.foldl (handle c) (start c s report)
    let logged := finish c.logged (events.foldl (handle c.logged) (start c.logged (s, []) report))
    logged.forget = finish c (after events) ∧
    ∀ job j, c.jobs[job]? = some j → ∃ status, (finish c (after events)).report.get? j.name = some status ∧
      (∀ heard, heard <+: events → ∀ old, (after heard).report.get? j.name = some old → old = status) ∧
      Orderly job j events (logged.calls j.name) status := by
  intro after logged
  have hafter : ∀ heard, after heard = (heard.foldl (handle c.logged) (start c.logged (s, []) report)).forget :=
    fun heard => (foldl_handle_forget c heard (start c.logged (s, []) report)).symm
  have hlast : logged.forget = finish c (after events) := by rw [hafter, ← finish_forget]
  refine ⟨hlast, fun job j hj => ?_⟩
  have hstage := foldl_stage hsep hj events [] hrange (start_stage s hsep hj)
  obtain ⟨status, hstatus, hended⟩ := (finish_over hsep hj hstage).ended
  refine ⟨status, hlast ▸ hstatus, fun heard hheard old hold => ?_, hended.orderly⟩
  obtain ⟨more, rfl⟩ := hheard
  rw [hafter heard] at hold
  have hkept := finish_kept (c := c) (foldl_handle_kept hsep more hold)
  rw [← List.foldl_append] at hkept
  exact Option.some.inj (hkept.symm.trans hstatus)

/-- A variable of two chunks. -/
def twoChunks : Job :=
  Job.ofPlan ⟨"tas", .operand "tas", .empty, 0, .empty, ⟨["time"], "K", .empty⟩⟩
    ⟨some "time", 2, 1, [(0, 1), (1, 2)], [⟨true, 0, none, none⟩], 1, 0⟩ false

/-- The chunks come the wrong way round, and one of them fails to be written at first. -/
theorem run_orderly_out_of_order :
    let c : Context Memory := ⟨Memory.writer, [twoChunks], 1⟩
    let events : List WorkEvent := [.chunk 0 1 (.scalar 1), .chunk 0 0 (.scalar 0), .failed 0 .cancelled]
    let s := Memory.empty.failWrites "tas" 1
    ∃ status, (finish c (events.foldl (handle c) (start c s .empty))).report.get? "tas" = some status ∧
      Orderly 0 twoChunks events
        ((finish c.logged (events.foldl (handle c.logged) (start c.logged (s, []) .empty))).calls "tas")
        status := by
  intro c events s
  have hsep : Separate c.jobs .empty :=
    ⟨fun j hj => by rw [List.mem_singleton.mp hj]; rfl, by decide, fun _ _ => rfl⟩
  have hrange : InRange c.jobs events := by
    intro job index data hmem j hj
    obtain rfl : j = twoChunks := List.mem_singleton.mp (List.mem_of_getElem? hj)
    show index < 2
    simp only [events, List.mem_cons, WorkEvent.chunk.injEq, reduceCtorEq, List.not_mem_nil, or_false] at hmem
    omega
  obtain ⟨-, hrun⟩ := run_orderly c s .empty events hsep hrange
  obtain ⟨status, hstatus, -, horderly⟩ := hrun 0 twoChunks rfl
  exact ⟨status, hstatus, horderly⟩

end Concord.Coordinator
