import Concord.Proofs.Schedule.Session

/-! Every part of the work keeps a job at a stage: a chunk is written in its turn or waits for it, the
    last one closes the output, and a refusal, a failure or the end of the run is the end of the job. -/

namespace Concord.Coordinator

variable {σ : Type} {c : Context σ} {k : Logged σ} {job : Nat} {j : Job} {events : List WorkEvent}
  {data : List (Grid Double)}

/-- What a request adds to the calls about its output. -/
theorem persist_calls {s : σ × List Answer} {outcome : Except WriterError Unit} {name : String}
    (r : Request) (hr : r.name = name)
    (h : persist (c.writer.note r) c.retries k.state = (s, outcome)) :
    ∃ answers, Tried r c.retries outcome answers ∧
      ({ k with state := s } : Logged σ).calls name = k.calls name ++ answers := by
  obtain ⟨answers, htried, -, hlog⟩ := persist_tried c.writer r c.retries k.state
  rw [h] at htried hlog
  refine ⟨answers, htried, ?_⟩
  unfold calls
  rw [hlog, answersFor_append]
  refine congrArg _ (answersFor_eq_self fun q hq => ?_)
  rw [htried.request q hq, hr]

/-! ### The end of a job -/

/-- Giving up an output adds no grant but that of giving it up. -/
theorem abandon_calls (c : Context σ) (k : Logged σ) (job : Nat) (j : Job) :
    Abandoned j (k.jobState job).opened (k.calls j.name) ((abandon c.logged k job j.name).calls j.name) := by
  unfold Abandoned abandon
  dsimp only
  split
  · refine ⟨(c.writer.ask (.abandon j.name) k.state.1).2, ?_⟩
    unfold calls
    exact (answersFor_append ..).trans (congrArg _ (answersFor_eq_self (by simp [asked, Request.name])))
  · rfl

theorem abandon_terminal (h : job < k.states.length) (name : String) :
    ((abandon c.logged k job name).jobState job).terminal = true := by
  unfold abandon
  dsimp only
  split
  all_goals exact congrArg JobState.terminal (jobState_setJob h)

theorem abandon_report (name : String) : (abandon c.logged k job name).report = k.report := by
  unfold abandon
  dsimp only
  split <;> rfl

/-- Recording a status behind an output that was given up ends a job. -/
theorem over_of_abandon {missing : Nat → Prop} {status : Status} (h : job < k.states.length)
    (hsilent : k.report.get? j.name = none)
    (hended : ∀ after, Abandoned j (k.jobState job).opened (k.calls j.name) after →
      Ended c.retries job j events missing after status) :
    Over c job j events missing
      { abandon c.logged k job j.name with
        report := (abandon c.logged k job j.name).report.record j.name status } where
  present := (abandon_confined (c := c) (k := k) job j.name).length.symm ▸ h
  terminal := abandon_terminal h j.name
  ended := by
    refine ⟨status, ?_, hended _ (abandon_calls c k job j)⟩
    dsimp only
    rw [get?_record, if_pos rfl, abandon_report, hsilent]
    rfl

theorem fail_over {missing : Nat → Prop} {f : Failure} (h : job < k.states.length)
    (hlive : (k.jobState job).terminal = false) (hsilent : k.report.get? j.name = none)
    (hended : ∀ after, Abandoned j (k.jobState job).opened (k.calls j.name) after →
      Ended c.retries job j events missing after (.ofFailure f)) :
    Over c job j events missing (fail c.logged k job j.name f) := by
  unfold fail
  rw [hlive]
  exact over_of_abandon h hsilent hended

/-- A refusal of the destination ends a job. -/
theorem Refusing.fail_over {e : WriterError} (h : Refusing c job j events e k) :
    Over c job j events (fun _ => False) (fail c.logged k job j.name (.writer e)) := by
  obtain ⟨rs, r, hrs, hlog, hopened⟩ := h.refused
  exact Coordinator.fail_over h.present h.live h.silent fun after hafter =>
    .refused hrs hlog (hopened ▸ hafter)

/-- A job under way can be ended at any time. -/
theorem Running.fail_over {missing : Nat → Prop} {f : Failure} (h : Running c job j events data k)
    (hstop : Stopped job events missing data.length (k.jobState job).opened (.ofFailure f)) :
    Over c job j events missing (fail c.logged k job j.name f) :=
  Coordinator.fail_over h.present h.live h.silent fun _ hafter =>
    .stopped h.within h.heard hstop h.granted hafter

theorem Running.cancel_over (h : Running c job j events data k) (hc : .cancelled job ∈ events) :
    Over c job j events (fun _ => False) (cancel c.logged k job j.name) := by
  unfold cancel
  dsimp only
  rw [h.live]
  cases ho : (k.jobState job).opened
  · refine over_of_abandon h.present h.silent fun _ hafter => ?_
    have hgranted := h.granted
    rw [ho] at hafter hgranted
    exact .stopped h.within h.heard (.skipped hc) hgranted hafter
  · exact h.fail_over (ho ▸ .cancelled hc)

/-! ### Writing chunks -/

theorem Running.refusing {rs : List Request} {r : Request} {e : WriterError} {s : σ × List Answer}
    {answers : List Answer} (h : Running c job j events data k)
    (hrs : begun j (k.jobState job).opened data = rs) (hr : Within j job events (rs ++ [r]))
    (htried : Tried r c.retries (.error e) answers)
    (hcalls : ({ k with state := s } : Logged σ).calls j.name = k.calls j.name ++ answers) :
    Refusing c job j events e { k with state := s } where
  present := h.present
  live := h.live
  silent := h.silent
  refused := by
    refine ⟨rs, r, hr, ⟨_, answers, hrs ▸ h.granted, htried, hcalls⟩, ?_⟩
    subst hrs
    cases ho : (k.jobState job).opened <;> simp [begun, opening] <;> exact ho

theorem ensureOpen_running (hj : j.header.name = j.name) (h : Running c job j events data k) :
    Proceeds c job j events
      (fun t => Running c job j events data t ∧ (t.jobState job).opened = true ∧
        (t.jobState job).buffer = (k.jobState job).buffer)
      (ensureOpen c.logged k job j) := by
  unfold ensureOpen
  dsimp only
  split
  · rename_i ho
    exact ⟨h, ho, rfl⟩
  · rename_i ho
    replace ho : (k.jobState job).opened = false := by simpa using ho
    have hdata := h.unopened ho
    subst hdata
    split
    · rename_i s e heq
      obtain ⟨answers, htried, hcalls⟩ := persist_calls (.openOutput j.header) hj heq
      have hbegun : begun j (k.jobState job).opened [] = [] := by rw [ho]; rfl
      refine h.refusing hbegun ?_ htried hcalls
      exact ⟨[], h.heard, .inl ⟨Nat.zero_le _, List.prefix_rfl⟩⟩
    · rename_i s heq
      obtain ⟨answers, htried, hcalls⟩ := persist_calls (.openOutput j.header) hj heq
      have hstate := jobState_setJob (k := { k with state := s }) (s := { k.jobState job with opened := true })
        h.present
      refine ⟨?_, by rw [hstate], by rw [hstate]⟩
      refine
        { present := by simpa using h.present
          live := by rw [hstate]; exact h.live
          next := by rw [hstate]; exact h.next
          unopened := fun _ => rfl
          within := h.within
          heard := h.heard
          early := by rw [hstate]; exact h.early
          silent := h.silent
          granted := ?_ }
      rw [hstate]
      have hg := h.granted.snoc htried
      rw [ho] at hg
      exact hcalls.symm ▸ hg

/-- The next chunk of an open output is written. -/
theorem writeNext_running (hj : j.header.name = j.name) {g : Grid Double}
    (h : Running c job j events data k) (hlt : data.length < j.plan.outputChunks)
    (hg : .chunk job data.length g ∈ events) :
    Proceeds c job j events
      (fun t => Running c job j events (data ++ [g]) t ∧ (t.jobState job).buffer = (k.jobState job).buffer)
      (writeNext c.logged k job j g) := by
  have hopen := ensureOpen_running hj h
  unfold writeNext
  split
  · rename_i t e heq
    rwa [heq] at hopen
  · rename_i t heq
    rw [heq] at hopen
    obtain ⟨ht, ho, hbuffer⟩ := hopen
    have hbegun : begun j (t.jobState job).opened data = opening j data := by rw [ho]; rfl
    dsimp only
    rw [ht.next]
    split
    · rename_i s e heq
      obtain ⟨answers, htried, hcalls⟩ := persist_calls (.writeChunk j.name data.length g) rfl heq
      refine ht.refusing hbegun ⟨data ++ [g], h.heard.append hg, .inl ⟨?_, ?_⟩⟩ htried hcalls
      · simpa using Nat.succ_le_of_lt hlt
      · exact ⟨[], by rw [List.append_nil, opening_append]⟩
    · rename_i s heq
      obtain ⟨answers, htried, hcalls⟩ := persist_calls (.writeChunk j.name data.length g) rfl heq
      have hstate := jobState_setJob (k := { t with state := s })
        (s := { t.jobState job with next := data.length + 1 }) ht.present
      refine ⟨?_, by rw [hstate]; exact hbuffer⟩
      refine
        { present := by simpa using ht.present
          live := by rw [hstate]; exact ht.live
          next := by rw [hstate, List.length_append]; rfl
          unopened := by rw [hstate]; exact fun hn => absurd (ho.symm.trans hn) (by decide)
          within := by simpa using Nat.succ_le_of_lt hlt
          heard := h.heard.append hg
          early := by rw [hstate]; exact ht.early
          silent := ht.silent
          granted := ?_ }
      rw [hstate]
      have hgranted := ht.granted.snoc htried
      rw [hbegun, ← opening_append] at hgranted
      rw [show begun j _ (data ++ [g]) = _ from if_pos ho]
      exact hcalls.symm ▸ hgranted

theorem Running.setBuffer {b : List (Nat × Grid Double)} (h : Running c job j events data k)
    (hb : ∀ p ∈ b, .chunk job p.1 p.2 ∈ events ∧ p.1 < j.plan.outputChunks) :
    Running c job j events data (k.setJob job { k.jobState job with buffer := b }) := by
  have hstate := jobState_setJob (s := { k.jobState job with buffer := b }) h.present
  exact
    { present := by simpa using h.present
      live := by rw [hstate]; exact h.live
      next := by rw [hstate]; exact h.next
      unopened := by rw [hstate]; exact h.unopened
      within := h.within
      heard := h.heard
      early := by rw [hstate]; exact hb
      silent := h.silent
      granted := by rw [hstate]; exact h.granted }

theorem mem_of_lookup {buffer : List (Nat × Grid Double)} {i : Nat} {g : Grid Double}
    (h : buffer.lookup i = some g) : (i, g) ∈ buffer := by
  induction buffer with
  | nil => cases h
  | cons p rest ih =>
    rw [List.lookup_cons] at h
    split at h
    · rename_i hi
      cases h
      exact List.mem_cons.mpr (.inl (Prod.ext (beq_iff_eq.mp hi) rfl))
    · exact List.mem_cons_of_mem _ (ih h)

theorem not_mem_of_lookup {buffer : List (Nat × Grid Double)} {i : Nat} (h : buffer.lookup i = none) :
    i ∉ buffer.map (·.1) := by
  induction buffer with
  | nil => exact List.not_mem_nil
  | cons p rest ih =>
    rw [List.lookup_cons] at h
    split at h
    · cases h
    · rename_i hi
      intro hm
      rcases List.mem_cons.mp hm with hm | hm
      · exact Bool.eq_false_iff.mp hi (beq_iff_eq.mpr hm)
      · exact ih h hm

/-- Taking the chunks of one number out of a buffer makes it shorter if there was one. -/
theorem length_filter_lt {buffer : List (Nat × Grid Double)} {p : Nat × Grid Double} (h : p ∈ buffer) :
    (buffer.filter fun q => q.1 ≠ p.1).length < buffer.length :=
  List.length_filter_lt_length_iff_exists.mpr ⟨p, h, by simp⟩

/-- All chunks whose turn it is are written. -/
theorem writeReady_running (hj : j.header.name = j.name) :
    ∀ (fuel : Nat) {data : List (Grid Double)} {k : Logged σ}, Running c job j events data k →
      Arrived job events data k → (k.jobState job).buffer.length ≤ fuel →
      Proceeds c job j events
        (fun t => ∃ written, Running c job j events written t ∧ Arrived job events written t ∧
          data.length ≤ written.length ∧ written.length ∉ (t.jobState job).buffer.map (·.1))
        (writeReady c.logged job j fuel k)
  | 0, data, k, h, ha, hfuel => by
    refine ⟨data, h, ha, Nat.le_refl _, ?_⟩
    rw [List.length_eq_zero_iff.mp (Nat.le_zero.mp hfuel)]
    exact List.not_mem_nil
  | fuel + 1, data, k, h, ha, hfuel => by
    unfold writeReady
    dsimp only
    split
    · rename_i hnone
      exact ⟨data, h, ha, Nat.le_refl _, h.next ▸ not_mem_of_lookup hnone⟩
    · rename_i g hsome
      have hmem := mem_of_lookup (h.next ▸ hsome)
      obtain ⟨hchunk, hlt⟩ := h.early _ hmem
      have hrest := h.setBuffer
        (b := (k.jobState job).buffer.filter fun p => p.1 ≠ (k.jobState job).next)
        fun p hp => h.early p (List.mem_filter.mp hp).1
      have hnext := writeNext_running hj hrest hlt hchunk
      split
      · rename_i t e heq
        rwa [heq] at hnext
      · rename_i t heq
        rw [heq] at hnext
        obtain ⟨ht, hbuffer⟩ := hnext
        rw [jobState_setJob h.present] at hbuffer
        have hat : Arrived job events (data ++ [g]) t := by
          intro i x hi
          rw [hbuffer, List.length_append]
          rcases ha i x hi with hlt | hin
          · exact .inl (Nat.lt_succ_of_lt hlt)
          · obtain ⟨p, hp, rfl⟩ := List.mem_map.mp hin
            by_cases hne : p.1 = data.length
            · exact .inl (hne ▸ Nat.lt_succ_self _)
            · exact .inr (List.mem_map_of_mem (List.mem_filter.mpr ⟨hp, by simpa [h.next] using hne⟩))
        have hshort : (t.jobState job).buffer.length ≤ fuel := by
          rw [hbuffer, h.next]
          exact Nat.le_of_lt_succ (Nat.lt_of_lt_of_le (length_filter_lt hmem) hfuel)
        have := writeReady_running hj fuel ht hat hshort
        generalize writeReady c.logged job j fuel t = result at this ⊢
        obtain ⟨u, _ | _⟩ := result
        · exact this
        · obtain ⟨written, hw, haw, hle, hturn⟩ := this
          exact ⟨written, hw, haw, Nat.le_trans (by simp) hle, hturn⟩

/-- The output is closed behind its last chunk. -/
theorem closeIfComplete_stage (h : Running c job j events data k) (ha : Arrived job events data k)
    (hturn : data.length ∉ (k.jobState job).buffer.map (·.1)) (hpos : 0 < j.plan.outputChunks) :
    Proceeds c job j events (Stage c job j events) (closeIfComplete c.logged k job j) := by
  unfold closeIfComplete
  dsimp only
  split
  · rename_i hlen
    rw [h.next] at hlen
    have ho : (k.jobState job).opened = true := by
      rw [← Bool.not_eq_false]
      intro hn
      rw [h.unopened hn] at hlen
      exact absurd hlen (Nat.ne_of_lt hpos)
    have hbegun : begun j (k.jobState job).opened data = opening j data := by rw [ho]; rfl
    split
    · rename_i s e heq
      obtain ⟨answers, htried, hcalls⟩ := persist_calls (.close j.name) rfl heq
      exact h.refusing hbegun ⟨data, h.heard, .inr ⟨hlen, rfl⟩⟩ htried hcalls
    · rename_i s heq
      obtain ⟨answers, htried, hcalls⟩ := persist_calls (.close j.name) rfl heq
      have hstate := jobState_setJob (k := { k with state := s })
        (s := { k.jobState job with terminal := true, succeeded := true }) h.present
      refine .inr ⟨by simpa using h.present, congrArg JobState.terminal hstate,
        .succeeded j.plan.outputChunks, ?_, ?_⟩
      · dsimp only
        rw [get?_record, if_pos rfl]
        exact congrArg some (congrArg (Option.getD · _) h.silent)
      · have hgranted := h.granted.snoc htried
        rw [hbegun] at hgranted
        exact .complete hlen h.heard (hcalls.symm ▸ hgranted)
  · rename_i hne
    exact .inl ⟨data, h, ha, hturn, fun hlen => absurd (h.next.trans hlen) hne⟩

/-- A chunk that is heard of takes a job from a stage to a stage. -/
theorem takeChunk_stage (hj : j.header.name = j.name) {index : Nat} {g : Grid Double}
    (hindex : index < j.plan.outputChunks) (h : Stage c job j events k) :
    Stage c job j (events ++ [.chunk job index g]) (takeChunk c.logged k job j index g) := by
  have hsub := List.subset_append_left events [.chunk job index g]
  unfold takeChunk
  dsimp only
  rcases h with ⟨data, h⟩ | h
  · rw [if_neg (Bool.eq_false_iff.mp h.live)]
    have hadded : ∀ p ∈ (index, g) :: (k.jobState job).buffer.filter fun p => p.1 ≠ index,
        .chunk job p.1 p.2 ∈ events ++ [.chunk job index g] ∧ p.1 < j.plan.outputChunks := by
      intro p hp
      rcases List.mem_cons.mp hp with rfl | hp
      · exact ⟨List.mem_append_right _ (List.mem_singleton_self _), hindex⟩
      · exact (h.toRunning.mono hsub).early p (List.mem_filter.mp hp).1
    have hrun := (h.toRunning.mono hsub).setBuffer hadded
    have ha : Arrived job (events ++ [.chunk job index g]) data
        (k.setJob job { k.jobState job with
          buffer := (index, g) :: (k.jobState job).buffer.filter fun p => p.1 ≠ index }) := by
      intro i x hi
      rw [jobState_setJob h.present]
      by_cases hne : i = index
      · exact .inr (hne ▸ List.mem_cons_self)
      · rcases List.mem_append.mp hi with hi | hi
        · refine (h.arrived i x hi).imp id fun hin => ?_
          obtain ⟨p, hp, rfl⟩ := List.mem_map.mp hin
          exact List.mem_cons_of_mem _ (List.mem_map_of_mem (List.mem_filter.mpr ⟨hp, by simpa using hne⟩))
        · cases List.mem_singleton.mp hi
          exact absurd rfl hne
    have hready := writeReady_running hj _ hrun ha (Nat.le_refl _)
    unfold flush
    generalize writeReady c.logged job j _ _ = result at hready ⊢
    obtain ⟨t, e | _⟩ := result
    · exact .inr (Refusing.fail_over hready)
    · obtain ⟨written, hw, haw, -, hturn⟩ := hready
      have hclose := closeIfComplete_stage hw haw hturn (Nat.zero_lt_of_lt hindex)
      dsimp only
      generalize closeIfComplete c.logged t job j = result at hclose ⊢
      obtain ⟨u, e | _⟩ := result
      · exact .inr (Refusing.fail_over hclose)
      · exact hclose
  · rw [if_pos h.terminal]
    exact .inr (h.mono hsub fun _ => id)

end Concord.Coordinator
