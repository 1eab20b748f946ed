import Mathlib.Logic.Relation
import Concord.Proofs.Schedule.Safety

/-! The moves of which all work for a job consists. A job under way keeps chunks that wait, makes requests that are
    refused or granted, and comes to an end; what every move keeps is kept by everything that is heard of the job. -/

namespace Concord.Coordinator

variable {σ : Type}

/-- A move of a job under way. -/
inductive Move (c : Context σ) (n : Nat) (j : Job) (k : Logged σ) : Logged σ → Prop
  | wait (hlive : (k.jobState n).terminal = false) (buffer : List (Nat × Grid Double)) :
      Move c n j k (k.setJob n { k.jobState n with buffer })
  | refused (hlive : (k.jobState n).terminal = false) {r : Request} {e : WriterError} {s : σ × List Answer}
      (hr : r.name = j.name) (hplain : r.isAbandon = false)
      (h : persist (c.writer.note r) c.retries k.state = (s, .error e)) : Move c n j k { k with state := s }
  | opened (hlive : (k.jobState n).terminal = false) {s : σ × List Answer} (hr : j.header.name = j.name)
      (h : persist (c.writer.note (.openOutput j.header)) c.retries k.state = (s, .ok ())) :
      Move c n j k (({ k with state := s } : Logged σ).setJob n { k.jobState n with opened := true })
  | wrote (hlive : (k.jobState n).terminal = false) (hopened : (k.jobState n).opened = true) {g : Grid Double}
      {s : σ × List Answer}
      (h : persist (c.writer.note (.writeChunk j.name (k.jobState n).next g)) c.retries k.state = (s, .ok ())) :
      Move c n j k (({ k with state := s } : Logged σ).setJob n { k.jobState n with next := (k.jobState n).next + 1 })
  | closed (hlive : (k.jobState n).terminal = false) (hnext : (k.jobState n).next = j.plan.outputChunks)
      {s : σ × List Answer} (h : persist (c.writer.note (.close j.name)) c.retries k.state = (s, .ok ())) :
      Move c n j k
        { ({ k with state := s } : Logged σ).setJob n { k.jobState n with terminal := true, succeeded := true } with
          report := k.report.record j.name (.succeeded j.plan.outputChunks) }
  | ended (hlive : (k.jobState n).terminal = false) (status : Status) (hstatus : ∀ m, status ≠ .succeeded m) :
      Move c n j k
        { abandon c.logged k n j.name with
          report := (abandon c.logged k n j.name).report.record j.name status }

theorem Move.live {c : Context σ} {n : Nat} {j : Job} {k t : Logged σ} (h : Move c n j k t) :
    (k.jobState n).terminal = false := by
  cases h <;> assumption

/-- Any number of moves. -/
abbrev Moves (c : Context σ) (n : Nat) (j : Job) : Logged σ → Logged σ → Prop := Relation.ReflTransGen (Move c n j)

/-- Moves behind which the job is still under way. -/
structure Onward (c : Context σ) (n : Nat) (j : Job) (k t : Logged σ) : Prop where
  moves : Moves c n j k t
  present : n < t.states.length
  live : (t.jobState n).terminal = false

section
variable {c : Context σ} {n : Nat} {j : Job} {k t : Logged σ} {s : σ × List Answer}

namespace Onward

theorem wait (h : Onward c n j k t) (buffer : List (Nat × Grid Double)) :
    Onward c n j k (t.setJob n { t.jobState n with buffer }) where
  moves := h.moves.tail (.wait h.live buffer)
  present := by rw [setJob_states_length]; exact h.present
  live := by rw [jobState_setJob h.present]; exact h.live

theorem refused (h : Onward c n j k t) {r : Request} {e : WriterError} (hr : r.name = j.name)
    (hplain : r.isAbandon = false) (hs : persist (c.writer.note r) c.retries t.state = (s, .error e)) :
    Onward c n j k { t with state := s } :=
  ⟨h.moves.tail (.refused h.live hr hplain hs), h.present, h.live⟩

variable (hj : j.header.name = j.name)
include hj

theorem ensureOpen (h : Onward c n j k t) :
    Onward c n j k (ensureOpen c.logged t n j).1 ∧
      ((ensureOpen c.logged t n j).2 = .ok () → ((ensureOpen c.logged t n j).1.jobState n).opened = true) := by
  unfold Coordinator.ensureOpen
  dsimp only
  split
  · rename_i hopened
    exact ⟨h, fun _ => hopened⟩
  · split
    · rename_i s e heq
      exact ⟨h.refused (r := .openOutput j.header) hj rfl heq, fun hok => nomatch hok⟩
    · rename_i s heq
      have hstate := jobState_setJob (k := { t with state := s }) (s := { t.jobState n with opened := true }) h.present
      refine ⟨⟨h.moves.tail (.opened h.live hj heq), ?_, ?_⟩, fun _ => ?_⟩
      · rw [setJob_states_length]
        exact h.present
      · rw [hstate]
        exact h.live
      · rw [hstate]

theorem writeNext (h : Onward c n j k t) (data : Grid Double) :
    Onward c n j k (writeNext c.logged t n j data).1 := by
  obtain ⟨honward, hopened⟩ := h.ensureOpen hj
  unfold Coordinator.writeNext
  split
  · rename_i u e heq
    rwa [heq] at honward
  · rename_i u heq
    rw [heq] at honward hopened
    dsimp only
    split
    · rename_i s e hs
      exact honward.refused (r := .writeChunk j.name (u.jobState n).next data) rfl rfl hs
    · rename_i s hs
      have hstate := jobState_setJob (k := { u with state := s })
        (s := { u.jobState n with next := (u.jobState n).next + 1 }) honward.present
      refine ⟨honward.moves.tail (.wrote honward.live (hopened rfl) hs), ?_, ?_⟩
      · rw [setJob_states_length]
        exact honward.present
      · rw [hstate]
        exact honward.live

theorem writeReady : ∀ (fuel : Nat) {t : Logged σ}, Onward c n j k t →
    Onward c n j k (writeReady c.logged n j fuel t).1
  | 0, _, h => h
  | fuel + 1, t, h => by
    unfold Coordinator.writeReady
    dsimp only
    split
    · exact h
    · rename_i data _
      have hnext := (h.wait ((t.jobState n).buffer.filter fun p => p.1 ≠ (t.jobState n).next)).writeNext hj data
      split
      · rename_i u e heq
        rwa [heq] at hnext
      · rename_i u heq
        rw [heq] at hnext
        exact writeReady fuel hnext

omit hj in
theorem closeIfComplete (h : Onward c n j k t) : Moves c n j k (closeIfComplete c.logged t n j).1 := by
  unfold Coordinator.closeIfComplete
  dsimp only
  split
  · rename_i hnext
    split
    · rename_i s e heq
      exact (h.refused (r := .close j.name) rfl rfl heq).moves
    · rename_i s heq
      exact h.moves.tail (.closed h.live hnext heq)
  · exact h.moves

theorem flush (h : Onward c n j k t) : Moves c n j k (flush c.logged t n j).1 := by
  have hready := h.writeReady hj (t.jobState n).buffer.length
  unfold Coordinator.flush
  split
  · rename_i u e heq
    rw [heq] at hready
    exact hready.moves
  · rename_i u heq
    rw [heq] at hready
    exact hready.closeIfComplete

end Onward

/-! ### What is heard of a job -/

variable (hn : n < k.states.length)

theorem fail_moves (f : Failure) : Moves c n j k (fail c.logged k n j.name f) := by
  unfold fail
  split
  · exact .refl
  · rename_i hlive
    exact .single (.ended (Bool.eq_false_iff.mpr hlive) _ fun _ h => nomatch h)

theorem cancel_moves : Moves c n j k (cancel c.logged k n j.name) := by
  unfold cancel
  dsimp only
  split
  · exact .refl
  · rename_i hlive
    split
    · exact fail_moves _
    · exact .single (.ended (Bool.eq_false_iff.mpr hlive) _ fun _ h => nomatch h)

include hn

theorem takeChunk_moves (hj : j.header.name = j.name) (index : Nat) (data : Grid Double) :
    Moves c n j k (takeChunk c.logged k n j index data) := by
  unfold takeChunk
  dsimp only
  split
  · exact .refl
  · rename_i hlive
    have honward : Onward c n j k k := ⟨.refl, hn, Bool.eq_false_iff.mpr hlive⟩
    have hflush := (honward.wait ((index, data) :: (k.jobState n).buffer.filter fun p => p.1 ≠ index)).flush hj
    split
    · rename_i t heq
      rwa [heq] at hflush
    · rename_i t e heq
      rw [heq] at hflush
      exact hflush.trans (fail_moves _)

/-- Whatever is heard of a job, what follows are moves of it. -/
theorem handle_moves (hj : j.header.name = j.name) {e : WorkEvent} (he : e.job = n) (hi : c.jobs[n]? = some j) :
    Moves c n j k (handle c.logged k e) := by
  subst he
  unfold handle
  rw [show c.logged.jobs[e.job]? = some j from hi]
  cases e with
  | chunk _ index data => exact takeChunk_moves hn hj index data
  | failed _ f => exact fail_moves f
  | cancelled _ => exact cancel_moves

end

/-! ### What moves keep -/

/-- What is kept by every move of a job, and by what happens to the others. -/
structure Persistent (c : Context σ) (n : Nat) (j : Job) (P : Logged σ → Prop) : Prop where
  present : ∀ {k}, P k → n < k.states.length
  move : ∀ {k t}, P k → Move c n j k t → P t
  other : ∀ {k t i name}, P k → Confined c.writer i name k t → n ≠ i → j.name ≠ name → P t

namespace Persistent
variable {c : Context σ} {n : Nat} {j : Job} {P : Logged σ → Prop} {report : Report} {k t : Logged σ}
  (hp : Persistent c n j P) (hsep : Separate c.jobs report) (hn : c.jobs[n]? = some j)
include hp

theorem moves (h : P k) (hm : Moves c n j k t) : P t := by
  induction hm with
  | refl => exact h
  | tail _ hm ih => exact hp.move ih hm

include hsep hn

theorem handle (h : P k) (e : WorkEvent) : P (handle c.logged k e) := by
  by_cases he : e.job = n
  · exact hp.moves h (handle_moves (hp.present h) (hsep.headers j (List.mem_of_getElem? hn)) he hn)
  · rcases handle_cases hsep.headers k e with ⟨-, hsame⟩ | ⟨j', hj', hk⟩
    · rwa [hsame]
    · exact hp.other h hk (Ne.symm he) (hsep.name_ne hj' hn (Ne.symm he))

theorem foldl_handle :
    ∀ (events : List WorkEvent) {k : Logged σ}, P k → P (events.foldl (Coordinator.handle c.logged) k)
  | [], _, h => h
  | e :: events, _, h => foldl_handle events (hp.handle hsep hn h e)

theorem finish (h : P k) : P (finish c.logged k) := by
  refine finish_induction h fun p k hp' h => ?_
  obtain ⟨j', i⟩ := p
  by_cases hi : i = n
  · subst hi
    cases hp'.symm.trans hn
    exact hp.moves h (fail_moves _)
  · exact hp.other h (fail_confined i j'.name _) (Ne.symm hi) (hsep.name_ne hp' hn (Ne.symm hi))

end Persistent
end Concord.Coordinator
