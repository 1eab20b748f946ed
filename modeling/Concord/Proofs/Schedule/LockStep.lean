import Concord.Proofs.Schedule.Confinement

/-! Two runs side by side. Whatever relates their coordinators and is kept when both note the same about a job,
    and ask their destinations the same for it, is kept by everything that is heard of the job. The first
    destination may break the pace by giving up a request; then nothing more is known of the second run. -/

namespace Concord

/-- The same event of a job with another number. -/
def WorkEvent.renumbered (n : Nat) : WorkEvent → WorkEvent
  | chunk _ index data => chunk n index data
  | failed _ f => failed n f
  | cancelled _ => cancelled n

theorem WorkEvent.renumbered_job (e : WorkEvent) : e.renumbered e.job = e := by cases e <;> rfl

namespace Coordinator

variable {σ τ : Type}

/-- Calls with the same outcome, and what is related behind them. -/
inductive SameOutcome {β γ : Type} (R : β → γ → Prop) :
    β × Except WriterError Unit → γ × Except WriterError Unit → Prop
  | refused {a : β} {b : γ} (h : R a b) (e : WriterError) : SameOutcome R (a, .error e) (b, .error e)
  | granted {a : β} {b : γ} (h : R a b) : SameOutcome R (a, .ok ()) (b, .ok ())

/-- What is tried again while it fails has the same outcome if each call has. -/
theorem SameOutcome.persist {R : σ → τ → Prop} {f : σ → Written σ} {g : τ → Written τ}
    (hcall : ∀ s u, R s u → SameOutcome R (f s) (g u)) :
    ∀ (retries : Nat) {s : σ} {u : τ}, R s u → SameOutcome R (persist f retries s) (persist g retries u)
  | 0, _, _, h => hcall _ _ h
  | retries + 1, s, u, h => by
    have hfirst := hcall s u h
    rw [Concord.persist, Concord.persist]
    generalize f s = a, g u = b at hfirst ⊢
    cases hfirst with
    | refused h _ => exact SameOutcome.persist hcall retries h
    | granted h => exact .granted h

/-- Calls with the same outcome, or the first has failed and broken the pace. -/
inductive Paced {β γ : Type} (R : β → γ → Prop) (X : β → Prop) :
    β × Except WriterError Unit → γ × Except WriterError Unit → Prop
  | same {a : β × Except WriterError Unit} {b : γ × Except WriterError Unit} (h : SameOutcome R a b) : Paced R X a b
  | broken {a : β} (h : X a) (e : WriterError) (b : γ × Except WriterError Unit) : Paced R X (a, .error e) b

/-- A relation of coordinators that is kept when both do the same for a job, which has the number `n` in the first
    and `m` in the second. -/
structure InStep (c : Context σ) (d : Context τ) (n m : Nat) (j : Job) (R : Logged σ → Logged τ → Prop)
    (X : Logged σ → Prop) : Prop where
  jobState : ∀ {k t}, R k t → k.jobState n = t.jobState m
  setJob : ∀ {k t} (s : JobState), R k t → R (k.setJob n s) (t.setJob m s)
  record : ∀ {k t} (status : Status), R k t →
    R { k with report := k.report.record j.name status } { t with report := t.report.record j.name status }
  giveUp : ∀ {k t}, R k t → R { k with state := (c.writer.note (.abandon j.name) k.state).1 }
    { t with state := (d.writer.note (.abandon j.name) t.state).1 }
  request : ∀ {k t} (r : Request), r.name = j.name → r.isAbandon = false → R k t →
    Paced (fun s u => R { k with state := s } { t with state := u }) (fun s => X { k with state := s })
      (persist (c.writer.note r) c.retries k.state) (persist (d.writer.note r) d.retries t.state)
  broken : ∀ {k} (f : Failure), X k → X (fail c.logged k n j.name f)

namespace InStep
variable {c : Context σ} {d : Context τ} {n m : Nat} {j : Job} {R : Logged σ → Logged τ → Prop}
  {X : Logged σ → Prop} {k : Logged σ} {t : Logged τ} (hi : InStep c d n m j R X)
include hi

theorem abandon (h : R k t) : R (abandon c.logged k n j.name) (abandon d.logged t m j.name) := by
  have hset := hi.setJob { t.jobState m with terminal := true, buffer := [] } h
  unfold Coordinator.abandon
  dsimp only [Context.logged, Writer.logged]
  rw [hi.jobState h]
  split
  · exact hi.giveUp hset
  · exact hset

theorem fail (h : R k t) (f : Failure) : R (fail c.logged k n j.name f) (fail d.logged t m j.name f) := by
  unfold Coordinator.fail
  rw [hi.jobState h]
  split
  · exact h
  · exact hi.record _ (hi.abandon h)

theorem cancel (h : R k t) : R (cancel c.logged k n j.name) (cancel d.logged t m j.name) := by
  unfold Coordinator.cancel
  dsimp only
  rw [hi.jobState h]
  split
  · exact h
  · split
    · exact hi.fail h _
    · exact hi.record _ (hi.abandon h)

variable (hj : j.header.name = j.name)
include hj

theorem ensureOpen (h : R k t) : Paced R X (ensureOpen c.logged k n j) (ensureOpen d.logged t m j) := by
  unfold Coordinator.ensureOpen
  dsimp only [Context.logged, Writer.logged]
  rw [hi.jobState h]
  split
  · exact .same (.granted h)
  · match persist _ c.retries k.state, persist _ d.retries t.state,
      hi.request (.openOutput j.header) hj rfl h with
    | _, _, .same (.refused h e) => exact .same (.refused h e)
    | _, _, .same (.granted h) => exact .same (.granted (hi.setJob _ h))
    | _, _, .broken h e _ => exact .broken h e _

theorem writeNext (h : R k t) (data : Grid Double) :
    Paced R X (writeNext c.logged k n j data) (writeNext d.logged t m j data) := by
  have hopen := hi.ensureOpen hj h
  unfold Coordinator.writeNext
  generalize Coordinator.ensureOpen c.logged k n j = a, Coordinator.ensureOpen d.logged t m j = b at hopen ⊢
  cases hopen with
  | broken h e _ => exact .broken h e _
  | same hopen =>
    cases hopen with
    | refused h e => exact .same (.refused h e)
    | @granted k t h =>
      have hwrite := hi.request (.writeChunk j.name (k.jobState n).next data) rfl rfl h
      dsimp only [Context.logged, Writer.logged]
      rw [← hi.jobState h]
      generalize persist _ c.retries k.state = a, persist _ d.retries t.state = b at hwrite ⊢
      cases hwrite with
      | broken h e _ => exact .broken h e _
      | same hwrite =>
        cases hwrite with
        | refused h e => exact .same (.refused h e)
        | granted h => exact .same (.granted (hi.setJob _ h))

theorem writeReady : ∀ (fuel : Nat) {k : Logged σ} {t : Logged τ}, R k t →
    Paced R X (writeReady c.logged n j fuel k) (writeReady d.logged m j fuel t)
  | 0, _, _, h => .same (.granted h)
  | fuel + 1, k, t, h => by
    unfold Coordinator.writeReady
    dsimp only
    rw [hi.jobState h]
    split
    · exact .same (.granted h)
    · rename_i data _
      match Coordinator.writeNext c.logged _ n j data, Coordinator.writeNext d.logged _ m j data,
        hi.writeNext hj (hi.setJob _ h) data with
      | _, _, .same (.refused h e) => exact .same (.refused h e)
      | _, _, .same (.granted h) => exact writeReady fuel h
      | _, _, .broken h e _ => exact .broken h e _

omit hj in
theorem closeIfComplete (h : R k t) :
    Paced R X (closeIfComplete c.logged k n j) (closeIfComplete d.logged t m j) := by
  unfold Coordinator.closeIfComplete
  dsimp only [Context.logged, Writer.logged]
  rw [hi.jobState h]
  split
  · match persist _ c.retries k.state, persist _ d.retries t.state, hi.request (.close j.name) rfl rfl h with
    | _, _, .same (.refused h e) => exact .same (.refused h e)
    | _, _, .same (.granted h) => exact .same (.granted (hi.record _ (hi.setJob _ h)))
    | _, _, .broken h e _ => exact .broken h e _
  · exact .same (.granted h)

theorem flush (h : R k t) : Paced R X (flush c.logged k n j) (flush d.logged t m j) := by
  unfold Coordinator.flush
  rw [hi.jobState h]
  match Coordinator.writeReady c.logged n j _ k, Coordinator.writeReady d.logged m j _ t,
    hi.writeReady hj (t.jobState m).buffer.length h with
  | _, _, .same (.refused h e) => exact .same (.refused h e)
  | _, _, .same (.granted h) => exact hi.closeIfComplete h
  | _, _, .broken h e _ => exact .broken h e _

theorem takeChunk (h : R k t) (index : Nat) (data : Grid Double) :
    R (takeChunk c.logged k n j index data) (takeChunk d.logged t m j index data) ∨
      X (takeChunk c.logged k n j index data) := by
  unfold Coordinator.takeChunk
  dsimp only
  rw [hi.jobState h]
  split
  · exact .inl h
  · match Coordinator.flush c.logged _ n j, Coordinator.flush d.logged _ m j, hi.flush hj (hi.setJob _ h) with
    | _, _, .same (.refused h e) => exact .inl (hi.fail h (.writer e))
    | _, _, .same (.granted h) => exact .inl h
    | _, _, .broken h e _ => exact .inr (hi.broken (.writer e) h)

theorem handle (hn : c.jobs[n]? = some j) (hm : d.jobs[m]? = some j) {e : WorkEvent} (he : e.job = n) (h : R k t) :
    R (handle c.logged k e) (handle d.logged t (e.renumbered m)) ∨ X (handle c.logged k e) := by
  subst he
  have hm' : d.logged.jobs[(e.renumbered m).job]? = some j := by cases e <;> exact hm
  unfold Coordinator.handle
  rw [show c.logged.jobs[e.job]? = some j from hn, hm']
  cases e with
  | chunk _ index data => exact hi.takeChunk hj h index data
  | failed _ f => exact .inl (hi.fail h f)
  | cancelled _ => exact .inl (hi.cancel h)

end InStep
end Coordinator
end Concord
