import Mathlib.Data.List.Induction
import Concord.Output.Memory
import Concord.Proofs.Schedule.Session

/-! Destinations that answer for each output on its own. What they answer to the requests about an output
    is then the same in every run, whatever else the run asks of them. -/

namespace Concord

variable {σ : Type}

/-- The answer to a request about an output after some other requests about it. -/
abbrev Replies := List Request → Request → Except WriterError Unit

/-- The requests about an output. -/
def requestsFor (name : String) (rs : List Request) : List Request := rs.filter fun r => r.name = name

@[simp] theorem asked_answersFor (name : String) (log : List Answer) :
    asked (answersFor name log) = requestsFor name (asked log) := by
  simp only [asked, answersFor, requestsFor, List.filter_map]
  rfl

@[simp] theorem requestsFor_idem (name : String) (rs : List Request) :
    requestsFor name (requestsFor name rs) = requestsFor name rs := by
  simp [requestsFor, List.filter_filter]

namespace Writer

/-- What a destination answers to a request after some others. -/
def reply (w : Writer σ) (s : σ) : Replies := fun before r => (w.ask r (w.notes (s, []) before).1).2

/-- The answer to a request depends on the earlier requests about the same output only. -/
def Separates (w : Writer σ) (s : σ) : Prop :=
  ∀ before other r, requestsFor r.name before = requestsFor r.name other → w.reply s before r = w.reply s other r

end Writer

/-- What a destination knows of an output: it decides the answers, and what it becomes. -/
structure Writer.Views {α : Type} (w : Writer σ) (view : String → σ → α) : Prop where
  other : ∀ r name s, name ≠ r.name → view name (w.ask r s).1 = view name s
  same : ∀ r s t, view r.name s = view r.name t →
    (w.ask r s).2 = (w.ask r t).2 ∧ view r.name (w.ask r s).1 = view r.name (w.ask r t).1

/-- A destination that knows outputs one by one separates them. -/
theorem Writer.Views.separates {α : Type} {w : Writer σ} {view : String → σ → α} (h : w.Views view) (s : σ) :
    w.Separates s := by
  have hnotes : ∀ (name : String) (rs : List Request),
      view name (w.notes (s, []) rs).1 = view name (w.notes (s, []) (requestsFor name rs)).1 := by
    intro name rs
    induction rs using List.reverseRecOn with
    | nil => rfl
    | append_singleton rs r ih =>
      have hone : ∀ t : σ × List Answer, (w.notes t [r]).1 = (w.ask r t.1).1 := fun t => rfl
      rw [w.notes_append, hone]
      by_cases hr : r.name = name
      · have hfor : requestsFor name (rs ++ [r]) = requestsFor name rs ++ [r] := by simp [requestsFor, hr]
        rw [hfor, w.notes_append, hone]
        subst hr
        exact (h.same r _ _ ih).2
      · have hfor : requestsFor name (rs ++ [r]) = requestsFor name rs := by simp [requestsFor, hr]
        rw [hfor, h.other r name _ (Ne.symm hr), ih]
  intro before other r heq
  refine (h.same r _ _ ?_).1
  rw [hnotes, heq, ← hnotes]

/-- What it knows of an output decides its answers about it. -/
theorem Writer.Views.reply_eq {α : Type} {w : Writer σ} {view : String → σ → α} (h : w.Views view) {s t : σ}
    {r : Request} (hst : view r.name s = view r.name t) (before : List Request) :
    w.reply s before r = w.reply t before r := by
  have hnotes : view r.name (w.notes (s, []) before).1 = view r.name (w.notes (t, []) before).1 := by
    induction before using List.reverseRecOn with
    | nil => exact hst
    | append_singleton before q ih =>
      rw [w.notes_append, w.notes_append]
      by_cases hq : r.name = q.name
      · rw [hq] at ih ⊢
        exact (h.same q _ _ ih).2
      · exact (h.other q _ _ hq).trans (ih.trans (h.other q _ _ hq).symm)
  exact (h.same r _ _ hnotes).1

/-- What the memory knows of an output. -/
def Memory.knows (name : String) (m : Memory) : Option PendingVariable × Option Nat :=
  (m.pending.get? name, m.failing.get? name)

theorem Memory.views : Memory.writer.Views Memory.knows where
  other r name m hne := by
    cases r with
    | openOutput h =>
      have hne : name ≠ h.name := hne
      simp [Writer.ask, writer, openOutput, note, knows, NameMap.get?_insert, hne]
    | writeChunk n index data =>
      have hne : name ≠ n := hne
      simp only [Writer.ask, writer, writeChunk, knows]
      split
      · simp [NameMap.get?_alter, hne]
      · split
        · rfl
        · split <;> simp [note, NameMap.get?_insert, hne]
    | close n =>
      have hne : name ≠ n := hne
      simp only [Writer.ask, writer, close, knows]
      split
      · rfl
      · split <;> simp [note, NameMap.get?_erase, hne]
    | abandon n =>
      have hne : name ≠ n := hne
      simp [Writer.ask, writer, abandon, note, knows, NameMap.get?_erase, hne]
  same r m t h := by
    obtain ⟨hpending, hfailing⟩ := Prod.mk.inj h
    cases r with
    | openOutput h =>
      refine ⟨rfl, ?_⟩
      simp_all [Writer.ask, writer, openOutput, note, knows, NameMap.get?_insert, Request.name]
    | writeChunk n index data =>
      simp only [Request.name] at hpending hfailing
      simp only [Writer.ask, writer, writeChunk, failsNow, knows, Request.name, hpending, hfailing]
      by_cases hf : (t.failing.get? n).any (0 < ·) = true
      · simp [hf, NameMap.get?_alter, hpending, hfailing]
      · cases hp : t.pending.get? n with
        | none => simp [hf, hp, hpending, hfailing]
        | some p => by_cases hi : index = p.chunks.length <;>
            simp [hf, hp, hi, note, NameMap.get?_insert, hpending, hfailing]
    | close n =>
      simp only [Request.name] at hpending hfailing
      simp only [Writer.ask, writer, close, knows, Request.name, hpending]
      cases hp : t.pending.get? n with
      | none => simp [hp, hpending, hfailing]
      | some p => cases ha : assemble p <;> simp [ha, note, NameMap.get?_erase, hfailing]
    | abandon n =>
      refine ⟨rfl, ?_⟩
      simp_all [Writer.ask, writer, abandon, note, knows, NameMap.get?_erase, Request.name]

/-- The memory forgets no call. -/
theorem Memory.calls_prefix (r : Request) (m : Memory) : m.calls <+: (writer.ask r m).1.calls := by
  cases r with
  | openOutput h => exact List.prefix_append ..
  | writeChunk name index data =>
    simp only [Writer.ask, writer, writeChunk]
    split
    · exact List.prefix_rfl
    · split
      · exact List.prefix_rfl
      · split
        · exact List.prefix_rfl
        · exact List.prefix_append ..
  | close name =>
    simp only [Writer.ask, writer, close]
    split
    · exact List.prefix_rfl
    · split
      · exact List.prefix_rfl
      · exact List.prefix_append ..
  | abandon name => exact List.prefix_append ..

/-! ### Logs of such destinations -/

/-- Each answer of a log is the one that `f` gives after the requests before it. -/
inductive Truthful (f : Replies) : List Answer → Prop
  | nil : Truthful f []
  | snoc {log : List Answer} {r : Request} (h : Truthful f log) : Truthful f (log ++ [⟨r, f (asked log) r⟩])

namespace Truthful
variable {f : Replies} {log before after : List Answer} {a : Answer}

theorem of_concat (h : Truthful f (log ++ [a])) : Truthful f log ∧ a.outcome = f (asked log) a.request := by
  generalize hall : log ++ [a] = all at h
  cases h with
  | nil => simp at hall
  | @snoc log' r h =>
    obtain ⟨rfl, ha⟩ := List.append_inj' hall rfl
    cases ha
    exact ⟨h, rfl⟩

theorem of_append : ∀ {after : List Answer}, Truthful f (before ++ after) → Truthful f before := by
  intro after
  induction after using List.reverseRecOn with
  | nil =>
    intro h
    rwa [List.append_nil] at h
  | append_singleton after a ih =>
    intro h
    rw [← List.append_assoc] at h
    exact ih h.of_concat.1

/-- The answer in a place of a log. -/
theorem outcome (h : Truthful f (before ++ a :: after)) : a.outcome = f (asked before) a.request := by
  rw [← List.singleton_append, ← List.append_assoc] at h
  exact h.of_append.of_concat.2

end Truthful

/-- A destination that separates outputs answers truthfully about each. -/
theorem Writer.Separates.truthful {w : Writer σ} {s : σ} (hw : w.Separates s) (name : String) (rs : List Request) :
    Truthful (w.reply s) (answersFor name (w.notes (s, []) rs).2) := by
  induction rs using List.reverseRecOn with
  | nil => exact .nil
  | append_singleton rs r ih =>
    have hlog : (w.notes (s, []) (rs ++ [r])).2 = (w.notes (s, []) rs).2 ++ [⟨r, w.reply s rs r⟩] := by
      rw [w.notes_append]
      rfl
    rw [hlog, answersFor_append]
    by_cases hr : r.name = name
    · obtain ⟨more, hmore, hasked⟩ := w.notes_log rs (s, [])
      rw [List.nil_append] at hmore
      have hreply : w.reply s rs r = w.reply s (asked (answersFor name (w.notes (s, []) rs).2)) r := by
        refine hw _ _ _ ?_
        rw [asked_answersFor, hmore, hasked, hr, requestsFor_idem]
      have hone : answersFor name [⟨r, w.reply s rs r⟩] = [⟨r, w.reply s rs r⟩] := by simp [answersFor, hr]
      rw [hone, hreply]
      exact ih.snoc
    · have hnone : answersFor name [⟨r, w.reply s rs r⟩] = [] := by simp [answersFor, hr]
      rwa [hnone, List.append_nil]

/-! ### Requests that are made until one is refused -/

section
variable {f : Replies} {n : Nat} {r : Request} {rs more : List Request} {log before answers : List Answer}
  {outcome : Except WriterError Unit} {e : WriterError}

/-- A log after a request is tried, at most `n` times more than once, and its outcome. -/
def attempt (f : Replies) (r : Request) : Nat → List Answer → List Answer × Except WriterError Unit
  | 0, log => (log ++ [⟨r, f (asked log) r⟩], f (asked log) r)
  | n + 1, log =>
    match f (asked log) r with
    | .ok () => (log ++ [⟨r, .ok ()⟩], .ok ())
    | .error e => attempt f r n (log ++ [⟨r, .error e⟩])

/-- A log after requests are tried one after the other, until one is refused. -/
def perform (f : Replies) (n : Nat) : List Request → List Answer → List Answer × Except WriterError Unit
  | [], log => (log, .ok ())
  | r :: rs, log =>
    match attempt f r n log with
    | (log, .ok ()) => perform f n rs log
    | (log, .error e) => (log, .error e)

theorem perform_append (log : List Answer) :
    perform f n (rs ++ more) log =
      match perform f n rs log with
      | (log, .ok ()) => perform f n more log
      | (log, .error e) => (log, .error e) := by
  induction rs generalizing log with
  | nil => rfl
  | cons r rs ih =>
    simp only [List.cons_append, perform]
    rcases attempt f r n log with ⟨log', e | _⟩
    · rfl
    · exact ih log'

theorem Tried.attempt (h : Tried r n outcome answers) (ht : Truthful f (before ++ answers)) :
    attempt f r n before = (before ++ answers, outcome) := by
  induction h generalizing before with
  | @granted n =>
    have hf : .ok () = f (asked before) r := ht.outcome
    cases n <;> simp only [Concord.attempt, ← hf]
  | refused =>
    have hf : .error _ = f (asked before) r := ht.outcome
    simp only [Concord.attempt, ← hf]
  | @again n e outcome answers h ih =>
    have hf : .error e = f (asked before) r := ht.outcome
    rw [← List.singleton_append, ← List.append_assoc] at ht
    simp only [Concord.attempt, ← hf, ih ht, List.append_assoc, List.singleton_append]

theorem Granted.perform (h : Granted n rs log) (ht : Truthful f log) : perform f n rs [] = (log, .ok ()) := by
  induction h with
  | nil => rfl
  | @snoc rs before answers r h htried ih =>
    simp only [perform_append, ih ht.of_append, Concord.perform, htried.attempt ht]

theorem Refused.perform (h : Refused n rs r e log) (ht : Truthful f log) (more : List Request) :
    perform f n (rs ++ r :: more) [] = (log, .error e) := by
  obtain ⟨before, answers, hgranted, htried, rfl⟩ := h
  simp only [perform_append, hgranted.perform ht.of_append, Concord.perform, htried.attempt ht]

end
end Concord
