import Concord.Schedule.Dispatch

/-! A destination with a log of its calls: what was asked of it, in order, and what it answered. A
    request that is tried again adds refusals of it to the log, and at most one grant at the end. -/

namespace Concord

variable {σ : Type}

/-- What is asked of a destination. -/
inductive Request where
  | openOutput (h : Header)
  | writeChunk (name : String) (index : Nat) (data : Grid Double)
  | close (name : String)
  | abandon (name : String)

namespace Request

/-- The output that a request is about. -/
def name : Request → String
  | openOutput h => h.name
  | writeChunk name _ _ => name
  | close name => name
  | abandon name => name

def isAbandon : Request → Bool
  | abandon _ => true
  | _ => false

end Request

/-- A request and its outcome. -/
structure Answer where
  request : Request
  outcome : Except WriterError Unit

/-! ### Reading a log -/

/-- The answers to the requests about one output. -/
def answersFor (name : String) (log : List Answer) : List Answer :=
  log.filter fun a => a.request.name = name

/-- The requests that were granted. -/
def grants (log : List Answer) : List Request :=
  (log.filter (·.outcome.isOk)).map (·.request)

/-- What has been asked. -/
def asked (log : List Answer) : List Request := log.map (·.request)

@[simp] theorem answersFor_append (name : String) (a b : List Answer) :
    answersFor name (a ++ b) = answersFor name a ++ answersFor name b := List.filter_append ..

theorem answersFor_eq_self {name : String} {log : List Answer} (h : ∀ r ∈ asked log, r.name = name) :
    answersFor name log = log :=
  List.filter_eq_self.mpr fun a ha => by simpa using h _ (List.mem_map_of_mem ha)

theorem answersFor_eq_nil {name : String} {log : List Answer} (h : ∀ r ∈ asked log, r.name ≠ name) :
    answersFor name log = [] :=
  List.filter_eq_nil_iff.mpr fun a ha => by simpa using h _ (List.mem_map_of_mem ha)

@[simp] theorem grants_nil : grants [] = [] := rfl

@[simp] theorem grants_append (a b : List Answer) : grants (a ++ b) = grants a ++ grants b := by
  simp [grants]

theorem grants_ok (r : Request) : grants [⟨r, .ok ()⟩] = [r] := rfl

theorem grants_error (r : Request) (e : WriterError) (log : List Answer) :
    grants (⟨r, .error e⟩ :: log) = grants log := rfl

@[simp] theorem asked_append (a b : List Answer) : asked (a ++ b) = asked a ++ asked b := List.map_append

/-- What was granted was asked. -/
theorem grants_sublist (log : List Answer) : (grants log).Sublist (asked log) := List.filter_sublist.map _

/-! ### Keeping a log -/

namespace Writer

/-- Makes a request of a destination. -/
def ask (w : Writer σ) : Request → σ → Written σ
  | .openOutput h => w.openOutput h
  | .writeChunk name index data => w.writeChunk name index data
  | .close name => w.close name
  | .abandon name => w.abandon name

/-- Makes a request and takes the answer down. -/
def note (w : Writer σ) (r : Request) (s : σ × List Answer) : Written (σ × List Answer) :=
  let (t, outcome) := w.ask r s.1
  ((t, s.2 ++ [⟨r, outcome⟩]), outcome)

/-- The destination that keeps a log of its calls. -/
def logged (w : Writer σ) : Writer (σ × List Answer) where
  has s := w.has s.1
  openOutput h := w.note (.openOutput h)
  writeChunk name index data := w.note (.writeChunk name index data)
  close name := w.note (.close name)
  abandon name := w.note (.abandon name)

/-- Makes requests one after the other. -/
def notes (w : Writer σ) (s : σ × List Answer) (rs : List Request) : σ × List Answer :=
  rs.foldl (fun s r => (w.note r s).1) s

@[simp] theorem notes_nil (w : Writer σ) (s : σ × List Answer) : w.notes s [] = s := rfl

@[simp] theorem notes_cons (w : Writer σ) (s : σ × List Answer) (r : Request) (rs : List Request) :
    w.notes s (r :: rs) = w.notes (w.note r s).1 rs := rfl

@[simp] theorem notes_append (w : Writer σ) (s : σ × List Answer) (rs qs : List Request) :
    w.notes s (rs ++ qs) = w.notes (w.notes s rs) qs := List.foldl_append

/-- Requests add to the log what they ask. -/
theorem notes_log (w : Writer σ) :
    ∀ (rs : List Request) (s : σ × List Answer), ∃ more, (w.notes s rs).2 = s.2 ++ more ∧ asked more = rs
  | [], s => ⟨[], (List.append_nil _).symm, rfl⟩
  | r :: rs, s => by
    obtain ⟨more, hmore, hrs⟩ := notes_log w rs (w.note r s).1
    refine ⟨⟨r, (w.ask r s.1).2⟩ :: more, ?_, congrArg (r :: ·) hrs⟩
    rw [notes_cons, hmore]
    exact List.append_assoc ..

/-- The state behind some requests. -/
def after (w : Writer σ) (s : σ) (rs : List Request) : σ := (w.notes (s, []) rs).1

/-- The answers to some requests. -/
def log (w : Writer σ) (s : σ) (rs : List Request) : List Answer := (w.notes (s, []) rs).2

theorem notes_eq (w : Writer σ) (rs : List Request) (s : σ × List Answer) :
    w.notes s rs = (w.after s.1 rs, s.2 ++ w.log s.1 rs) := by
  have hsplit : ∀ (rs : List Request) (s : σ × List Answer) (front : List Answer),
      w.notes (s.1, front ++ s.2) rs = ((w.notes s rs).1, front ++ (w.notes s rs).2) := by
    intro rs
    induction rs with
    | nil => exact fun _ _ => rfl
    | cons r rs ih =>
      intro s front
      rw [notes_cons, notes_cons, ← ih]
      exact congrArg (w.notes · rs) (congrArg (Prod.mk _) (List.append_assoc ..))
  have h := hsplit rs (s.1, []) s.2
  rwa [List.append_nil] at h

theorem after_append (w : Writer σ) (s : σ) (rs qs : List Request) :
    w.after s (rs ++ qs) = w.after (w.after s rs) qs := by
  rw [after, notes_append, notes_eq]
  rfl

theorem after_concat (w : Writer σ) (s : σ) (rs : List Request) (r : Request) :
    w.after s (rs ++ [r]) = (w.ask r (w.after s rs)).1 := w.after_append s rs [r]

theorem log_concat (w : Writer σ) (s : σ) (rs : List Request) (r : Request) :
    w.log s (rs ++ [r]) = w.log s rs ++ [⟨r, (w.ask r (w.after s rs)).2⟩] := by
  rw [log, notes_append]
  rfl

/-- Requests about other outputs leave the answers about an output as they are. -/
theorem notes_answersFor {w : Writer σ} {rs : List Request} {s : σ × List Answer} {name : String}
    (h : ∀ r ∈ rs, r.name ≠ name) : answersFor name (w.notes s rs).2 = answersFor name s.2 := by
  obtain ⟨more, hmore, rfl⟩ := w.notes_log rs s
  rw [hmore, answersFor_append, answersFor_eq_nil h, List.append_nil]

end Writer

/-! ### Trying again -/

/-- The answers to a request that is tried until it is granted, at most `n` times more than once. -/
inductive Tried (r : Request) : Nat → Except WriterError Unit → List Answer → Prop
  | granted {n : Nat} : Tried r n (.ok ()) [⟨r, .ok ()⟩]
  | refused {e : WriterError} : Tried r 0 (.error e) [⟨r, .error e⟩]
  | again {n : Nat} {e : WriterError} {outcome : Except WriterError Unit} {answers : List Answer}
      (h : Tried r n outcome answers) : Tried r (n + 1) outcome (⟨r, .error e⟩ :: answers)

namespace Tried
variable {r : Request} {n : Nat} {outcome : Except WriterError Unit} {answers : List Answer}

theorem request (h : Tried r n outcome answers) : ∀ q ∈ asked answers, q = r := by
  induction h with
  | granted => simp [asked]
  | refused => simp [asked]
  | again _ ih => exact fun q hq => (List.mem_cons.mp hq).elim id (ih q)

theorem grants_ok (h : Tried r n (.ok ()) answers) : grants answers = [r] := by
  generalize ho : (Except.ok () : Except WriterError Unit) = outcome at h
  induction h with
  | granted => rfl
  | refused => cases ho
  | again _ ih => exact ih ho

theorem grants_error {e : WriterError} (h : Tried r n (.error e) answers) : grants answers = [] := by
  generalize ho : (Except.error e : Except WriterError Unit) = outcome at h
  induction h with
  | granted => cases ho
  | refused => rfl
  | again _ ih => exact ih ho

end Tried

/-- Calling until one succeeds tries a request. -/
theorem persist_tried (w : Writer σ) (r : Request) :
    ∀ (n : Nat) (s : σ × List Answer), ∃ answers, Tried r n (persist (w.note r) n s).2 answers ∧
      (persist (w.note r) n s).1 = w.notes s (asked answers) ∧
      (persist (w.note r) n s).1.2 = s.2 ++ answers
  | 0, s => by
    refine ⟨[⟨r, (w.note r s).2⟩], ?_, rfl, rfl⟩
    rw [persist]
    cases (w.note r s).2 with
    | ok => exact .granted
    | error e => exact .refused
  | n + 1, s => by
    rw [persist]
    cases hn : w.note r s with
    | mk t outcome =>
      have ht : t = (w.note r s).1 := by rw [hn]
      have ho : outcome = (w.note r s).2 := by rw [hn]
      have hlog : t.2 = s.2 ++ [⟨r, outcome⟩] := by rw [ht, ho]; rfl
      cases outcome with
      | ok => exact ⟨[⟨r, .ok ()⟩], .granted, ht, hlog⟩
      | error e =>
        obtain ⟨answers, htried, hnotes, hanswers⟩ := persist_tried w r n t
        refine ⟨⟨r, .error e⟩ :: answers, htried.again, ?_, ?_⟩
        · rw [hnotes, ht]
          rfl
        · rw [hanswers, hlog, List.append_assoc]
          rfl

/-! ### Granted one after the other -/

/-- The answers to requests that were all granted, each tried anew. -/
inductive Granted (n : Nat) : List Request → List Answer → Prop
  | nil : Granted n [] []
  | snoc {rs : List Request} {before answers : List Answer} {r : Request} (h : Granted n rs before)
      (htried : Tried r n (.ok ()) answers) : Granted n (rs ++ [r]) (before ++ answers)

/-- The answers to requests of which the last was refused. -/
def Refused (n : Nat) (rs : List Request) (r : Request) (e : WriterError) (log : List Answer) : Prop :=
  ∃ before answers, Granted n rs before ∧ Tried r n (.error e) answers ∧ log = before ++ answers

namespace Granted
variable {n : Nat} {rs : List Request} {log : List Answer}

theorem grants (h : Granted n rs log) : grants log = rs := by
  induction h with
  | nil => rfl
  | snoc _ htried ih => rw [grants_append, ih, htried.grants_ok]

/-- Behind the answers to the requests before it are those to the last request. -/
theorem of_concat {r : Request} (h : Granted n (rs ++ [r]) log) :
    ∃ before answers, Granted n rs before ∧ Tried r n (.ok ()) answers ∧ log = before ++ answers := by
  generalize hall : rs ++ [r] = all at h
  cases h with
  | nil => simp at hall
  | snoc h htried =>
    obtain ⟨rfl, hr⟩ := List.append_inj' hall rfl
    cases hr
    exact ⟨_, _, h, htried, rfl⟩

theorem mem_asked (h : Granted n rs log) : ∀ q ∈ asked log, q ∈ rs := by
  induction h with
  | nil => exact fun q hq => hq
  | snoc _ htried ih =>
    intro q hq
    rw [asked_append] at hq
    rcases List.mem_append.mp hq with hq | hq
    · exact List.mem_append_left _ (ih q hq)
    · exact List.mem_append_right _ (List.mem_singleton.mpr (htried.request q hq))

end Granted

namespace Refused
variable {n : Nat} {rs : List Request} {r : Request} {e : WriterError} {log : List Answer}

theorem grants (h : Refused n rs r e log) : grants log = rs := by
  obtain ⟨before, answers, hg, ht, rfl⟩ := h
  rw [grants_append, hg.grants, ht.grants_error, List.append_nil]

theorem mem_asked (h : Refused n rs r e log) : ∀ q ∈ asked log, q ∈ rs ++ [r] := by
  obtain ⟨before, answers, hg, ht, rfl⟩ := h
  intro q hq
  rw [asked_append] at hq
  rcases List.mem_append.mp hq with hq | hq
  · exact List.mem_append_left _ (hg.mem_asked q hq)
  · exact List.mem_append_right _ (List.mem_singleton.mpr (ht.request q hq))

end Refused

end Concord
