import Concord.Output.Memory
import Concord.Proofs.Schedule.AnyOrder
import Concord.Proofs.Schedule.WriterLog

/-! What the calls of the memory do: each way in which a request may be answered, with the memory behind it. All that
    is said about outputs kept in memory is said by cases on these. -/

namespace Concord.Memory

variable {m : Memory} {name : String}

/-- How many writings of a name are still to fail. -/
def left (m : Memory) (name : String) : Nat := (m.failing.get? name).getD 0

/-- How many injected failures stand before the answer to a request. -/
def injected (m : Memory) : Request → Nat
  | .writeChunk name _ _ => m.left name
  | _ => 0

/-- The memory after an injected failure. -/
def spend (m : Memory) (name : String) : Memory :=
  { m with failing := m.failing.alter name fun n => n.map (· - 1) }

/-- The answer about an output that is not open. -/
def notOpen (name : String) : WriterError := ⟨name, "variable is not open"⟩

/-- The answer to a chunk whose turn it is not. -/
def misplaced (name : String) (index expected : Nat) : WriterError :=
  ⟨name, "chunk " ++ toString index ++ " arrived, expected " ++ toString expected⟩

theorem failsNow_iff : m.failsNow name = true ↔ 0 < m.left name := by
  unfold failsNow left
  cases m.failing.get? name <;> simp

theorem left_spend (m : Memory) (name : String) : (m.spend name).left name = m.left name - 1 := by
  unfold left spend
  dsimp only
  rw [NameMap.get?_alter, if_pos rfl]
  cases m.failing.get? name <;> rfl

/-- As long as failures are left, writing does nothing but use one up. -/
theorem ask_injected {index : Nat} {data : Grid Double} (h : 0 < m.left name) :
    writer.ask (.writeChunk name index data) m = (m.spend name, .error ⟨name, "injected write failure"⟩) :=
  if_pos (failsNow_iff.mpr h)

/-- What is not open cannot be closed. -/
theorem ask_close_of_none (h : m.pending.get? name = none) :
    writer.ask (.close name) m = (m, .error (notOpen name)) := by
  simp only [Writer.ask, writer, close, h, notOpen]

/-- The next chunk of an output that is open is written. -/
theorem ask_next {p : PendingVariable} (hleft : m.left name = 0) (hp : m.pending.get? name = some p)
    (data : Grid Double) : writer.ask (.writeChunk name p.chunks.length data) m =
      ({ m with pending := m.pending.insert name ⟨p.header, p.chunks ++ [data]⟩ }.note
        (.wrote name p.chunks.length), .ok ()) := by
  have hcalm : m.failsNow name = false := Bool.eq_false_iff.mpr fun h => absurd hleft (Nat.ne_of_gt (failsNow_iff.mp h))
  simp [Writer.ask, writer, writeChunk, hcalm, hp]

/-- An output whose chunks fit together is closed. -/
theorem ask_close {p : PendingVariable} {data : Grid Double} (hp : m.pending.get? name = some p)
    (ha : assemble p = .ok data) : writer.ask (.close name) m =
    ({ m with pending := m.pending.erase name
              finished := m.finished.insert name ⟨p.header, data, p.chunks.length⟩ }.note (.closed name), .ok ()) := by
  simp [Writer.ask, writer, close, hp, ha]

theorem misplaced_ne_injected (name : String) (index expected : Nat) :
    (misplaced name index expected).message ≠ "injected write failure" := by
  intro h
  have hchars := congrArg String.toList h
  simp [misplaced] at hchars

/-! ### Ways to answer -/

/-- A request, the memory behind it, and the answer. -/
inductive Effect (m : Memory) : Request → Memory → Except WriterError Unit → Prop
  | opened (h : Header) :
      Effect m (.openOutput h) ({ m with pending := m.pending.insert h.name ⟨h, []⟩ }.note (.opened h.name)) (.ok ())
  | injected {name : String} {index : Nat} {data : Grid Double} (hleft : 0 < m.left name) :
      Effect m (.writeChunk name index data) (m.spend name) (.error ⟨name, "injected write failure"⟩)
  | unwritten {name : String} {index : Nat} {data : Grid Double} (hleft : m.left name = 0)
      (hp : m.pending.get? name = none) :
      Effect m (.writeChunk name index data) m (.error (notOpen name))
  | misplaced {name : String} {index : Nat} {data : Grid Double} {p : PendingVariable} (hleft : m.left name = 0)
      (hp : m.pending.get? name = some p) (hi : index ≠ p.chunks.length) :
      Effect m (.writeChunk name index data) m (.error (misplaced name index p.chunks.length))
  | wrote {name : String} {data : Grid Double} {p : PendingVariable} (hleft : m.left name = 0)
      (hp : m.pending.get? name = some p) :
      Effect m (.writeChunk name p.chunks.length data)
        ({ m with pending := m.pending.insert name ⟨p.header, p.chunks ++ [data]⟩ }.note
          (.wrote name p.chunks.length)) (.ok ())
  | unclosed {name : String} (hp : m.pending.get? name = none) : Effect m (.close name) m (.error (notOpen name))
  | unassembled {name : String} {p : PendingVariable} {text : String} (hp : m.pending.get? name = some p)
      (ha : assemble p = .error text) :
      Effect m (.close name) { m with pending := m.pending.erase name } (.error ⟨name, text⟩)
  | closed {name : String} {p : PendingVariable} {data : Grid Double} (hp : m.pending.get? name = some p)
      (ha : assemble p = .ok data) :
      Effect m (.close name)
        ({ m with pending := m.pending.erase name
                  finished := m.finished.insert name ⟨p.header, data, p.chunks.length⟩ }.note (.closed name)) (.ok ())
  | abandoned (name : String) :
      Effect m (.abandon name) ({ m with pending := m.pending.erase name }.note (.abandoned name)) (.ok ())

/-- Every request is answered in one of these ways. -/
theorem ask_effect (r : Request) (m : Memory) : Effect m r (writer.ask r m).1 (writer.ask r m).2 := by
  cases r with
  | openOutput h => exact .opened h
  | writeChunk name index data =>
    simp only [Writer.ask, writer, writeChunk]
    split
    · rename_i hfails
      exact .injected (failsNow_iff.mp hfails)
    · rename_i hfails
      have hleft : m.left name = 0 := Nat.eq_zero_of_not_pos (mt failsNow_iff.mpr hfails)
      split
      · rename_i hp
        exact .unwritten hleft hp
      · rename_i p hp
        split
        · rename_i hi
          exact .misplaced hleft hp hi
        · rename_i hi
          obtain rfl := Decidable.not_not.mp hi
          exact .wrote hleft hp
  | close name =>
    simp only [Writer.ask, writer, close]
    split
    · rename_i hp
      exact .unclosed hp
    · rename_i p hp
      split
      · rename_i ha
        exact .unassembled hp ha
      · rename_i ha
        exact .closed hp ha
  | abandon name => exact .abandoned name

/-- A request changes nothing about other outputs. -/
theorem ask_other {r : Request} (h : name ≠ r.name) (m : Memory) :
    (writer.ask r m).1.pending.get? name = m.pending.get? name ∧
      (writer.ask r m).1.finished.get? name = m.finished.get? name := by
  have heff := ask_effect r m
  generalize writer.ask r m = a at heff
  obtain ⟨t, outcome⟩ := a
  cases heff with
  | injected | unwritten | misplaced | unclosed => exact ⟨rfl, rfl⟩
  | opened | wrote => exact ⟨(NameMap.get?_insert ..).trans (if_neg h), rfl⟩
  | unassembled | abandoned => exact ⟨(NameMap.get?_erase ..).trans (if_neg h), rfl⟩
  | closed =>
    exact ⟨(NameMap.get?_erase ..).trans (if_neg h), (NameMap.get?_insert ..).trans (if_neg h)⟩

/-- Behind a request to close an output it is not open, whatever the answer. -/
theorem get?_pending_close (name : String) (m : Memory) : (writer.ask (.close name) m).1.pending.get? name = none := by
  have heff := ask_effect (.close name) m
  generalize writer.ask (.close name) m = a at heff
  obtain ⟨t, outcome⟩ := a
  cases heff with
  | unclosed hp => exact hp
  | unassembled | closed => exact (NameMap.get?_erase ..).trans (if_pos rfl)

/-- Writing to an output leaves it open. -/
theorem isSome_pending_writeChunk (h : (m.pending.get? name).isSome = true) (index : Nat) (data : Grid Double) :
    ((writer.ask (.writeChunk name index data) m).1.pending.get? name).isSome = true := by
  have heff := ask_effect (.writeChunk name index data) m
  generalize writer.ask (.writeChunk name index data) m = a at heff
  obtain ⟨t, outcome⟩ := a
  cases heff with
  | injected | unwritten | misplaced => exact h
  | wrote => exact Option.isSome_iff_exists.mpr ⟨_, (NameMap.get?_insert ..).trans (if_pos rfl)⟩

end Concord.Memory

/-! Requests to the memory that are refused and made again. A refusal leaves what is finished and what is open as it
    was, unless it is that of a close: then the output is open no longer, and the close is refused for another reason
    when it is made again. -/

namespace Concord.Memory

variable {m : Memory} {r : Request} {e : WriterError} {name : String} {n : Nat}

/-- A request to close an output that is open. -/
def closes (m : Memory) : Request → Bool
  | .close name => m.pending.contains name
  | _ => false

/-- The answer to a request where no failures are injected. -/
def plainly (m : Memory) (r : Request) : Except WriterError Unit := (writer.ask r { m with failing := .empty }).2

theorem plainly_writeChunk (m : Memory) (name : String) (index : Nat) (data : Grid Double) :
    m.plainly (.writeChunk name index data) =
      match m.pending.get? name with
      | none => .error (notOpen name)
      | some p => if index = p.chunks.length then .ok () else .error (misplaced name index p.chunks.length) := by
  have hcalm : ({ m with failing := .empty } : Memory).failsNow name = false := rfl
  simp only [plainly, Writer.ask, writer, writeChunk, hcalm]
  cases m.pending.get? name with
  | none => rfl
  | some p =>
    by_cases hi : index = p.chunks.length
    · simp [hi]
    · simp [hi, misplaced]

/-! ### Texts of refusals -/

/-- Without injected failures no writing is refused for one. -/
theorem plainly_ne_injected (m : Memory) (name : String) (index : Nat) (data : Grid Double) :
    m.plainly (.writeChunk name index data) ≠ .error ⟨name, "injected write failure"⟩ := by
  rw [plainly_writeChunk]
  split
  · simp [notOpen]
  · split
    · exact fun h => by cases h
    · exact fun h => misplaced_ne_injected _ _ _ (congrArg WriterError.message (Except.error.inj h))

/-- An output that does not fit together is not taken for one that is not open. -/
theorem assemble_ne_notOpen {p : PendingVariable} {text : String} (h : assemble p = .error text) :
    text ≠ "variable is not open" := by
  unfold assemble at h
  dsimp only at h
  split at h
  · cases h
    decide
  · cases h
  · cases h
    intro heq
    have hlen := congrArg String.length heq
    rw [String.length_append] at hlen
    have hshort : "variable is not open".length < " chunks without a chunk dimension".length := by decide
    omega
  · rename_i axis _ _
    cases hc : Grid.concat axis p.chunks with
    | ok g =>
      rw [hc] at h
      cases h
    | error fault =>
      rw [hc] at h
      cases h
      cases fault <;> decide

/-! ### Made again -/

theorem persist_eq_of_unchanged (h : writer.ask r m = (m, .error e)) : ∀ n, persist (writer.ask r) n m = (m, .error e)
  | 0 => h
  | n + 1 => by
    rw [persist, h]
    exact persist_eq_of_unchanged h n

/-- Without failures left, a writing is answered plainly, and changes nothing if it is refused. -/
theorem ask_writeChunk_of_left_eq_zero (index : Nat) (data : Grid Double) (hleft : m.left name = 0) :
    (writer.ask (.writeChunk name index data) m).2 = m.plainly (.writeChunk name index data) ∧
      ∀ e, m.plainly (.writeChunk name index data) = .error e →
        writer.ask (.writeChunk name index data) m = (m, .error e) := by
  have heff := ask_effect (.writeChunk name index data) m
  have hplain := plainly_writeChunk m name index data
  generalize writer.ask (.writeChunk name index data) m = a at heff
  obtain ⟨t, outcome⟩ := a
  cases heff with
  | injected h => exact absurd hleft (Nat.ne_of_gt h)
  | unwritten _ hp =>
    simp only [hp] at hplain
    exact ⟨hplain.symm, fun e he => by cases hplain.symm.trans he; rfl⟩
  | misplaced _ hp hi =>
    simp only [hp, hi, if_false] at hplain
    exact ⟨hplain.symm, fun e he => by cases hplain.symm.trans he; rfl⟩
  | wrote _ hp =>
    simp only [hp, if_true] at hplain
    exact ⟨hplain.symm, fun e he => by cases hplain.symm.trans he⟩

/-- A writing is refused as long as failures are left, and then answered as it would be without them. -/
theorem persist_writeChunk (name : String) (index : Nat) (data : Grid Double) (n : Nat) (m : Memory) :
    (persist (writer.ask (.writeChunk name index data)) n m).2 =
      if n < m.left name then .error ⟨name, "injected write failure"⟩ else m.plainly (.writeChunk name index data) := by
  induction n generalizing m with
  | zero =>
    rw [persist]
    rcases Nat.eq_zero_or_pos (m.left name) with hleft | hleft
    · rw [if_neg (by omega), (ask_writeChunk_of_left_eq_zero _ _ hleft).1]
    · rw [if_pos hleft, ask_injected hleft]
  | succ n ih =>
    rcases Nat.eq_zero_or_pos (m.left name) with hleft | hleft
    · obtain ⟨houtcome, hrefused⟩ := ask_writeChunk_of_left_eq_zero index data hleft
      rw [if_neg (by omega)]
      cases hplain : m.plainly (.writeChunk name index data) with
      | error e => rw [persist_eq_of_unchanged (hrefused e hplain)]
      | ok =>
        rw [hplain] at houtcome
        rw [persist]
        generalize writer.ask (.writeChunk name index data) m = a at houtcome
        obtain ⟨t, outcome⟩ := a
        subst houtcome
        rfl
    · have hplain : (m.spend name).plainly (.writeChunk name index data) =
        m.plainly (.writeChunk name index data) := rfl
      rw [persist, ask_injected hleft]
      dsimp only
      rw [ih, left_spend, hplain]
      exact if_congr (by omega) rfl rfl

/-! ### What a refusal leaves behind -/

/-- A refused request leaves what is finished as it was, and what is open too, unless it was to close an output that
    is open. -/
theorem refused_state (h : (writer.ask r m).2 = .error e) : (writer.ask r m).1.finished = m.finished ∧
    (writer.ask r m).1.pending = if m.closes r then m.pending.erase r.name else m.pending := by
  have heff := ask_effect r m
  generalize writer.ask r m = a at heff h
  obtain ⟨t, outcome⟩ := a
  cases heff with
  | opened | wrote | closed | abandoned => cases h
  | injected | unwritten | misplaced => exact ⟨rfl, rfl⟩
  | unclosed hp => exact ⟨rfl, by simp [closes, NameMap.contains, hp]⟩
  | unassembled hp _ => exact ⟨rfl, by simp [closes, NameMap.contains, hp, Request.name]⟩

/-- A close that was refused is refused from then on as that of an output that is not open. -/
theorem persist_close (h : (writer.ask (.close name) m).2 = .error e) :
    ∀ n, (persist (writer.ask (.close name)) n m).2 = .error (if n = 0 then e else notOpen name)
  | 0 => h
  | n + 1 => by
    have hnone := get?_pending_close name m
    rw [persist, if_neg (Nat.succ_ne_zero n)]
    generalize writer.ask (.close name) m = a at h hnone
    obtain ⟨t, outcome⟩ := a
    subst h
    exact congrArg Prod.snd (persist_eq_of_unchanged (ask_close_of_none hnone) n)

/-- Why an open output is not closed is not that it is not open. -/
theorem refused_ne_notOpen (h : (writer.ask (.close name) m).2 = .error e) (hc : m.closes (.close name) = true) :
    e ≠ notOpen name := by
  have heff := ask_effect (.close name) m
  generalize writer.ask (.close name) m = a at heff h
  obtain ⟨t, outcome⟩ := a
  cases heff with
  | closed => cases h
  | unclosed hp => simp [closes, NameMap.contains, hp] at hc
  | unassembled _ ha =>
    cases h
    exact fun heq => assemble_ne_notOpen ha (congrArg WriterError.message heq)

/-- A request that was refused with `e`: what it leaves behind, and how it fares when it is made again. -/
structure Refusal (m : Memory) (r : Request) (e : WriterError) : Prop where
  finished : (writer.ask r m).1.finished = m.finished
  /-- What is open stays as it was, but for the output that was to be closed. -/
  pending : (writer.ask r m).1.pending = if m.closes r then m.pending.erase r.name else m.pending
  outcome : ∀ n, (persist (writer.ask r) n m).2 =
    if m.closes r = true ∧ n ≠ 0 then .error (notOpen r.name)
    else if 0 < m.injected r ∧ m.injected r ≤ n then m.plainly r
    else .error e
  /-- It ends well or with the same error, unless an open output was to be closed, or a writing that cannot be
      granted was refused for injected failures first. -/
  faithful : ∀ n, ((persist (writer.ask r) n m).2 = .ok () ∨ (persist (writer.ask r) n m).2 = .error e) ↔
    ¬(m.closes r = true ∧ n ≠ 0) ∧ (0 < m.injected r ∧ m.injected r ≤ n → m.plainly r = .ok ())

theorem refusal_outcome (h : (writer.ask r m).2 = .error e) (n : Nat) : (persist (writer.ask r) n m).2 =
    if m.closes r = true ∧ n ≠ 0 then .error (notOpen r.name)
    else if 0 < m.injected r ∧ m.injected r ≤ n then m.plainly r
    else .error e := by
  cases r with
  | openOutput => cases h
  | abandon => cases h
  | writeChunk name index data =>
    have hopen : ¬(m.closes (.writeChunk name index data) = true ∧ n ≠ 0) := fun hc => Bool.noConfusion hc.1
    rw [persist_writeChunk, if_neg hopen]
    change _ = if 0 < m.left name ∧ m.left name ≤ n then _ else _
    rcases Nat.eq_zero_or_pos (m.left name) with hleft | hleft
    · rw [if_neg (by omega), if_neg (by omega), ← (ask_writeChunk_of_left_eq_zero _ _ hleft).1, h]
    · rw [ask_injected hleft] at h
      cases h
      by_cases hn : n < m.left name
      · rw [if_pos hn, if_neg (by omega)]
      · rw [if_neg hn, if_pos (by omega)]
  | close name =>
    have hinjected : ¬(0 < m.injected (.close name) ∧ m.injected (.close name) ≤ n) := fun hc => Nat.lt_irrefl 0 hc.1
    rw [persist_close h, if_neg hinjected]
    by_cases hn : n = 0
    · rw [if_pos hn, if_neg fun hc => hc.2 hn]
    cases hc : m.closes (.close name) with
    | true => rw [if_neg hn, if_pos ⟨rfl, hn⟩]; rfl
    | false =>
      have hnone : m.pending.get? name = none :=
        Option.not_isSome_iff_eq_none.mp (by simpa [closes, NameMap.contains] using hc)
      rw [ask_close_of_none hnone] at h
      cases h
      rw [ite_self, if_neg fun hc => Bool.noConfusion hc.1]

theorem refusal (h : (writer.ask r m).2 = .error e) : Refusal m r e where
  finished := (refused_state h).1
  pending := (refused_state h).2
  outcome := refusal_outcome h
  faithful n := by
    rw [refusal_outcome h n]
    by_cases hc : m.closes r = true ∧ n ≠ 0
    · obtain ⟨name, rfl⟩ : ∃ name, r = .close name := by cases r <;> simp_all [closes]
      rw [if_pos hc]
      refine ⟨fun hor => ?_, fun hnot => absurd hc hnot.1⟩
      rcases hor with hok | herror
      · cases hok
      · exact absurd (Except.error.inj herror).symm (refused_ne_notOpen h hc.1)
    rw [if_neg hc]
    by_cases hi : 0 < m.injected r ∧ m.injected r ≤ n
    · obtain ⟨name, index, data, rfl⟩ : ∃ name index data, r = .writeChunk name index data := by
        cases r <;> simp_all [injected]
      rw [if_pos hi]
      rw [ask_injected hi.1] at h
      cases h
      have hne := plainly_ne_injected m name index data
      exact ⟨fun hor => ⟨hc, fun _ => hor.resolve_right hne⟩, fun hand => .inl (hand.2 hi)⟩
    · rw [if_neg hi]
      exact ⟨fun _ => ⟨hc, fun h => absurd h hi⟩, fun _ => .inr rfl⟩

/-! ### Runs of the coordinator -/

section
open Coordinator
variable {s : Memory} {events : List WorkEvent} {job : Nat} {j : Job} {missing : Nat → Prop} {status : Status}
  {data : List (Grid Double)} {rs : List Request} {log before answers : List Answer}
  {outcome : Except WriterError Unit}

/-- The first answer to a request to close an output. -/
def firstClose (log : List Answer) : Option Answer := log.find? fun a => a.request matches .close _

theorem firstClose_append (h : ∀ name, .close name ∉ asked before) :
    firstClose (before ++ answers) = firstClose answers := by
  have hnone : firstClose before = none := by
    refine List.find?_eq_none.mpr fun a ha hclose => ?_
    cases hr : a.request with
    | close name => exact h name (hr ▸ List.mem_map_of_mem ha)
    | openOutput | writeChunk | abandon => simp [hr] at hclose
  unfold firstClose at hnone ⊢
  rw [List.find?_append, hnone, Option.none_or]

theorem firstClose_abandoned {opened : Bool} {after : List Answer} (h : Abandoned j opened log after) :
    firstClose after = firstClose log := by
  unfold Abandoned at h
  split at h
  · obtain ⟨outcome, rfl⟩ := h
    unfold firstClose
    rw [List.find?_append]
    exact Option.or_none
  · rw [h]

theorem truthful_of_abandoned {f : Replies} {opened : Bool} {after : List Answer} (ht : Truthful f after)
    (h : Abandoned j opened log after) : Truthful f log := by
  unfold Abandoned at h
  split at h
  · obtain ⟨outcome, rfl⟩ := h
    exact ht.of_append
  · rwa [← h]

theorem mem_opening {q : Request} (h : q ∈ opening j data) :
    q = .openOutput j.header ∨ ∃ i g, q = .writeChunk j.name i g := by
  rcases List.mem_cons.mp h with h | h
  · exact .inl h
  · obtain ⟨i, hi, rfl⟩ := List.mem_mapIdx.mp h
    exact .inr ⟨_, _, rfl⟩

/-- An output is open behind the requests that open it and write to it, in any order. -/
theorem isSome_pending_notes (hname : j.header.name = j.name) (hrs : ∀ q ∈ rs, q ∈ opening j data)
    (hopen : .openOutput j.header ∈ rs) : ((writer.notes (s, []) rs).1.pending.get? j.name).isSome = true := by
  induction rs using List.reverseRecOn with
  | nil => cases hopen
  | append_singleton rs q ih =>
    rw [writer.notes_append]
    change ((writer.ask q (writer.notes (s, []) rs).1).1.pending.get? j.name).isSome = true
    rcases mem_opening (hrs q (List.mem_append_right _ (List.mem_singleton_self q))) with rfl | ⟨i, g, rfl⟩
    · have hget := NameMap.get?_insert (writer.notes (s, []) rs).1.pending j.header.name j.name ⟨j.header, []⟩
      rw [if_pos hname.symm] at hget
      exact Option.isSome_iff_exists.mpr ⟨_, hget⟩
    · have hbefore := ih (fun q hq => hrs q (List.mem_append_left _ hq))
        ((List.mem_append.mp hopen).resolve_right fun h => by cases List.mem_singleton.mp h)
      exact isSome_pending_writeChunk hbefore i g

/-- What is not open is not closed by trying. -/
theorem tried_close_of_none (h : Tried (.close name) n outcome answers)
    (ht : Truthful (writer.reply s) (before ++ answers))
    (hnone : (writer.notes (s, []) (asked before)).1.pending.get? name = none) : outcome = .error (notOpen name) := by
  induction h generalizing before with
  | granted =>
    have hreply := ht.outcome
    rw [Writer.reply, ask_close_of_none hnone] at hreply
    cases hreply
  | refused =>
    have hreply := ht.outcome
    rw [Writer.reply, ask_close_of_none hnone] at hreply
    exact hreply
  | @again n e outcome answers h ih =>
    rw [← List.singleton_append, ← List.append_assoc] at ht
    refine ih ht ?_
    rw [asked_append, writer.notes_append]
    exact get?_pending_close ..

/-- The first answer to a close that is tried is a grant, or it decides all others. -/
theorem tried_close (h : Tried (.close name) n outcome answers)
    (ht : Truthful (writer.reply s) (before ++ answers)) :
    answers = [⟨.close name, .ok ()⟩] ∧ outcome = .ok () ∨ ∃ e, firstClose answers = some ⟨.close name, .error e⟩ ∧
      writer.reply s (asked before) (.close name) = .error e ∧
      outcome = .error (if n = 0 then e else notOpen name) := by
  cases h with
  | granted => exact .inl ⟨rfl, rfl⟩
  | refused => exact .inr ⟨_, rfl, ht.outcome.symm, rfl⟩
  | @again n e outcome answers h =>
    have hfirst := ht.outcome
    rw [← List.singleton_append, ← List.append_assoc] at ht
    refine .inr ⟨e, rfl, hfirst.symm, tried_close_of_none h ht ?_⟩
    rw [asked_append, writer.notes_append]
    exact get?_pending_close ..

/-- The first close of an output that is open decides the outcome, if it is refused. -/
theorem closing_of_firstClose (hname : j.header.name = j.name) (hbefore : Granted n (opening j data) before)
    (htried : Tried (.close j.name) n outcome answers) (ht : Truthful (writer.reply s) (before ++ answers))
    {r : Request} (hfirst : firstClose (before ++ answers) = some ⟨r, .error e⟩) :
    outcome = .error (if n = 0 then e else notOpen j.name) ∧ e ≠ notOpen j.name := by
  rw [firstClose_append fun name hmem => close_not_mem_opening (hbefore.mem_asked _ hmem)] at hfirst
  rcases tried_close htried ht with ⟨rfl, -⟩ | ⟨e', hfirst', hreply, houtcome⟩
  · cases hfirst
  cases hfirst'.symm.trans hfirst
  refine ⟨houtcome, refused_ne_notOpen hreply ?_⟩
  have hopen : .openOutput j.header ∈ grants before := by
    rw [hbefore.grants]
    exact List.mem_cons_self
  exact isSome_pending_notes hname hbefore.mem_asked ((grants_sublist before).subset hopen)

/-- A job whose output was not closed at first has failed, and unless it was not closed a second time, for another
    reason than the first. -/
theorem ended_of_firstClose (h : Ended n job j events missing log status)
    (hname : j.header.name = j.name) (ht : Truthful (writer.reply s) log) {r : Request}
    (hfirst : firstClose log = some ⟨r, .error e⟩) :
    status = .ofFailure (.writer (if n = 0 then e else notOpen j.name)) ∧ e ≠ notOpen j.name := by
  have hnever : ∀ {log : List Answer} {data : List (Grid Double)}, (∀ q ∈ asked log, q ∈ opening j data) →
      firstClose log ≠ some ⟨r, .error e⟩ := by
    intro log data hmem heq
    rw [← List.append_nil log, firstClose_append fun name hclose => close_not_mem_opening (hmem _ hclose)] at heq
    cases heq
  cases h with
  | complete hlen hdata hlog =>
    obtain ⟨before, answers, hbefore, htried, rfl⟩ := hlog.of_concat
    cases (closing_of_firstClose hname hbefore htried ht hfirst).1
  | refused hrs hlog hafter =>
    rw [firstClose_abandoned hafter] at hfirst
    obtain ⟨data, -, ⟨-, hsub⟩ | ⟨-, hsub⟩⟩ := hrs
    · exact absurd hfirst (hnever fun q hq => hsub.subset (hlog.mem_asked q hq))
    · obtain ⟨rfl, hclose⟩ := List.append_inj' hsub rfl
      cases hclose
      obtain ⟨before, answers, hbefore, htried, rfl⟩ := hlog
      obtain ⟨houtcome, hne⟩ := closing_of_firstClose hname hbefore htried (truthful_of_abandoned ht hafter) hfirst
      cases houtcome
      exact ⟨rfl, hne⟩
  | stopped hlen hdata hstop hlog hafter =>
    rw [firstClose_abandoned hafter] at hfirst
    exact absurd hfirst (hnever fun q hq => (begun_le j _ _).subset (hlog.mem_asked q hq))

/-- A request that is refused leaves all as it was and fares the same when it is made again, failures that are injected
    apart, unless it is to close an open output: that is lost, and refused for another reason from then on. So where
    an output is not closed in a run of the coordinator, the reason that is reported is the first only if it is not
    tried again. -/
theorem refused_again (m : Memory) :
    (∀ (r : Request) (e : WriterError), (writer.ask r m).2 = .error e → Refusal m r e) ∧
    ∀ (jobs : List Job) (retries : Nat) (report : Report) (events : List WorkEvent),
      Separate jobs report → InRange jobs events →
      let k := ran ⟨writer, jobs, retries⟩ m report events
      ∀ (job : Nat) (j : Job) (r : Request) (e : WriterError), jobs[job]? = some j →
        firstClose (k.calls j.name) = some ⟨r, .error e⟩ → e ≠ notOpen j.name ∧
          k.report.get? j.name = some (.ofFailure (.writer (if retries = 0 then e else notOpen j.name))) := by
  refine ⟨fun r e h => refusal h, fun jobs retries report events hsep hrange => ?_⟩
  intro k job j r e hj hfirst
  obtain ⟨status, hstatus, hended⟩ := ran_ended (c := ⟨writer, jobs, retries⟩) (s := m) hsep hrange hj
  have htruthful : Truthful (writer.reply m) ((ran ⟨writer, jobs, retries⟩ m report events).calls j.name) :=
    ran_truthful (c := ⟨writer, jobs, retries⟩) (views.separates m) hsep.headers events j.name
  obtain ⟨hfailed, hne⟩ := ended_of_firstClose hended (hsep.headers j (List.mem_of_getElem? hj)) htruthful hfirst
  exact ⟨hne, hstatus.trans (congrArg some hfailed)⟩

/-- An output of two chunks without an axis to join them. -/
def unjoined : Memory :=
  (writer.notes (empty, []) [.openOutput ⟨"v", [⟨"time", none⟩], "K", .empty, none⟩, .writeChunk "v" 0 (.scalar 1),
    .writeChunk "v" 1 (.scalar 2)]).1

/-- It is not closed, and not open then. Neither are two chunks that lack the axis, which is not what the coordinator
    reports if it tries again. -/
theorem refused_again_unjoined :
    let k := fun retries => ran ⟨writer, [twoChunks], retries⟩ empty .empty
      [.chunk 0 0 (.scalar 1), .chunk 0 1 (.scalar 2)]
    (writer.ask (.close "v") unjoined).1.pending = unjoined.pending.erase "v" ∧
      (persist (writer.ask (.close "v")) 3 unjoined).2 = .error ⟨"v", "variable is not open"⟩ ∧
      (k 0).report.get? "tas" =
        some (.ofFailure (.writer ⟨"tas", "ShapeError/OutOfBounds: out of bounds indexing"⟩)) ∧
      (k 3).report.get? "tas" = some (.ofFailure (.writer ⟨"tas", "variable is not open"⟩)) := by
  intro k
  have hopen : unjoined.closes (.close "v") = true := rfl
  have hrefusal := (refused_again unjoined).1 (.close "v")
    ⟨"v", toString 2 ++ " chunks without a chunk dimension"⟩ rfl
  have hsep : Separate [twoChunks] .empty := ⟨by decide, by decide, fun _ _ => rfl⟩
  have hrange : InRange [twoChunks] [.chunk 0 0 (.scalar 1), .chunk 0 1 (.scalar 2)] := by
    intro job index data hmem j hj
    obtain rfl : j = twoChunks := List.mem_singleton.mp (List.mem_of_getElem? hj)
    show index < 2
    simp only [List.mem_cons, WorkEvent.chunk.injEq, List.not_mem_nil, or_false] at hmem
    omega
  have hrun := fun retries => (refused_again empty).2 [twoChunks] retries .empty _ hsep hrange 0 twoChunks
    (.close "tas") ⟨"tas", "ShapeError/OutOfBounds: out of bounds indexing"⟩ rfl
  exact ⟨hrefusal.pending.trans (if_pos hopen), (hrefusal.outcome 3).trans (if_pos ⟨hopen, by decide⟩),
    (hrun 0 rfl).2, (hrun 3 rfl).2⟩

end

end Concord.Memory
