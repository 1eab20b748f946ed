import Mathlib
import Concord.Proofs.Grid.Joining
import Concord.Proofs.Output.Retried

/-! What the memory puts together. In any run, an output that was cut along an axis, and whose pieces are written one
    after the other, is that output again; and what is finished was put together from the chunks that were granted
    since it was last opened. -/

namespace Concord

variable {name : String} {r : Request}

/-- The requests that open an output and write chunks to it. -/
def Header.opening (h : Header) (chunks : List (Grid Double)) : List Request :=
  .openOutput h :: chunks.mapIdx (.writeChunk h.name)

/-- The requests for a complete output. -/
def Header.session (h : Header) (chunks : List (Grid Double)) : List Request := h.opening chunks ++ [.close h.name]

/-- The axis along which chunks are joined. -/
def Header.axis (h : Header) : Option Nat := h.chunkDimension.bind (Signature.position h.dims)

theorem Header.opening_concat (h : Header) (chunks : List (Grid Double)) (g : Grid Double) :
    h.opening (chunks ++ [g]) = h.opening chunks ++ [.writeChunk h.name chunks.length g] := by
  simp [opening]

theorem Header.opening_mono (h : Header) (chunks more : List (Grid Double)) :
    h.opening chunks <+: h.opening (chunks ++ more) :=
  ⟨more.mapIdx fun i => .writeChunk h.name (i + chunks.length), by simp [opening, List.mapIdx_append]⟩

/-- An output was put together from these chunks: it is the only one, or they are its pieces. -/
def WrittenVariable.Holds (v : WrittenVariable) (chunks : List (Grid Double)) : Prop :=
  v.chunks = chunks.length ∧
    match v.header.axis with
    | none => chunks = [v.data]
    | some axis => (chunks.map fun p => p.length axis).sum = v.data.length axis ∧
      v.data.pieces axis 0 (chunks.map fun p => p.length axis) = chunks

/-- A writing was refused for an injected failure. -/
def Answer.isInjected : Answer → Bool
  | ⟨.writeChunk .., .error e⟩ => e.message = "injected write failure"
  | _ => false

theorem Answer.isInjected_eq_false (r : Request) {e : WriterError} (h : e.message ≠ "injected write failure") :
    (⟨r, .error e⟩ : Answer).isInjected = false := by
  cases r with
  | writeChunk => exact decide_eq_false h
  | openOutput | close | abandon => rfl

/-- The answers but for injected failures. -/
def heeded (log : List Answer) : List Answer := log.filter fun a => !a.isInjected

namespace Memory

variable {m t : Memory} {log : List Answer}

/-- What may happen to a memory. -/
inductive Event where
  | request (r : Request)
  | failWrites (name : String) (times : Nat)
  | markExisting (name : String)

/-- What an event makes of a memory and the log of its calls. -/
def step (s : Memory × List Answer) : Event → Memory × List Answer
  | .request r => (writer.note r s).1
  | .failWrites name times => (s.1.failWrites name times, s.2)
  | .markExisting name => (s.1.markExisting name, s.2)

/-- A run over events. -/
def run (m : Memory) (events : List Event) : Memory × List Answer := events.foldl step (m, [])

/-- What holds of an output and the answers about it at first, and is kept by the requests about it, holds in all runs:
    nothing else changes either. -/
theorem run_induction {P : List Answer → Memory → Prop} (hstart : P [] m)
    (hsame : ∀ log m t, t.pending.get? name = m.pending.get? name → t.finished.get? name = m.finished.get? name →
      P log m → P log t)
    (hask : ∀ log m r, r.name = name → P log m → P (log ++ [⟨r, (writer.ask r m).2⟩]) (writer.ask r m).1)
    (events : List Event) : P (answersFor name (run m events).2) (run m events).1 := by
  induction events using List.reverseRecOn with
  | nil => exact hstart
  | append_singleton events event ih =>
    unfold run at ih ⊢
    rw [List.foldl_append, List.foldl_cons, List.foldl_nil]
    generalize events.foldl step (m, []) = s at ih
    cases event with
    | request r =>
      have hlog : answersFor name (step s (.request r)).2 =
        answersFor name s.2 ++ answersFor name [⟨r, (writer.ask r s.1).2⟩] := answersFor_append ..
      rw [hlog]
      by_cases hr : r.name = name
      · have hone : answersFor name [⟨r, (writer.ask r s.1).2⟩] = [⟨r, (writer.ask r s.1).2⟩] := by
          simp [answersFor, hr]
        rw [hone]
        exact hask _ _ r hr ih
      · have hnone : answersFor name [⟨r, (writer.ask r s.1).2⟩] = [] := by simp [answersFor, hr]
        rw [hnone, List.append_nil]
        obtain ⟨hpending, hfinished⟩ := ask_other (Ne.symm hr) s.1
        exact hsame _ _ _ hpending hfinished ih
    | failWrites n times => exact hsame _ s.1 _ rfl rfl ih
    | markExisting n => exact hsame _ s.1 _ rfl rfl ih

/-! ### What is finished -/

/-- Chunks are assembled to the only one there is, or joined along the axis. -/
theorem assemble_eq_ok {p : PendingVariable} {data : Grid Double} : assemble p = .ok data ↔
    match p.header.axis with
    | none => p.chunks = [data]
    | some axis => Grid.concat axis p.chunks = .ok data := by
  obtain ⟨header, chunks⟩ := p
  unfold assemble Header.axis
  dsimp only
  generalize header.chunkDimension.bind (Signature.position header.dims) = a
  have hmap : ∀ x : Except Grid.ShapeFault (Grid Double),
      x.mapError Grid.ShapeFault.message = .ok data ↔ x = .ok data := by
    rintro (fault | g) <;> simp [Except.mapError]
  cases a with
  | none => rcases chunks with _ | ⟨g, _ | ⟨g', rest⟩⟩ <;> simp
  | some axis =>
    rcases chunks with _ | ⟨g, _ | ⟨g', rest⟩⟩
    · simp [Grid.concat]
    · exact hmap _
    · exact hmap _

/-- What chunks are assembled to holds them. -/
theorem holds_of_assemble {p : PendingVariable} {data : Grid Double} (h : assemble p = .ok data) :
    (⟨p.header, data, p.chunks.length⟩ : WrittenVariable).Holds p.chunks := by
  refine ⟨rfl, ?_⟩
  have hdata := assemble_eq_ok.mp h
  dsimp only
  split
  · rename_i haxis
    rwa [haxis] at hdata
  · rename_i axis haxis
    rw [haxis] at hdata
    exact (Grid.pieces_of_concat hdata).2.2

/-- What the requests that were granted for an output tell of it: as long as it is open, they end with those that
    opened it and wrote its chunks; when it is finished, the last close comes behind such. -/
structure Told (name : String) (granted : List Request) (m : Memory) : Prop where
  pending : ∀ p, m.pending.get? name = some p → p.header.name = name ∧ p.header.opening p.chunks <:+ granted
  finished : ∀ v, m.finished.get? name = some v → v.header.name = name ∧ ∃ before chunks after,
    granted = before ++ v.header.session chunks ++ after ∧ .close name ∉ after ∧ v.Holds chunks

/-- Something else was granted. -/
theorem Told.finished_concat {granted : List Request} (h : Told name granted m)
    (hr : r ≠ .close name) {v : WrittenVariable} (hv : m.finished.get? name = some v) :
    v.header.name = name ∧ ∃ before chunks after, granted ++ [r] = before ++ v.header.session chunks ++ after ∧
      .close name ∉ after ∧ v.Holds chunks := by
  obtain ⟨hname, before, chunks, after, rfl, hafter, hholds⟩ := h.finished v hv
  refine ⟨hname, before, chunks, after ++ [r], List.append_assoc .., fun hmem => ?_, hholds⟩
  rcases List.mem_append.mp hmem with hmem | hmem
  · exact hafter hmem
  · exact hr (List.mem_singleton.mp hmem).symm

/-- A request about an output keeps what is told of it. -/
theorem Told.ask (h : Told name (grants log) m) (hr : r.name = name) :
    Told name (grants (log ++ [⟨r, (writer.ask r m).2⟩])) (writer.ask r m).1 := by
  have heff := ask_effect r m
  generalize writer.ask r m = a at heff
  obtain ⟨t, outcome⟩ := a
  rw [grants_append]
  -- An output that is closed or given up is not open.
  have herased : ∀ {granted : List Request} (p : PendingVariable), (m.pending.erase name).get? name = some p →
      p.header.name = name ∧ p.header.opening p.chunks <:+ granted := by
    intro granted p hp
    rw [NameMap.get?_erase, if_pos rfl] at hp
    cases hp
  cases heff with
  | injected | unwritten | misplaced | unclosed =>
    rw [grants_error, grants_nil, List.append_nil]
    exact ⟨h.pending, h.finished⟩
  | unassembled hp ha =>
    rw [grants_error, grants_nil, List.append_nil]
    subst hr
    exact ⟨herased, h.finished⟩
  | opened header =>
    rw [grants_ok]
    subst hr
    refine ⟨fun p hp => ?_, fun v hv => h.finished_concat (fun h => by cases h) hv⟩
    cases Option.some.inj (hp.symm.trans ((NameMap.get?_insert ..).trans (if_pos rfl)))
    exact ⟨rfl, List.suffix_append ..⟩
  | @wrote n data p hleft hp =>
    rw [grants_ok]
    subst hr
    refine ⟨fun q hq => ?_, fun v hv => h.finished_concat (fun h => by cases h) hv⟩
    cases Option.some.inj (hq.symm.trans ((NameMap.get?_insert ..).trans (if_pos rfl)))
    obtain ⟨hname, before, hgranted⟩ := h.pending p hp
    refine ⟨hname, before, ?_⟩
    rw [Header.opening_concat, hname, ← List.append_assoc, hgranted]
    rfl
  | @closed n p data hp ha =>
    rw [grants_ok]
    subst hr
    refine ⟨herased, fun v hv => ?_⟩
    cases Option.some.inj (hv.symm.trans ((NameMap.get?_insert ..).trans (if_pos rfl)))
    obtain ⟨hname, before, hgranted⟩ := h.pending p hp
    refine ⟨hname, before, p.chunks, [], ?_, List.not_mem_nil, holds_of_assemble ha⟩
    rw [List.append_nil, Header.session, hname, ← List.append_assoc, hgranted]
    rfl
  | abandoned =>
    rw [grants_ok]
    subst hr
    exact ⟨herased, fun v hv => h.finished_concat (fun h => by cases h) hv⟩

/-! ### An output that was cut -/

/-- How far an output is whose chunks are written one after the other, where the last close makes it `v`. -/
inductive Underway (h : Header) (chunks : List (Grid Double)) (v : WrittenVariable) : List Request → Memory → Prop
  | unopened (m : Memory) : Underway h chunks v [] m
  | opened {done todo : List (Grid Double)} {m : Memory} (hchunks : chunks = done ++ todo)
      (hp : m.pending.get? h.name = some ⟨h, done⟩) : Underway h chunks v (h.opening done) m
  | finished {m : Memory} (hv : m.finished.get? h.name = some v) : Underway h chunks v (h.session chunks) m

theorem Underway.of_same {h : Header} {chunks : List (Grid Double)} {v : WrittenVariable} {rs : List Request}
    (hu : Underway h chunks v rs m) (hpending : t.pending.get? h.name = m.pending.get? h.name)
    (hfinished : t.finished.get? h.name = m.finished.get? h.name) : Underway h chunks v rs t := by
  cases hu with
  | unopened => exact .unopened t
  | opened hchunks hp => exact .opened hchunks (hpending.trans hp)
  | finished hv => exact .finished (hfinished.trans hv)

/-- Behind the last request the output is finished. -/
theorem Underway.get?_finished {h : Header} {chunks : List (Grid Double)} {v : WrittenVariable} {rs : List Request}
    (hu : Underway h chunks v rs m) (hrs : rs = h.session chunks) : m.finished.get? h.name = some v := by
  have hclose : .close h.name ∈ rs := hrs ▸ List.mem_append_right _ (List.mem_singleton_self _)
  cases hu with
  | unopened => cases hclose
  | opened =>
    rcases List.mem_cons.mp hclose with heq | hmem
    · cases heq
    · obtain ⟨i, hi, heq⟩ := List.mem_mapIdx.mp hmem
      cases heq
  | finished hv => exact hv

/-- The next request is granted. -/
theorem Underway.ask {h : Header} {chunks : List (Grid Double)} {data : Grid Double} {rs : List Request}
    (hu : Underway h chunks ⟨h, data, chunks.length⟩ rs m) (hnext : rs ++ [r] <+: h.session chunks)
    (hcalm : m.injected r = 0) (hdata : assemble ⟨h, chunks⟩ = .ok data) :
    (writer.ask r m).2 = .ok () ∧ Underway h chunks ⟨h, data, chunks.length⟩ (rs ++ [r]) (writer.ask r m).1 := by
  cases hu with
  | unopened =>
    obtain ⟨rest, hrest⟩ := hnext
    cases (List.cons.inj hrest).1
    exact ⟨rfl, .opened (List.nil_append chunks).symm ((NameMap.get?_insert ..).trans (if_pos rfl))⟩
  | @opened done todo _ hchunks hp =>
    subst hchunks
    rcases todo with _ | ⟨g, todo⟩
    · -- All chunks are written.
      rw [List.append_nil] at hnext hdata ⊢
      obtain ⟨rest, hrest⟩ := hnext
      rw [List.append_assoc, Header.session, List.append_cancel_left_eq] at hrest
      cases (List.cons.inj hrest).1
      rw [ask_close hp hdata]
      exact ⟨rfl, .finished ((NameMap.get?_insert ..).trans (if_pos rfl))⟩
    · have hwrite : h.opening done ++ [r] = h.opening done ++ [.writeChunk h.name done.length g] := by
        have hsub := h.opening_mono (done ++ [g]) todo
        rw [Header.opening_concat, List.append_assoc, List.singleton_append] at hsub
        have hboth := List.prefix_of_prefix_length_le hnext (hsub.trans (List.prefix_append ..)) (by simp)
        exact hboth.eq_of_length (by simp)
      cases (List.append_cancel_left hwrite)
      rw [ask_next (p := ⟨h, done⟩) hcalm hp, ← Header.opening_concat]
      have hchunks : done ++ [g] ++ todo = done ++ g :: todo := by simp
      exact ⟨rfl, .opened hchunks.symm ((NameMap.get?_insert ..).trans (if_pos rfl))⟩
  | finished hv =>
    have hlen := hnext.length_le
    rw [List.length_append, List.length_singleton] at hlen
    omega

/-- A request is refused for an injected failure if there is one left. -/
theorem isInjected_iff (r : Request) (m : Memory) :
    (⟨r, (writer.ask r m).2⟩ : Answer).isInjected = true ↔ 0 < m.injected r := by
  have heff := ask_effect r m
  generalize writer.ask r m = a at heff
  obtain ⟨t, outcome⟩ := a
  cases heff with
  | injected hleft => exact ⟨fun _ => hleft, fun _ => by simp [Answer.isInjected]⟩
  | unwritten hleft => simp [Answer.isInjected, notOpen, injected, hleft]
  | misplaced hleft => simp [Answer.isInjected, misplaced_ne_injected, injected, hleft]
  | opened | wrote | unclosed | unassembled | closed | abandoned => simp_all [Answer.isInjected, injected]

theorem ask_of_injected (h : 0 < m.injected r) :
    (writer.ask r m).1.pending = m.pending ∧ (writer.ask r m).1.finished = m.finished := by
  cases r with
  | writeChunk name index data =>
    rw [ask_injected h]
    exact ⟨rfl, rfl⟩
  | openOutput | close | abandon => exact absurd h (Nat.lt_irrefl 0)

/-- The log of an output tells that it is under way, unless something else is asked of it. -/
theorem run_underway {h : Header} {chunks : List (Grid Double)} {data : Grid Double}
    (hdata : assemble ⟨h, chunks⟩ = .ok data) (m : Memory) (events : List Event) :
    let log := heeded (answersFor h.name (run m events).2)
    asked log <+: h.session chunks → (∀ a ∈ log, a.outcome = .ok ()) ∧
      Underway h chunks ⟨h, data, chunks.length⟩ (asked log) (run m events).1 := by
  refine run_induction (P := fun log t => asked (heeded log) <+: h.session chunks →
    (∀ a ∈ heeded log, a.outcome = .ok ()) ∧
      Underway h chunks ⟨h, data, chunks.length⟩ (asked (heeded log)) t) ?_ ?_ ?_ events
  · exact fun _ => ⟨fun _ ha => absurd ha List.not_mem_nil, .unopened m⟩
  · exact fun log m t hpending hfinished ih hsub => (ih hsub).imp_right (·.of_same hpending hfinished)
  · intro log m r hr ih hsub
    rcases Nat.eq_zero_or_pos (m.injected r) with hcalm | hleft
    · have hnot : (⟨r, (writer.ask r m).2⟩ : Answer).isInjected = false :=
        Bool.eq_false_iff.mpr fun h => absurd hcalm (Nat.ne_of_gt ((isInjected_iff r m).mp h))
      have hheeded : heeded (log ++ [⟨r, (writer.ask r m).2⟩]) = heeded log ++ [⟨r, (writer.ask r m).2⟩] := by
        simp [heeded, hnot]
      rw [hheeded, asked_append] at hsub ⊢
      obtain ⟨hall, hunder⟩ := ih ((List.prefix_append ..).trans hsub)
      obtain ⟨hok, hafter⟩ := hunder.ask hsub hcalm hdata
      refine ⟨fun a ha => ?_, hafter⟩
      rcases List.mem_append.mp ha with ha | ha
      · exact hall a ha
      · rw [List.mem_singleton.mp ha]
        exact hok
    · have hheeded : heeded (log ++ [⟨r, (writer.ask r m).2⟩]) = heeded log := by
        simp [heeded, (isInjected_iff r m).mpr hleft]
      rw [hheeded] at hsub ⊢
      obtain ⟨hall, hunder⟩ := ih hsub
      obtain ⟨hpending, hfinished⟩ := ask_of_injected hleft
      exact ⟨hall, hunder.of_same (by rw [hpending]) (by rw [hfinished])⟩

/-- A header names its axis among its dimensions. -/
theorem axis_lt {h : Header} {axis : Nat} (haxis : h.axis = some axis) : axis < h.dims.length := by
  obtain ⟨d, -, hd⟩ := Option.bind_eq_some_iff.mp haxis
  exact (List.findIdx?_eq_some_iff_findIdx_eq.mp hd).1

/-- The memory puts together what was cut. In any run in which an output is opened, its pieces along the axis are
    written in turn, each again after an injected failure, and it is closed, all this is granted, and the output is
    finished as it was before it was cut; a writing that is made again as often as failures are left does get through.
    And in any run, what is finished holds the chunks that were granted, each in its turn, between the last close and
    the request that had opened the output before. -/
theorem run_assembles :
    (∀ (m : Memory) (events : List Event) (h : Header) (axis : Nat) (g : Grid Double) (ns : List Nat),
      h.axis = some axis → g.axes = h.dims.length → Grid.fits g.shape = true → ns ≠ [] → ns.sum = g.length axis →
      let log := heeded (answersFor h.name (run m events).2)
      asked log = h.session (g.pieces axis 0 ns) →
        (∀ a ∈ log, a.outcome = .ok ()) ∧ (run m events).1.finished.get? h.name = some ⟨h, g, ns.length⟩) ∧
    (∀ (m : Memory) (name : String) (index n : Nat) (data : Grid Double), m.left name ≤ n →
      let r := Request.writeChunk name index data
      (⟨r, (persist (writer.ask r) n m).2⟩ : Answer).isInjected = false) ∧
    ∀ (events : List Event) (name : String) (v : WrittenVariable),
      (run empty events).1.finished.get? name = some v → v.header.name = name ∧ ∃ before chunks after,
        grants (answersFor name (run empty events).2) = before ++ v.header.session chunks ++ after ∧
          .close name ∉ after ∧ v.Holds chunks := by
  refine ⟨?_, ?_, ?_⟩
  · intro m events h axis g ns haxis hrank hfits hne hsum log hlog
    have hlt : axis < g.axes := hrank ▸ axis_lt haxis
    have hdata : assemble ⟨h, g.pieces axis 0 ns⟩ = .ok g := by
      rw [assemble_eq_ok, haxis]
      exact Grid.concat_pieces hlt hne hsum hfits
    have hlen : (g.pieces axis 0 ns).length = ns.length := by
      simpa using congrArg List.length (Grid.lengths_pieces hlt ns 0)
    obtain ⟨hall, hunder⟩ := run_underway hdata m events (hlog ▸ List.prefix_rfl)
    exact ⟨hall, hlen ▸ hunder.get?_finished hlog⟩
  · intro m name index n data hleft r
    rw [persist_writeChunk, if_neg (Nat.not_lt.mpr hleft), plainly_writeChunk]
    split
    · exact Answer.isInjected_eq_false r (show "variable is not open" ≠ _ by decide)
    · split
      · rfl
      · exact Answer.isInjected_eq_false r (misplaced_ne_injected _ _ _)
  · intro events name v hv
    have htold : Told name (grants (answersFor name (run empty events).2)) (run empty events).1 := by
      refine run_induction (P := fun log m => Told name (grants log) m) ?_ ?_ ?_ events
      · exact ⟨fun p hp => (by cases hp), fun v hv => (by cases hv)⟩
      · exact fun log m t hpending hfinished h => ⟨fun p hp => h.pending p (hpending ▸ hp),
          fun v hv => h.finished v (hfinished ▸ hv)⟩
      · exact fun log m r hr h => h.ask hr
    exact htold.finished v hv

/-- Three values along the time axis. -/
def threeSteps : Grid Double := ⟨[3], #[1, 2, 3], rfl⟩

/-- Cut into two of them, none and the last, and written between calls for another output, the first piece again after
    it has failed, they are put together. -/
theorem run_assembles_pieces :
    let header := fun name : String => (⟨name, [⟨"time", none⟩], "K", .empty, some "time"⟩ : Header)
    let write := fun index start n => Event.request (.writeChunk "v" index (threeSteps.slice 0 start n))
    let events : List Event := [.failWrites "v" 1, .request (.openOutput (header "v")), write 0 0 2,
      .request (.openOutput (header "w")), write 0 0 2, .markExisting "v", write 1 2 0, .request (.close "w"),
      write 2 2 1, .request (.close "v"), .request (.abandon "w")]
    (∀ a ∈ heeded (answersFor "v" (run empty events).2), a.outcome = .ok ()) ∧
      (run empty events).1.finished.get? "v" = some ⟨header "v", threeSteps, 3⟩ ∧ ∃ before chunks after,
        grants (answersFor "v" (run empty events).2) = before ++ (header "v").session chunks ++ after ∧
          .close "v" ∉ after ∧ (⟨header "v", threeSteps, 3⟩ : WrittenVariable).Holds chunks := by
  intro header write events
  have hlog : asked (heeded (answersFor "v" (run empty events).2)) =
    (header "v").session (threeSteps.pieces 0 0 [2, 0, 1]) := by cbv
  obtain ⟨hall, hfinished⟩ := run_assembles.1 empty events (header "v") 0 threeSteps [2, 0, 1] rfl rfl (by decide)
    (by decide) (by decide) hlog
  exact ⟨hall, hfinished, (run_assembles.2.2 events "v" _ hfinished).2⟩

end Memory
end Concord
