import Concord.Proofs.Output.Files
import Concord.Proofs.Schedule.WriterLog

/-! Handles that hold bytes back. What has been written through a handle and what it holds back are the records that
    were appended, in their order; behind what has been written stands the rest of what else was put into the file. -/

namespace Concord.JsonLines

variable {fs fs' : FileSystem} {h : Handle} {text rest record : List UInt8} {n : Nat}

/-- What was appended through a handle is `text`, a part of which it may hold back, and `rest` was put into the file
    by another one before. -/
structure Draft (fs : FileSystem) (h : Handle) (text rest : List UInt8) : Prop where
  inside : h.number < fs.contents.length
  split : ∃ flushed, text = flushed ++ h.buffer ∧ h.offset = flushed.length ∧
    fs.bytes h.number = flushed ++ rest.drop flushed.length

theorem Draft.of_bytes (hd : Draft fs h text rest) (hsize : fs.contents.length ≤ fs'.contents.length)
    (hbytes : fs'.bytes h.number = fs.bytes h.number) : Draft fs' h text rest where
  inside := Nat.lt_of_lt_of_le hd.inside hsize
  split := hbytes.symm ▸ hd.split

/-- When nothing is held back, the file holds what was appended. -/
theorem Draft.bytes (hd : Draft fs h text rest) (hempty : h.buffer = []) :
    fs.bytes h.number = text ++ rest.drop text.length := by
  obtain ⟨flushed, rfl, -, hbytes⟩ := hd.split
  rw [hbytes, hempty, List.append_nil]

/-- Writing in its place what comes next. -/
theorem bytes_write_next (hin : n < fs.contents.length) {flushed : List UInt8}
    (hbytes : fs.bytes n = flushed ++ rest.drop flushed.length) (data : List UInt8) :
    (fs.write n flushed.length data).bytes n = (flushed ++ data) ++ rest.drop (flushed ++ data).length := by
  have hgap : flushed.length - (flushed ++ rest.drop flushed.length).length = 0 := by
    rw [List.length_append]
    omega
  rw [FileSystem.bytes_write hin, hbytes, hgap, List.take_left, List.drop_length_add_append, List.drop_drop,
    List.replicate_zero, List.append_nil, List.length_append]

theorem number_flushHandle (fs : FileSystem) (h : Handle) : (flushHandle fs h).2.number = h.number := by
  unfold flushHandle
  split <;> rfl

theorem buffer_flushHandle (fs : FileSystem) (h : Handle) : (flushHandle fs h).2.buffer = [] := by
  unfold flushHandle
  split
  · rename_i hempty
    exact List.isEmpty_iff.mp hempty
  · rfl

theorem flushHandle_written (fs : FileSystem) (h : Handle) : fs.Written h.number (flushHandle fs h).1 := by
  unfold flushHandle
  split
  · exact .refl fs _
  · exact FileSystem.written ..

theorem Draft.flush (hd : Draft fs h text rest) : Draft (flushHandle fs h).1 (flushHandle fs h).2 text rest := by
  unfold flushHandle
  split
  · exact hd
  · obtain ⟨flushed, htext, hoffset, hbytes⟩ := hd.split
    refine ⟨(FileSystem.written fs h.number h.offset h.buffer).size.symm ▸ hd.inside, flushed ++ h.buffer, ?_, ?_, ?_⟩
    · rw [List.append_nil, htext]
    · rw [List.length_append, hoffset]
    · rw [hoffset]
      exact bytes_write_next hd.inside hbytes h.buffer

/-- A record is held back behind others. -/
theorem Draft.hold (hd : Draft fs h text rest) (record : List UInt8) :
    Draft fs { h with buffer := h.buffer ++ record } (text ++ record) rest := by
  obtain ⟨flushed, htext, hoffset, hbytes⟩ := hd.split
  exact ⟨hd.inside, flushed, by rw [htext, List.append_assoc], hoffset, hbytes⟩

/-- A record is written at once if nothing is held back. -/
theorem Draft.put (hd : Draft fs h text rest) (hempty : h.buffer = []) (record : List UInt8) :
    Draft (fs.write h.number h.offset record) { h with offset := h.offset + record.length } (text ++ record) rest := by
  obtain ⟨flushed, htext, hoffset, hbytes⟩ := hd.split
  rw [hempty, List.append_nil] at htext
  subst htext
  refine ⟨(FileSystem.written fs h.number h.offset record).size.symm ▸ hd.inside, text ++ record, ?_, ?_, ?_⟩
  · rw [hempty, List.append_nil]
  · rw [List.length_append, hoffset]
  · rw [hoffset]
    exact bytes_write_next hd.inside hbytes record

/-- A record is held back, or written at once if nothing is held back, if need be after what was held back. -/
theorem append_cases (fs : FileSystem) (h : Handle) (record : List UInt8) : ∃ fs' h',
    ((fs', h') = (fs, h) ∨ (fs', h') = flushHandle fs h) ∧
      (append fs h record = (fs', { h' with buffer := h'.buffer ++ record }) ∨
        h'.buffer = [] ∧
          append fs h record =
            (fs'.write h'.number h'.offset record, { h' with offset := h'.offset + record.length })) := by
  unfold append
  dsimp only
  split
  · exact ⟨fs, h, .inl rfl, .inl rfl⟩
  rename_i hlarge
  by_cases hflush : capacity - h.buffer.length < record.length
  · rw [if_pos hflush]
    have hempty := buffer_flushHandle fs h
    generalize flushHandle fs h = a at hempty
    refine ⟨a.1, a.2, .inr rfl, ?_⟩
    split
    · exact .inr ⟨hempty, rfl⟩
    · exact .inl rfl
  · rw [if_neg hflush]
    refine ⟨fs, h, .inl rfl, ?_⟩
    dsimp only
    split
    · rename_i hrecord
      have hpos : 0 < capacity := by decide
      exact .inr ⟨List.eq_nil_of_length_eq_zero (by omega), rfl⟩
    · exact .inl rfl

theorem Draft.append (hd : Draft fs h text rest) (record : List UInt8) :
    Draft (append fs h record).1 (append fs h record).2 (text ++ record) rest := by
  obtain ⟨fs', h', hfirst, hthen⟩ := append_cases fs h record
  have hd' : Draft fs' h' text rest := by
    rcases hfirst with hsame | hflushed
    · cases hsame
      exact hd
    · have hflush := hd.flush
      rwa [← hflushed] at hflush
  rcases hthen with heq | ⟨hempty, heq⟩ <;> rw [heq]
  · exact hd'.hold record
  · exact hd'.put hempty record

theorem append_written (fs : FileSystem) (h : Handle) (record : List UInt8) :
    fs.Written h.number (append fs h record).1 ∧ (append fs h record).2.number = h.number := by
  obtain ⟨fs', h', hfirst, hthen⟩ := append_cases fs h record
  have hw : fs.Written h.number fs' ∧ h'.number = h.number := by
    rcases hfirst with hsame | hflushed
    · cases hsame
      exact ⟨.refl fs _, rfl⟩
    · have hwritten := flushHandle_written fs h
      have hnumber := number_flushHandle fs h
      rw [← hflushed] at hwritten hnumber
      exact ⟨hwritten, hnumber⟩
  rcases hthen with heq | ⟨-, heq⟩ <;> rw [heq]
  · exact hw
  · exact ⟨hw.1.trans (hw.2 ▸ FileSystem.written ..), hw.2⟩

end Concord.JsonLines

/-! Outputs with files of their own. What a request about an output may do is told by cases, as long as no operation on
    files fails; it changes nothing but the files of that output and what its handle points at, so outputs whose files
    lie apart do not disturb each other. -/

namespace Concord

/-- No operation on files failed when a request was answered. -/
def Answer.IsFine (a : Answer) : Prop :=
  ∀ path e, a.outcome ≠ .error (JsonLines.fileError a.request.name path e)

namespace JsonLines

variable {s t : JsonLines} {r : Request} {name key : String} {outcome : Except WriterError Unit} {files : FileSystem}
  {handle : Option Handle} {h h' : Handle} {n : Nat} {p : Path}

/-! ### Ways to answer -/

/-- The files after an output that may be open lets go of its old handle. -/
def letGo (files : FileSystem) : Option Handle → FileSystem
  | some old => (flushHandle files old).1
  | none => files

/-- A request, the files behind it, the handle of its output, and the answer. -/
inductive Effect (s : JsonLines) : Request → FileSystem → Option Handle → Except WriterError Unit → Prop
  | opened {h : Header} {files : FileSystem} {n : Nat}
      (hcreate : s.files.create (partialPath s.directory h.name) = .ok (files, n)) :
      Effect s (.openOutput h) (append (letGo files (s.handles.get? h.name)) ⟨n, 0, []⟩ (line (headerJson h))).1
        (some (append (letGo files (s.handles.get? h.name)) ⟨n, 0, []⟩ (line (headerJson h))).2) (.ok ())
  | wrote {name : String} {index : Nat} {data : Grid Double} {h : Handle} (hh : s.handles.get? name = some h) :
      Effect s (.writeChunk name index data) (append s.files h (line (chunkJson index data))).1
        (some (append s.files h (line (chunkJson index data))).2) (.ok ())
  | closed {name : String} {h : Handle} {files : FileSystem} (hh : s.handles.get? name = some h)
      (hrename : (flushHandle s.files h).1.rename (partialPath s.directory name) (finalPath s.directory name) =
        .ok files) : Effect s (.close name) files none (.ok ())
  | abandoned {name : String} {h : Handle} (hh : s.handles.get? name = some h) :
      Effect s (.abandon name) (flushHandle s.files h).1 none (.ok ())
  | ignored {name : String} (hh : s.handles.get? name = none) : Effect s (.abandon name) s.files none (.ok ())
  | refused {r : Request} {e : WriterError} (hh : s.handles.get? r.name = none) : Effect s r s.files none (.error e)

/-- A request in one of these ways, which leaves the handles of other outputs as they are. -/
structure Step (s : JsonLines) (r : Request) (t : JsonLines) (outcome : Except WriterError Unit) : Prop where
  directory : t.directory = s.directory
  others : ∀ key ≠ r.name, t.handles.get? key = s.handles.get? key
  effect : Effect s r t.files (t.handles.get? r.name) outcome

theorem appendRecord_none (hh : s.handles.get? name = none) (v : Json) :
    appendRecord name v s = (s, .error ⟨name, "variable is not open"⟩) := by
  unfold appendRecord
  rw [hh]

theorem appendRecord_some (hh : s.handles.get? name = some h) (v : Json) : appendRecord name v s =
    ({ s with files := (append s.files h (line v)).1
              handles := s.handles.insert name (append s.files h (line v)).2 }, .ok ()) := by
  unfold appendRecord
  rw [hh]

theorem Step.of_get? (hdirectory : t.directory = s.directory)
    (hget : ∀ key, t.handles.get? key = if key = r.name then handle else s.handles.get? key)
    (heff : Effect s r t.files handle outcome) : Step s r t outcome where
  directory := hdirectory
  others key hkey := (hget key).trans (if_neg hkey)
  effect := by
    rw [hget, if_pos rfl]
    exact heff

theorem Step.unchanged (hh : s.handles.get? r.name = none) (heff : Effect s r s.files none outcome) :
    Step s r s outcome where
  directory := rfl
  others _ _ := rfl
  effect := hh.symm ▸ heff

theorem openOutput_step {h : Header} {files : FileSystem} {n : Nat}
    (hcreate : s.files.create (partialPath s.directory h.name) = .ok (files, n)) :
    Step s (.openOutput h) (s.openOutput h).1 (s.openOutput h).2 := by
  have hopen : s.openOutput h = appendRecord h.name (headerJson h)
      { s with files := letGo files (s.handles.get? h.name), handles := s.handles.insert h.name ⟨n, 0, []⟩ } := by
    simp only [openOutput, hcreate]
    cases s.handles.get? h.name <;> rfl
  have hself : (s.handles.insert h.name ⟨n, 0, []⟩).get? h.name = some ⟨n, 0, []⟩ :=
    (NameMap.get?_insert ..).trans (if_pos rfl)
  rw [hopen, appendRecord_some hself]
  refine .of_get? rfl (fun key => ?_) (.opened hcreate)
  dsimp only
  rw [NameMap.get?_insert, NameMap.get?_insert]
  split
  · rename_i hkey
    exact (if_pos hkey).symm
  · rename_i hkey
    exact (if_neg hkey).symm

theorem writeChunk_step (name : String) (index : Nat) (data : Grid Double) (s : JsonLines) :
    Step s (.writeChunk name index data) (s.writeChunk name index data).1 (s.writeChunk name index data).2 := by
  unfold writeChunk
  cases hh : s.handles.get? name with
  | none =>
    rw [appendRecord_none hh]
    exact .unchanged hh (.refused hh)
  | some h =>
    rw [appendRecord_some hh]
    exact .of_get? rfl (fun key => NameMap.get?_insert ..) (.wrote hh)

theorem close_step {name : String}
    (hfine : ∀ path e, (s.close name).2 ≠ .error (fileError name path e)) :
    Step s (.close name) (s.close name).1 (s.close name).2 := by
  cases hh : s.handles.get? name with
  | none =>
    have hclose : s.close name = (s, .error ⟨name, "variable is not open"⟩) := by simp only [close, hh]
    rw [hclose]
    exact .unchanged hh (.refused hh)
  | some h =>
    cases hrename : (flushHandle s.files h).1.rename (partialPath s.directory name) (finalPath s.directory name) with
    | error e =>
      refine absurd ?_ (hfine (partialPath s.directory name) e)
      simp only [close, hh, hrename]
    | ok files =>
      have hclose : s.close name = ({ s with files := files
                                             handles := (s.handles.insert name (flushHandle s.files h).2).erase name },
          .ok ()) := by simp only [close, hh, hrename]
      rw [hclose]
      refine .of_get? rfl (fun key => ?_) (.closed hh hrename)
      dsimp only
      rw [NameMap.get?_erase, NameMap.get?_insert]
      split
      · rename_i hkey
        exact (if_pos hkey).symm
      · rename_i hkey
        exact (if_neg hkey).symm

theorem abandon_step (name : String) (s : JsonLines) :
    Step s (.abandon name) (s.abandon name).1 (s.abandon name).2 := by
  cases hh : s.handles.get? name with
  | none =>
    have habandon : s.abandon name = (s, .ok ()) := by simp only [abandon, hh]
    rw [habandon]
    exact .unchanged hh (.ignored hh)
  | some h =>
    have habandon : s.abandon name =
        ({ s with files := (flushHandle s.files h).1, handles := s.handles.erase name }, .ok ()) := by
      simp only [abandon, hh]
    rw [habandon]
    exact .of_get? rfl (fun key => NameMap.get?_erase ..) (.abandoned hh)

/-- As long as no operation on files fails, a request is answered in one of these ways. -/
theorem ask_step (hfine : Answer.IsFine ⟨r, (writer.ask r s).2⟩) : Step s r (writer.ask r s).1 (writer.ask r s).2 := by
  cases r with
  | openOutput h =>
    cases hcreate : s.files.create (partialPath s.directory h.name) with
    | error e =>
      refine absurd ?_ (hfine (partialPath s.directory h.name) e)
      simp only [Writer.ask, writer, openOutput, hcreate]
      rfl
    | ok made => exact openOutput_step hcreate
  | writeChunk name index data => exact writeChunk_step name index data s
  | close name => exact close_step hfine
  | abandon name => exact abandon_step name s

/-! ### Where requests change files -/

/-- A place that a request may change: that of the partial file, and on closing also that of the final one. -/
def Touches (s : JsonLines) (r : Request) (p : Path) : Prop :=
  p = s.partialPlace r.name ∨ r = .close r.name ∧ p = s.finalPlace r.name

/-- A file that an output writes to. -/
def Opened (s : JsonLines) (name : String) (n : Nat) : Prop := ∃ h, s.handles.get? name = some h ∧ h.number = n

theorem entry?_letGo (files : FileSystem) (handle : Option Handle) (p : Path) :
    FileSystem.entry? (letGo files handle) p = files.entry? p := by
  cases handle with
  | none => rfl
  | some h => exact (flushHandle_written files h).entry p

/-- The file that is created for an output stands in its partial place, also after the old handle lets go of it. -/
theorem entry?_letGo_created {h : Header} (hfs : s.files.WellFormed)
    (hcreate : s.files.create (partialPath s.directory h.name) = .ok (files, n)) (handle : Option Handle) :
    FileSystem.entry? (letGo files handle) (s.partialPlace h.name) = some (.file n) := by
  rw [entry?_letGo, (hfs.created hcreate).entry]
  exact if_pos rfl

/-- Letting go of a handle stays within the files of its output. -/
theorem letGo_within {places : Path → Prop} (hfs : files.WellFormed) (name : String) :
    files.Within places (s.Opened name) (letGo files (s.handles.get? name)) := by
  cases hh : s.handles.get? name with
  | none => exact .refl hfs
  | some h => exact .of_written hfs (flushHandle_written files h) (.inl ⟨h, hh, rfl⟩)

theorem Effect.within (heff : Effect s r files handle outcome) (hfs : s.files.WellFormed) :
    s.files.Within (s.Touches r) (s.Opened r.name) files := by
  cases heff with
  | @opened h made n hcreate =>
    have hcreated := hfs.created hcreate
    have hplace : s.Touches (.openOutput h) (s.partialPlace h.name) := .inl rfl
    have hwithin : s.files.Within (s.Touches (.openOutput h)) (s.Opened h.name) (letGo made (s.handles.get? h.name)) :=
      (FileSystem.Within.of_created hfs hcreated hplace).trans (letGo_within (hcreated.wellFormed hfs) h.name)
    exact hwithin.trans (.of_written hwithin.wellFormed (append_written _ _ _).1
      (.inr ⟨_, hplace, entry?_letGo_created hfs hcreate _⟩))
  | wrote hh => exact .of_written hfs (append_written _ _ _).1 (.inl ⟨_, hh, rfl⟩)
  | @closed name h files hh hrename =>
    have hw := flushHandle_written s.files h
    have hwithin : s.files.Within (s.Touches (.close name)) (s.Opened name) (flushHandle s.files h).1 :=
      .of_written hfs hw (.inl ⟨h, hh, rfl⟩)
    obtain ⟨-, n, hmoved⟩ := FileSystem.moved hrename
    rw [hw.here] at hmoved
    exact hwithin.trans (.of_moved hwithin.wellFormed hmoved (.inl rfl) (.inr ⟨rfl, rfl⟩))
  | abandoned hh => exact .of_written hfs (flushHandle_written _ _) (.inl ⟨_, hh, rfl⟩)
  | ignored | refused => exact .refl hfs

/-- A handle points at the file in the partial place, or at what it pointed at, which stays where it was. -/
theorem Effect.number (heff : Effect s r files (some h) outcome) (hfs : s.files.WellFormed) :
    files.entry? (s.partialPlace r.name) = some (.file h.number) ∨
      ∃ h', s.handles.get? r.name = some h' ∧ h'.number = h.number ∧ ∀ p, files.entry? p = s.files.entry? p := by
  generalize hhandle : some h = handle at heff
  cases heff with
  | @opened header made n hcreate =>
    obtain rfl := Option.some.inj hhandle
    obtain ⟨hw, hnumber⟩ := append_written (letGo made (s.handles.get? header.name)) ⟨n, 0, []⟩
      (line (headerJson header))
    rw [hnumber]
    exact .inl ((hw.entry _).trans (entry?_letGo_created hfs hcreate _))
  | @wrote name index data h' hh =>
    obtain rfl := Option.some.inj hhandle
    obtain ⟨hw, hnumber⟩ := append_written s.files h' (line (chunkJson index data))
    exact .inr ⟨h', hh, hnumber.symm, hw.entry⟩
  | closed | abandoned | ignored | refused => cases hhandle

/-! ### Files apart -/

theorem Step.places (hstep : Step s r t outcome) (hfs : s.files.WellFormed) :
    t.partialPlace = s.partialPlace ∧ t.finalPlace = s.finalPlace := by
  have hhere := (hstep.effect.within hfs).alike.here
  unfold partialPlace finalPlace
  rw [hhere, hstep.directory]
  exact ⟨rfl, rfl⟩

/-- One of the two places of an output. -/
def IsPlace (s : JsonLines) (name : String) (p : Path) : Prop := p = s.partialPlace name ∨ p = s.finalPlace name

theorem Touches.isPlace (h : s.Touches r p) : s.IsPlace r.name p := h.imp id And.right

/-- Files that lie apart are not touched by requests about each other. -/
theorem IsPlace.not_touches (hp : s.IsPlace name p) (h : s.finalPlace r.name ≠ s.finalPlace name) : ¬s.Touches r p := by
  intro htouches
  rcases hp with rfl | rfl <;> rcases htouches.isPlace with heq | heq
  · exact h (partialPlace_inj.mp heq).symm
  · exact partialPlace_ne_finalPlace s _ _ heq
  · exact partialPlace_ne_finalPlace s _ _ heq.symm
  · exact h heq.symm

/-- What keeps an output from others: its handle points at its partial file, and no other handle at its files. -/
structure Orderly (s : JsonLines) (name : String) : Prop where
  wellFormed : s.files.WellFormed
  inside : ∀ key h, s.handles.get? key = some h → h.number < s.files.contents.length
  own : ∀ h, s.handles.get? name = some h → s.files.entry? (s.partialPlace name) = some (.file h.number)
  foreign : ∀ key h p, key ≠ name → s.handles.get? key = some h → s.IsPlace name p →
    s.files.entry? p ≠ some (.file h.number)

theorem orderly_of_empty (hfs : s.files.WellFormed) (h : s.handles = .empty) (name : String) : s.Orderly name := by
  have hnone : ∀ key h', s.handles.get? key ≠ some h' := by
    intro key h' heq
    rw [h] at heq
    cases heq
  exact ⟨hfs, fun key h' hh => absurd hh (hnone key h'), fun h' hh => absurd hh (hnone name h'),
    fun key h' _ _ hh => absurd hh (hnone key h')⟩

theorem Step.number (hstep : Step s r t outcome) (hfs : s.files.WellFormed) (hh : t.handles.get? r.name = some h) :
    t.files.entry? (s.partialPlace r.name) = some (.file h.number) ∨
      ∃ h', s.handles.get? r.name = some h' ∧ h'.number = h.number ∧ ∀ p, t.files.entry? p = s.files.entry? p := by
  have heff := hstep.effect
  rw [hh] at heff
  exact heff.number hfs

theorem Orderly.inside_step (ho : s.Orderly name) (hstep : Step s r t outcome) (hh : t.handles.get? key = some h) :
    h.number < t.files.contents.length := by
  have hwithin := hstep.effect.within ho.wellFormed
  by_cases hr : key = r.name
  · subst hr
    rcases hstep.number ho.wellFormed hh with hentry | ⟨h', hh', hsame, -⟩
    · exact hwithin.wellFormed.inside _ _ hentry
    · exact hsame ▸ Nat.lt_of_lt_of_le (ho.inside _ h' hh') hwithin.size
  · rw [hstep.others key hr] at hh
    exact Nat.lt_of_lt_of_le (ho.inside key h hh) hwithin.size

theorem Orderly.own_step (ho : s.Orderly name) (hstep : Step s r t outcome)
    (hapart : r.name ≠ name → s.finalPlace r.name ≠ s.finalPlace name) (hh : t.handles.get? name = some h) :
    t.files.entry? (s.partialPlace name) = some (.file h.number) := by
  by_cases hr : r.name = name
  · subst hr
    rcases hstep.number ho.wellFormed hh with hentry | ⟨h', hh', hsame, hentries⟩
    · exact hentry
    · rw [hentries, ← hsame]
      exact ho.own h' hh'
  · rw [hstep.others name (Ne.symm hr)] at hh
    have hnot := IsPlace.not_touches (.inl rfl) (hapart hr)
    rw [(hstep.effect.within ho.wellFormed).entry _ hnot]
    exact ho.own h hh

/-- A request about an output puts no file in its places that another handle points at. -/
theorem Orderly.foreign_own (ho : s.Orderly r.name) (hstep : Step s r t outcome) (hkey : key ≠ r.name)
    (hh : s.handles.get? key = some h) (hp : s.IsPlace r.name p) : t.files.entry? p ≠ some (.file h.number) := by
  have hwithin := hstep.effect.within ho.wellFormed
  intro hentry
  by_cases htouches : s.Touches r p
  · rcases hwithin.origin p _ htouches hentry with ⟨q, hq, hn⟩ | hle
    · exact ho.foreign key h q hkey hh hq.isPlace hn
    · exact Nat.lt_irrefl _ (Nat.lt_of_lt_of_le (ho.inside key h hh) hle)
  · rw [hwithin.entry p htouches] at hentry
    exact ho.foreign key h p hkey hh hp hentry

/-- A request about an output with files of its own makes no handle point at those of another one. -/
theorem Orderly.foreign_apart (ho : s.Orderly name) (hstep : Step s r t outcome)
    (hapart : s.finalPlace r.name ≠ s.finalPlace name) (hkey : key ≠ name) (hh : t.handles.get? key = some h)
    (hp : s.IsPlace name p) : t.files.entry? p ≠ some (.file h.number) := by
  have hwithin := hstep.effect.within ho.wellFormed
  have hnot := hp.not_touches hapart
  intro hentry
  by_cases hown : key = r.name
  · subst hown
    rcases hstep.number ho.wellFormed hh with hentry' | ⟨h', hh', hsame, hentries⟩
    · exact hnot (.inl (hwithin.wellFormed.single _ _ _ hentry hentry'))
    · rw [hentries, ← hsame] at hentry
      exact ho.foreign _ h' p hkey hh' hp hentry
  · rw [hstep.others key hown] at hh
    rw [hwithin.entry p hnot] at hentry
    exact ho.foreign key h p hkey hh hp hentry

/-- An output stays apart under requests about itself, and about outputs with files of their own. -/
theorem Orderly.step (ho : s.Orderly name) (hstep : Step s r t outcome)
    (hapart : r.name ≠ name → s.finalPlace r.name ≠ s.finalPlace name) : t.Orderly name := by
  obtain ⟨hpartial, hfinal⟩ := hstep.places ho.wellFormed
  refine ⟨(hstep.effect.within ho.wellFormed).wellFormed, fun key h hh => ho.inside_step hstep hh, fun h hh => ?_,
    fun key h p hkey hh hp => ?_⟩
  · rw [hpartial]
    exact ho.own_step hstep hapart hh
  · unfold IsPlace at hp
    rw [hpartial, hfinal] at hp
    by_cases hr : r.name = name
    · subst hr
      rw [hstep.others key hkey] at hh
      exact ho.foreign_own hstep hkey hh hp
    · exact ho.foreign_apart hstep (hapart hr) hkey hh hp

/-- What stands in a place of an output stays there under requests that do not touch this place. -/
theorem Orderly.bytes (ho : s.Orderly name) (hstep : Step s r t outcome) (hp : s.IsPlace name p)
    (hnot : ¬s.Touches r p) (hn : s.files.entry? p = some (.file n)) : t.files.bytes n = s.files.bytes n := by
  refine (hstep.effect.within ho.wellFormed).bytes n (ho.wellFormed.inside p n hn) ?_ ?_
  · rintro ⟨h, hh, rfl⟩
    by_cases hr : r.name = name
    · subst hr
      exact hnot (.inl (ho.wellFormed.single _ _ _ hn (ho.own h hh)))
    · exact ho.foreign _ h p hr hh hp hn
  · intro q hq hn'
    exact hnot (ho.wellFormed.single _ _ _ hn hn' ▸ hq)

/-- The complete file of an output changes only when the output is closed. -/
theorem Orderly.bytesAt (ho : s.Orderly name) (hstep : Step s r t outcome)
    (hapart : r.name ≠ name → s.finalPlace r.name ≠ s.finalPlace name)
    (hclose : ¬(r = .close name ∧ outcome = .ok ())) :
    t.files.bytesAt (finalPath s.directory name) = s.files.bytesAt (finalPath s.directory name) := by
  have hwithin := hstep.effect.within ho.wellFormed
  have hkeep : ¬s.Touches r (s.finalPlace name) →
      t.files.bytesAt (finalPath s.directory name) = s.files.bytesAt (finalPath s.directory name) := fun hnot =>
    hwithin.alike.bytesAt (hwithin.entry _ hnot) fun n hn => ho.bytes hstep (.inr rfl) hnot hn
  by_cases hr : r.name = name
  · by_cases hrequest : r = .close name
    · have heff := hstep.effect
      generalize t.handles.get? r.name = handle at heff
      generalize t.files = files at heff ⊢
      cases heff with
      | closed => exact absurd ⟨hrequest, rfl⟩ hclose
      | refused => rfl
      | opened | wrote | abandoned | ignored => cases hrequest
    · refine hkeep ?_
      rintro (heq | ⟨heq, -⟩)
      · exact partialPlace_ne_finalPlace s _ _ heq.symm
      · exact hrequest (hr ▸ heq)
  · exact hkeep (IsPlace.not_touches (.inr rfl) (hapart hr))

end JsonLines
end Concord
