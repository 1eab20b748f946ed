import Mathlib.Data.List.Induction
import Concord.Output.JsonLines
import Concord.Proofs.Decimal.Reading
import Concord.Proofs.Output.Handles

/-! Records as lines. What would break a line is escaped in texts and does not occur in numbers, so the record of a
    document is one whole line. -/

namespace Concord

variable {c : Char} {ds : List Char} {x : Double} {e : Int}

/-! ### Numbers -/

/-- A character that numbers are written with. -/
def inNumber (c : Char) : Bool := c.isDigit || ['-', '+', '.', 'e'].contains c

theorem inNumber_digits {m : Nat} (h : c ∈ Decimal.digits m) : inNumber c = true := by
  rw [inNumber, Decimal.isDigit_digits h, Bool.true_or]

theorem inNumber_toString {n : Nat} (h : c ∈ (toString n).toList) : inNumber c = true := by
  rw [Nat.toString_eq_ofList_toDigits, String.toList_ofList] at h
  exact inNumber_digits h

namespace Decimal

theorem inNumber_positional {wholeEnd : String} (hend : ∀ c ∈ wholeEnd.toList, inNumber c = true)
    (hds : ∀ c ∈ ds, inNumber c = true) (h : c ∈ (positional wholeEnd ds e).toList) : inNumber c = true := by
  have hzero : inNumber '0' = true := rfl
  have hpoint : inNumber '.' = true := rfl
  unfold positional at h
  split at h
  · simp only [String.toList_append, String.toList_ofList, List.mem_append, List.mem_replicate] at h
    rcases h with (h | ⟨-, rfl⟩) | h
    · exact hds c h
    · exact hzero
    · exact hend c h
  dsimp only at h
  split at h
  · rw [String.toList_ofList, List.mem_append, List.mem_cons] at h
    rcases h with h | rfl | h
    · exact hds c (List.mem_of_mem_take h)
    · exact hpoint
    · exact hds c (List.mem_of_mem_drop h)
  · simp only [String.toList_ofList, List.mem_append, List.mem_cons, List.mem_replicate] at h
    rcases h with (rfl | rfl | ⟨-, rfl⟩) | h
    · exact hzero
    · exact hpoint
    · exact hzero
    · exact hds c h

theorem inNumber_scientific (hds : ∀ c ∈ ds, inNumber c = true) (h : c ∈ (scientific ds e).toList) :
    inNumber c = true := by
  unfold scientific at h
  dsimp only at h
  rw [String.toList_append, String.toList_append, List.mem_append, List.mem_append, String.toList_ofList] at h
  rcases h with (h | h) | h
  · split at h
    · rw [List.mem_cons, List.mem_cons] at h
      rcases h with rfl | rfl | h
      · exact hds _ List.mem_cons_self
      · rfl
      · exact hds c (List.mem_cons_of_mem _ h)
    · exact hds c h
  · split at h <;> exact List.all_eq_true.mp rfl c h
  · exact inNumber_toString h

theorem inNumber_layOut (h : c ∈ (layOut documentLayout x).toList) : inNumber c = true := by
  have hsign : ∀ c ∈ (if x.isNegative then "-" else "").toList, inNumber c = true := by
    split <;> exact List.all_eq_true.mp rfl
  have hend : ∀ c ∈ documentLayout.wholeEnd.toList, inNumber c = true := List.all_eq_true.mp rfl
  have hds : ∀ c ∈ digits (shortest documentLayout.ties x.abs).1, inNumber c = true := fun _ => inNumber_digits
  unfold layOut at h
  dsimp only at h
  split at h
  · rw [String.toList_append, String.toList_append, List.mem_append, List.mem_append] at h
    rcases h with (h | h) | h
    · exact hsign c h
    · exact List.all_eq_true.mp rfl c h
    · exact hend c h
  · rw [String.toList_append, List.mem_append] at h
    rcases h with h | h
    · exact hsign c h
    · split at h
      · exact inNumber_positional hend hds h
      · exact inNumber_scientific hds h

end Decimal

namespace Json

theorem newline_not_mem_number (n : Number) : '\n' ∉ n.text.toList := by
  have hnot : inNumber '\n' ≠ true := by decide
  cases n with
  | natural n => exact fun h => hnot (inNumber_toString h)
  | negative n =>
    rw [Number.text, String.toList_append, List.mem_append, not_or]
    exact ⟨by decide, fun h => hnot (inNumber_toString h)⟩
  | real x =>
    rw [Number.text, Decimal.document?]
    split
    · rw [Option.getD_some]
      exact fun h => hnot (Decimal.inNumber_layOut h)
    · rw [Option.getD_none]
      decide

/-! ### Documents -/

theorem newline_not_mem_escapeChar (c : Char) : '\n' ∉ escapeChar c := by
  have hdigit : ∀ n < 16, '\n' ≠ Nat.digitChar n := by decide
  have hcode : '\n' ≠ Nat.digitChar (c.toNat % 16) := hdigit _ (Nat.mod_lt _ (by decide))
  unfold escapeChar
  repeat' split
  case isFalse.isFalse.isFalse.isFalse.isTrue => decide
  all_goals simp_all [eq_comm]

theorem newline_not_mem_quoted (s : String) : '\n' ∉ (quoted s).toList := by
  have hchars : '\n' ∉ s.toList.flatMap escapeChar := by
    rw [List.mem_flatMap]
    rintro ⟨c, -, hc⟩
    exact newline_not_mem_escapeChar c hc
  unfold quoted
  rw [String.toList_ofList]
  simp [hchars]

theorem newline_not_mem_intercalate {texts : List String} (h : ∀ t ∈ texts, '\n' ∉ t.toList) :
    '\n' ∉ (",".intercalate texts).toList := by
  rw [String.toList_intercalate]
  induction texts with
  | nil => simp
  | cons t texts ih =>
    rw [List.forall_mem_cons] at h
    cases texts with
    | nil => simpa using h.1
    | cons t' texts =>
      rw [List.map_cons, List.map_cons, List.intercalate_cons_cons, List.mem_append, List.mem_append, not_or, not_or]
      exact ⟨⟨h.1, by decide⟩, ih h.2⟩

mutual

/-- A document is printed on one line. -/
theorem newline_not_mem_compact : ∀ v : Json, '\n' ∉ v.compact.toList
  | .null => by decide
  | .bool b => by cases b <;> decide
  | .number n => newline_not_mem_number n
  | .text s => newline_not_mem_quoted s
  | .list items => by
    have hitems := newline_not_mem_intercalate (newline_not_mem_compactItems items)
    simp only [compact, String.toList_append, List.mem_append, not_or]
    exact ⟨⟨by decide, hitems⟩, by decide⟩
  | .object members => by
    have hmembers := newline_not_mem_intercalate (newline_not_mem_compactMembers members)
    simp only [compact, String.toList_append, List.mem_append, not_or]
    exact ⟨⟨by decide, hmembers⟩, by decide⟩

theorem newline_not_mem_compactItems : ∀ (items : List Json), ∀ t ∈ compactItems items, '\n' ∉ t.toList
  | [] => by simp [compactItems]
  | v :: vs => by
    simp only [compactItems, List.forall_mem_cons]
    exact ⟨newline_not_mem_compact v, newline_not_mem_compactItems vs⟩

theorem newline_not_mem_compactMembers :
    ∀ (members : List (String × Json)), ∀ t ∈ compactMembers members, '\n' ∉ t.toList
  | [] => by simp [compactMembers]
  | (k, v) :: rest => by
    simp only [compactMembers, List.forall_mem_cons, String.toList_append, List.mem_append, not_or]
    exact ⟨⟨⟨newline_not_mem_quoted k, by decide⟩, newline_not_mem_compact v⟩, newline_not_mem_compactMembers rest⟩

end

end Json

/-! ### Records -/

theorem toList_loop (bytes : ByteArray) (i : Nat) (done : List UInt8) :
    ByteArray.toList.loop bytes i done = done.reverse ++ bytes.data.toList.drop i := by
  induction i, done using ByteArray.toList.loop.induct bytes with
  | case1 i done hlt ih =>
    have hlt' : i < bytes.data.toList.length := hlt
    have hget : bytes.get! i = bytes.data.toList[i] := by
      have hsize : i < bytes.data.size := hlt
      exact getElem!_pos bytes.data i hsize
    rw [ByteArray.toList.loop, if_pos hlt, ih, List.drop_eq_getElem_cons hlt', hget]
    simp
  | case2 i done hge =>
    have hge' : bytes.data.toList.length ≤ i := Nat.le_of_not_lt hge
    rw [ByteArray.toList.loop, if_neg hge, List.drop_eq_nil_of_le hge', List.append_nil]

/-- The bytes of a text are those of its characters. -/
theorem toUTF8_toList (s : String) : s.toUTF8.toList = s.toList.flatMap String.utf8EncodeChar := by
  rw [ByteArray.toList, toList_loop]
  simp [String.toUTF8, ← String.utf8Encode_toList, List.utf8Encode]

/-- In the bytes of a character there is a line break only if it is one. -/
theorem eq_newline_of_mem (h : 10 ∈ String.utf8EncodeChar c) : c = '\n' := by
  have hlow : ∀ n : Nat, n ≤ 127 → (10 : UInt8) = UInt8.ofNat n → n = 10 := by decide
  have hhigh : ∀ n : Nat, 128 ≤ n → n ≤ 255 → (10 : UInt8) ≠ UInt8.ofNat n := by
    intro n hn hn' heq
    have hnat := congrArg UInt8.toNat heq
    rw [UInt8.toNat_ofNat', show (10 : UInt8).toNat = 10 from rfl] at hnat
    omega
  unfold String.utf8EncodeChar at h
  dsimp only at h
  split at h
  · rename_i hle
    have hval := hlow _ hle (List.mem_singleton.mp h)
    exact Char.ext (UInt32.toNat_inj.mp hval)
  · exfalso
    split at h
    · simp only [List.mem_cons, List.not_mem_nil, or_false] at h
      rcases h with h | h <;> exact hhigh _ (by omega) (by omega) h
    split at h <;> simp only [List.mem_cons, List.not_mem_nil, or_false] at h
    · rcases h with h | h | h <;> exact hhigh _ (by omega) (by omega) h
    · rcases h with h | h | h | h <;> exact hhigh _ (by omega) (by omega) h

/-- Bytes that are one whole line. -/
def IsLine (bytes : List UInt8) : Prop := ∃ body, bytes = body ++ [10] ∧ 10 ∉ body

theorem isLine_line (v : Json) : IsLine (JsonLines.line v) := by
  refine ⟨v.compact.toUTF8.toList, ?_, ?_⟩
  · rw [JsonLines.line, toUTF8_toList, toUTF8_toList, String.toList_append, List.flatMap_append]
    rfl
  · rw [toUTF8_toList, List.mem_flatMap]
    rintro ⟨c, hc, hbyte⟩
    exact Json.newline_not_mem_compact v (eq_newline_of_mem hbyte ▸ hc)

end Concord

/-! What a closed file holds. It is the last session of its output: the header that it was last opened with, and the
    chunks that were granted since then, each on a line. An output that was open when it was opened again adds to this
    what its old handle held back, at the old place: the file is emptied before the old handle lets go of it. -/

namespace Concord.JsonLines

variable {s t : JsonLines} {r : Request} {rs before : List Request} {name : String} {h : Header}
  {chunks : List (Nat × Grid Double)} {outcome : Except WriterError Unit}

/-! ### Sessions -/

/-- The records of an output: its header and its chunks. -/
def records (h : Header) (chunks : List (Nat × Grid Double)) : List (List UInt8) :=
  line (headerJson h) :: chunks.map fun c => line (chunkJson c.1 c.2)

/-- The text of an output. -/
def sessionText (h : Header) (chunks : List (Nat × Grid Double)) : List UInt8 := (records h chunks).flatten

/-- What the open handle of an output leaves in a file that is emptied before it lets go of it: what it held back,
    behind as many zeros as it had written bytes. -/
def leftover (s : JsonLines) (name : String) : List UInt8 :=
  match s.handles.get? name with
  | some h => if h.buffer.isEmpty then [] else List.replicate h.offset 0 ++ h.buffer
  | none => []

/-- Behind some requests an output was opened for the last time, and since then nothing was granted about it but these
    chunks. -/
def Session (s : JsonLines) (rs : List Request) (name : String) (before : List Request) (h : Header)
    (chunks : List (Nat × Grid Double)) : Prop :=
  h.name = name ∧ ∃ during, rs = before ++ .openOutput h :: during ∧
    (∀ h', .openOutput h' ∈ during → h'.name ≠ name) ∧
    grants (answersFor name (writer.log (writer.after s before) (.openOutput h :: during))) =
      .openOutput h :: chunks.map fun c => .writeChunk name c.1 c.2

/-- The records of an output are whole lines. -/
theorem isLine_records (h : Header) (chunks : List (Nat × Grid Double)) :
    ∀ record ∈ records h chunks, IsLine record := by
  intro record hrecord
  rcases List.mem_cons.mp hrecord with rfl | hrecord
  · exact isLine_line _
  · obtain ⟨c, -, rfl⟩ := List.mem_map.mp hrecord
    exact isLine_line _

theorem sessionText_concat (h : Header) (chunks : List (Nat × Grid Double)) (c : Nat × Grid Double) :
    sessionText h (chunks ++ [c]) = sessionText h chunks ++ line (chunkJson c.1 c.2) := by
  simp [sessionText, records]

theorem Session.opened (hname : h.name = name) (hok : (writer.ask (.openOutput h) (writer.after s rs)).2 = .ok ()) :
    Session s (rs ++ [.openOutput h]) name rs h [] := by
  refine ⟨hname, [], rfl, fun _ hmem => (by cases hmem), ?_⟩
  have hlog := writer.log_concat (writer.after s rs) [] (.openOutput h)
  rw [List.nil_append] at hlog
  rw [hlog]
  have hone : answersFor name [⟨.openOutput h, .ok ()⟩] = [⟨.openOutput h, .ok ()⟩] :=
    answersFor_eq_self (by simpa [asked, Request.name] using hname)
  change grants (answersFor name [⟨_, (writer.ask _ (writer.after s rs)).2⟩]) = _
  rw [hok, hone]
  rfl

/-- What a request that follows adds to a session. -/
theorem Session.snoc (hs : Session s rs name before h chunks) (hopen : ∀ h', r = .openOutput h' → h'.name ≠ name)
    (more : List (Nat × Grid Double))
    (hmore : grants (answersFor name [⟨r, (writer.ask r (writer.after s rs)).2⟩]) =
      more.map fun c => .writeChunk name c.1 c.2) : Session s (rs ++ [r]) name before h (chunks ++ more) := by
  obtain ⟨hname, during, rfl, hlast, hgrants⟩ := hs
  refine ⟨hname, during ++ [r], by simp, fun h' hmem => ?_, ?_⟩
  · rcases List.mem_append.mp hmem with hmem | hmem
    · exact hlast h' hmem
    · exact hopen h' (List.mem_singleton.mp hmem).symm
  · rw [Writer.after_append] at hmore
    rw [← List.cons_append, Writer.log_concat, answersFor_append, grants_append, hgrants, hmore, List.map_append]
    rfl

theorem Session.wrote {index : Nat} {data : Grid Double} (hs : Session s rs name before h chunks)
    (hok : (writer.ask (.writeChunk name index data) (writer.after s rs)).2 = .ok ()) :
    Session s (rs ++ [.writeChunk name index data]) name before h (chunks ++ [(index, data)]) := by
  refine hs.snoc (fun h' hopen => by cases hopen) [(index, data)] ?_
  rw [hok, answersFor_eq_self (by simp [asked, Request.name])]
  rfl

/-- A request about another output adds nothing to a session. -/
theorem Session.other (hs : Session s rs name before h chunks) (hr : r.name ≠ name) :
    Session s (rs ++ [r]) name before h chunks := by
  have hnone : answersFor name [⟨r, (writer.ask r (writer.after s rs)).2⟩] = [] :=
    answersFor_eq_nil (by simpa [asked] using hr)
  have hsession := hs.snoc (r := r) (fun h' hopen hname => hr (hopen ▸ hname)) [] (by rw [hnone]; rfl)
  rwa [List.append_nil] at hsession

/-- There is only one last session. -/
theorem Session.unique {before' : List Request} {h' : Header} {chunks' : List (Nat × Grid Double)}
    (hs : Session s rs name before h chunks) (hs' : Session s rs name before' h' chunks') :
    before = before' ∧ h = h' ∧ chunks = chunks' := by
  obtain ⟨hname, during, hsplit, hlast, hgrants⟩ := hs
  obtain ⟨hname', during', hsplit', hlast', hgrants'⟩ := hs'
  have hsame : before = before' ∧ Request.openOutput h :: during = .openOutput h' :: during' := by
    rcases List.append_eq_append_iff.mp (hsplit.symm.trans hsplit') with ⟨more, hmore, heq⟩ | ⟨more, hmore, heq⟩
    · cases more with
      | nil => exact ⟨by rw [hmore, List.append_nil], heq⟩
      | cons q more =>
        obtain ⟨-, rfl⟩ := List.cons.inj heq
        exact absurd hname' (hlast h' (List.mem_append_right _ List.mem_cons_self))
    · cases more with
      | nil => exact ⟨by rw [hmore, List.append_nil], heq.symm⟩
      | cons q more =>
        obtain ⟨-, rfl⟩ := List.cons.inj heq
        exact absurd hname (hlast' h (List.mem_append_right _ List.mem_cons_self))
  obtain ⟨rfl, heq⟩ := hsame
  obtain ⟨hopen, rfl⟩ := List.cons.inj heq
  cases hopen
  refine ⟨rfl, rfl, ?_⟩
  have hinj : Function.Injective fun c : Nat × Grid Double => Request.writeChunk name c.1 c.2 := by
    rintro ⟨i, g⟩ ⟨j, k⟩ hc
    cases hc
    rfl
  exact hinj.list_map (List.cons.inj (hgrants.symm.trans hgrants')).2

/-! ### Steps -/

/-- An output that is opened starts anew, behind what its old handle leaves. -/
theorem Orderly.draft_opened {files : FileSystem} {n : Nat} (ho : s.Orderly h.name)
    (hcreate : s.files.create (partialPath s.directory h.name) = .ok (files, n)) :
    Draft (letGo files (s.handles.get? h.name)) ⟨n, 0, []⟩ [] (s.leftover h.name) := by
  have hcreated := ho.wellFormed.created hcreate
  have hstart : ∀ fs : FileSystem, n < fs.contents.length → fs.bytes n = s.leftover h.name →
      Draft fs ⟨n, 0, []⟩ [] (s.leftover h.name) := fun fs hin hbytes => ⟨hin, [], rfl, rfl, hbytes⟩
  unfold leftover at hstart ⊢
  cases hold : s.handles.get? h.name with
  | none =>
    rw [hold] at hstart
    exact hstart files hcreated.inside hcreated.empty
  | some old =>
    rw [hold] at hstart
    -- the old handle points at the file that was emptied
    have hnumber : old.number = n := by
      rcases hcreated.origin with horigin | ⟨hnone, -⟩
      · exact Entry.file.inj (Option.some.inj ((ho.own old hold).symm.trans horigin))
      · exact absurd ((ho.own old hold).symm.trans hnone) (by simp)
    dsimp only at hstart ⊢
    cases hempty : old.buffer.isEmpty with
    | true =>
      rw [hempty] at hstart
      simp only [letGo, flushHandle, hempty, if_true] at hstart ⊢
      exact hstart files hcreated.inside hcreated.empty
    | false =>
      rw [hempty] at hstart
      simp only [letGo, flushHandle, hempty, Bool.false_eq_true, if_false] at hstart ⊢
      rw [hnumber]
      refine hstart _ ((FileSystem.written files n old.offset old.buffer).size.symm ▸ hcreated.inside) ?_
      rw [FileSystem.bytes_write hcreated.inside, hcreated.empty]
      simp

/-- A file that is closed is moved with what it holds. -/
theorem Orderly.bytes_closed {handle : Handle} {files : FileSystem} {text rest : List UInt8} (ho : s.Orderly name)
    (hd : Draft s.files handle text rest) (hh : s.handles.get? name = some handle)
    (hrename : (flushHandle s.files handle).1.rename (partialPath s.directory name) (finalPath s.directory name) =
      .ok files) : files.bytesAt (finalPath s.directory name) = some (text ++ rest.drop text.length) := by
  have hw := flushHandle_written s.files handle
  obtain ⟨hreaches, n, hmoved⟩ := FileSystem.moved hrename
  have hnumber : n = handle.number := by
    have horigin := hmoved.origin
    rw [hw.entry, hw.here] at horigin
    exact Entry.file.inj (Option.some.inj (horigin.symm.trans (ho.own handle hh)))
  refine FileSystem.bytesAt_eq_some.mpr ⟨hmoved.alike.reaches.mpr hreaches, n, ?_, ?_⟩
  · rw [hmoved.alike.here, hmoved.entry, if_pos rfl]
  · have hbytes := hd.flush.bytes (buffer_flushHandle s.files handle)
    rw [number_flushHandle] at hbytes
    rw [hnumber, ← hbytes]
    unfold FileSystem.bytes
    rw [hmoved.contents]

/-! ### Runs -/

/-- Behind some requests an output is apart from others, and what its handle wrote is a session. -/
structure Progress (s : JsonLines) (rs : List Request) (name : String) : Prop where
  directory : (writer.after s rs).directory = s.directory
  place : (writer.after s rs).finalPlace = s.finalPlace
  orderly : (writer.after s rs).Orderly name
  draft : ∀ handle, (writer.after s rs).handles.get? name = some handle → ∃ before h chunks,
    Session s rs name before h chunks ∧
      Draft (writer.after s rs).files handle (sessionText h chunks) ((writer.after s before).leftover name)

/-- A request about an output that leaves it open opens it anew or adds a chunk. -/
theorem Progress.draft_own {files : FileSystem} {handle : Handle} (hp : Progress s rs r.name)
    (heff : Effect (writer.after s rs) r files (some handle) (writer.ask r (writer.after s rs)).2) :
    ∃ before h chunks, Session s (rs ++ [r]) r.name before h chunks ∧
      Draft files handle (sessionText h chunks) ((writer.after s before).leftover r.name) := by
  generalize houtcome : (writer.ask r (writer.after s rs)).2 = outcome at heff
  generalize hhandle : some handle = now at heff
  cases heff with
  | @opened h made n hcreate =>
    obtain rfl := Option.some.inj hhandle
    refine ⟨rs, h, [], Session.opened rfl houtcome, ?_⟩
    have htext : sessionText h [] = [] ++ line (headerJson h) := by simp [sessionText, records]
    rw [htext]
    exact (hp.orderly.draft_opened hcreate).append _
  | @wrote name index data old hh =>
    obtain rfl := Option.some.inj hhandle
    obtain ⟨before, h, chunks, hs, hd⟩ := hp.draft old hh
    refine ⟨before, h, chunks ++ [(index, data)], hs.wrote houtcome, ?_⟩
    rw [sessionText_concat]
    exact hd.append _
  | closed | abandoned | ignored | refused => cases hhandle

theorem Progress.snoc (hp : Progress s rs name) (hfine : Answer.IsFine ⟨r, (writer.ask r (writer.after s rs)).2⟩)
    (hapart : r.name ≠ name → s.finalPlace r.name ≠ s.finalPlace name) : Progress s (rs ++ [r]) name := by
  have hstep := ask_step hfine
  have hwithin := hstep.effect.within hp.orderly.wellFormed
  rw [← hp.place] at hapart
  have horderly := hp.orderly.step hstep hapart
  have hplace := (hstep.places hp.orderly.wellFormed).2
  rw [← Writer.after_concat] at hstep hplace horderly hwithin
  refine ⟨hstep.directory.trans hp.directory, hplace.trans hp.place, horderly, fun handle hh => ?_⟩
  by_cases hr : r.name = name
  · subst hr
    have heff := hstep.effect
    rw [hh] at heff
    exact hp.draft_own heff
  · rw [hstep.others name (Ne.symm hr)] at hh
    obtain ⟨before, h, chunks, hs, hd⟩ := hp.draft handle hh
    refine ⟨before, h, chunks, hs.other hr, hd.of_bytes hwithin.size ?_⟩
    exact hp.orderly.bytes hstep (.inl rfl) (IsPlace.not_touches (.inl rfl) (hapart hr)) (hp.orderly.own handle hh)

theorem progress (hfs : s.files.WellFormed) (hstart : s.handles = .empty) (hfine : ∀ a ∈ writer.log s rs, a.IsFine)
    (hapart : ∀ q ∈ rs, q.name ≠ name → s.finalPlace q.name ≠ s.finalPlace name) : Progress s rs name := by
  induction rs using List.reverseRecOn with
  | nil =>
    refine ⟨rfl, rfl, orderly_of_empty hfs hstart name, fun handle hh => ?_⟩
    have hnone : s.handles.get? name = none := by
      rw [hstart]
      rfl
    exact absurd (hnone.symm.trans hh) (by simp)
  | append_singleton rs r ih =>
    rw [Writer.log_concat] at hfine
    refine (ih (fun a ha => hfine a (List.mem_append_left _ ha)) fun q hq => hapart q (List.mem_append_left _ hq)).snoc
      (hfine _ (List.mem_append_right _ (List.mem_singleton_self _)))
      (hapart r (List.mem_append_right _ (List.mem_singleton_self _)))

/-! ### Closed files -/

/-- At first nothing is open. -/
theorem start_of_create {files : FileSystem} {dir : String} (hfiles : files.WellFormed)
    (hcreate : create files dir = .ok s) : s.files.WellFormed ∧ s.directory = dir ∧ s.handles = .empty := by
  unfold create at hcreate
  split at hcreate
  · rename_i made hmade
    cases hcreate
    exact ⟨hfiles.makeDirectories hmade, rfl, rfl⟩
  · cases hcreate

/-- What is closed is a session, and behind it what reaches beyond its end of what an old handle left. -/
theorem Progress.closed (hp : Progress s rs name) (hstep : Step (writer.after s rs) (.close name) t (.ok ())) :
    ∃ before h chunks, Session s rs name before h chunks ∧
      t.files.bytesAt (finalPath s.directory name) = some (sessionText h chunks ++
        ((writer.after s before).leftover name).drop (sessionText h chunks).length) := by
  have heff := hstep.effect
  generalize t.handles.get? _ = handle at heff
  generalize t.files = closed at heff ⊢
  cases heff with
  | @closed _ handle _ hh hrename =>
    obtain ⟨before, h, chunks, hsession, hdraft⟩ := hp.draft handle hh
    refine ⟨before, h, chunks, hsession, ?_⟩
    rw [← hp.directory]
    exact hp.orderly.bytes_closed hdraft hh hrename

/-- A complete file is made and changed only when its output is closed. It then holds the records of the last session,
    each a whole line, and behind them what reaches beyond their end of the bytes that an old handle left; so it holds
    nothing else exactly if that is no longer than the session, as always if the output was not open when it was last
    opened. This is so in every run in which no operation on files fails, for an output whose files no other output
    shares. -/
theorem closed_file {files : FileSystem} {dir : String} (hfiles : files.WellFormed) (hcreate : create files dir = .ok s)
    (hfine : ∀ a ∈ writer.log s (rs ++ [r]), a.IsFine)
    (hapart : ∀ q ∈ rs ++ [r], q.name ≠ name → s.finalPlace q.name ≠ s.finalPlace name) :
    (¬(r = .close name ∧ (writer.ask r (writer.after s rs)).2 = .ok ()) →
      (writer.after s (rs ++ [r])).files.bytesAt (finalPath dir name) =
        (writer.after s rs).files.bytesAt (finalPath dir name)) ∧
    (r = .close name → (writer.ask r (writer.after s rs)).2 = .ok () → ∃ before h chunks,
      Session s rs name before h chunks ∧ (∀ record ∈ records h chunks, IsLine record) ∧
      (writer.after s (rs ++ [r])).files.bytesAt (finalPath dir name) = some (sessionText h chunks ++
        ((writer.after s before).leftover name).drop (sessionText h chunks).length) ∧
      ((writer.after s (rs ++ [r])).files.bytesAt (finalPath dir name) = some (sessionText h chunks) ↔
        ((writer.after s before).leftover name).length ≤ (sessionText h chunks).length) ∧
      ((writer.after s before).handles.get? name = none → (writer.after s before).leftover name = [])) := by
  obtain ⟨hfs, rfl, hempty⟩ := start_of_create hfiles hcreate
  rw [Writer.log_concat] at hfine
  have hp : Progress s rs name := progress hfs hempty (fun a ha => hfine a (List.mem_append_left _ ha))
    fun q hq => hapart q (List.mem_append_left _ hq)
  have hstep := ask_step (hfine _ (List.mem_append_right _ (List.mem_singleton_self _)))
  rw [Writer.after_concat]
  constructor
  · intro hclose
    have hr := hapart r (List.mem_append_right _ (List.mem_singleton_self _))
    rw [← hp.place] at hr
    rw [← hp.directory]
    exact hp.orderly.bytesAt hstep hr hclose
  · rintro rfl hok
    rw [hok] at hstep
    obtain ⟨before, h, chunks, hsession, hbytes⟩ := hp.closed hstep
    refine ⟨before, h, chunks, hsession, isLine_records h chunks, hbytes, ?_, fun hnone => ?_⟩
    · rw [hbytes, Option.some_inj, List.append_right_eq_self, List.drop_eq_nil_iff]
    · unfold leftover
      rw [hnone]

/-- An output without an axis for chunks. -/
def plainHeader : Header := ⟨"v", [⟨"time", none⟩], "K", .empty, none⟩

theorem create_of_mem {made : Except WriterError JsonLines} (h : s ∈ made.toOption) : made = .ok s := by
  cases made with
  | error e => cases h
  | ok made => exact congrArg Except.ok (Option.some.inj h)

theorem eq_ok_of_isOk (h : outcome.isOk = true) : outcome = .ok () := by
  cases outcome with
  | error e => cases h
  | ok => rfl

/-- An output is opened and gets a chunk. -/
def writing : List Request := [] ++ [.openOutput plainHeader] ++ [.writeChunk "v" 0 (.scalar 1)]

/-- When it is closed, its file appears and is its session. -/
theorem closed_file_chunk : ∃ s, create (.startingIn ["home"]) "out" = .ok s ∧
    (writer.after s writing).files.bytesAt (finalPath "out" "v") = none ∧
    (writer.after s (writing ++ [.close "v"])).files.bytesAt (finalPath "out" "v") =
      some (sessionText plainHeader [(0, .scalar 1)]) := by
  have hrun : ∃ s ∈ (create (.startingIn ["home"]) "out").toOption,
      (∀ a ∈ writer.log s (writing ++ [.close "v"]), a.outcome.isOk = true) ∧
        (s.handles.get? "v").isNone = true ∧
        (writer.after s writing).files.bytesAt (finalPath "out" "v") = none := by decide +kernel
  obtain ⟨s, hs, hgranted, hnone, hbefore⟩ := hrun
  have hcreate := create_of_mem hs
  have hok : ∀ a ∈ writer.log s (writing ++ [.close "v"]), a.outcome = .ok () :=
    fun a ha => eq_ok_of_isOk (hgranted a ha)
  have hplain : ∀ q ∈ writing ++ [.close "v"], '/' ∉ q.name.toList := by decide
  have hclosed := (closed_file (FileSystem.wellFormed_startingIn _) hcreate
    (fun a ha path e herror => (by rw [hok a ha] at herror; cases herror))
    (fun q hq hne heq => hne (eq_of_finalPlace_eq (hplain q hq) (by decide) heq))).2 rfl
  unfold writing at hok
  rw [Writer.log_concat, Writer.log_concat, Writer.log_concat] at hok
  simp only [List.mem_append, List.mem_singleton, or_imp, forall_and, forall_eq] at hok
  obtain ⟨⟨⟨-, hopen⟩, hwrite⟩, hclose⟩ := hok
  have hsession := (Session.opened rfl hopen).wrote hwrite
  obtain ⟨before, h, chunks, hlast, -, -, hexact, hempty⟩ := hclosed hclose
  obtain ⟨rfl, rfl, rfl⟩ := hlast.unique hsession
  refine ⟨s, hcreate, hbefore, hexact.mpr ?_⟩
  rw [hempty (Option.isNone_iff_eq_none.mp hnone)]
  exact Nat.zero_le _

/-- An output is opened and gets a chunk, and another output is opened. -/
def interrupted : List Request :=
  [.openOutput plainHeader, .writeChunk "v" 0 (.scalar 1), .openOutput { plainHeader with name := "w" }]

/-- When the output is opened again then and closed, its file keeps the line of the chunk that the old handle held
    back, though the session has none. -/
theorem closed_file_reopened : ∃ s, create (.startingIn ["home"]) "out" = .ok s ∧
    Session s (interrupted ++ [.openOutput plainHeader]) "v" interrupted plainHeader [] ∧
    (writer.after s (interrupted ++ [.openOutput plainHeader] ++ [.close "v"])).files.bytesAt (finalPath "out" "v") =
      some (sessionText plainHeader [] ++ line (chunkJson 0 (.scalar 1))) ∧
    sessionText plainHeader [] ++ line (chunkJson 0 (.scalar 1)) ≠ sessionText plainHeader [] := by
  have hrun : ∃ s ∈ (create (.startingIn ["home"]) "out").toOption,
      (writer.ask (.openOutput plainHeader) (writer.after s interrupted)).2.isOk = true ∧
        (writer.after s (interrupted ++ [.openOutput plainHeader] ++ [.close "v"])).files.bytesAt
          (finalPath "out" "v") = some (sessionText plainHeader [] ++ line (chunkJson 0 (.scalar 1))) := by
    decide +kernel
  obtain ⟨s, hs, hopened, hbytes⟩ := hrun
  refine ⟨s, create_of_mem hs, Session.opened rfl (eq_ok_of_isOk hopened), hbytes, fun heq => ?_⟩
  obtain ⟨body, hbody, -⟩ := isLine_line (chunkJson 0 (.scalar 1))
  rw [List.append_right_eq_self, hbody] at heq
  exact List.append_ne_nil_of_right_ne_nil body (List.cons_ne_nil _ _) heq

end Concord.JsonLines
