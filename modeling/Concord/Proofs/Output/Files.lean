import Concord.Proofs.Outcome
import Concord.Proofs.Output.Places

/-! What operations on files do: each is told by the entries behind it, one by one, and by the bytes of each file. What
    a path leads to depends on the directories and on the entry in its place. -/

namespace Concord.FileSystem

variable {fs fs' : FileSystem} {path source target : String} {p q place : Path} {e : Entry} {n m offset : Nat}
  {data bytes : List UInt8}

/-! ### Entries -/

theorem entry?_of_ne_nil (fs : FileSystem) (hp : p ≠ []) : fs.entry? p = fs.entries.lookup p := by
  unfold entry?
  rw [if_neg (by simpa using hp)]

theorem ne_nil_of_file (h : fs.entry? p = some (.file n)) : p ≠ [] := by
  rintro rfl
  cases h

theorem lookup_filter_ne (l : List (Path × Entry)) (p q : Path) :
    (l.filter fun x => x.1 ≠ p).lookup q = if q = p then none else l.lookup q := by
  induction l with
  | nil => simp
  | cons x l ih =>
    obtain ⟨k, e⟩ := x
    by_cases hk : k = p
    · rw [List.filter_cons_of_neg (by simpa using hk), ih, List.lookup_cons]
      split
      · rfl
      · rename_i hq
        have hne : (q == k) = false := beq_eq_false_iff_ne.mpr fun h => hq (h.trans hk)
        rw [hne]
    · rw [List.filter_cons_of_pos (by simpa using hk), List.lookup_cons, List.lookup_cons, ih]
      by_cases hq : q = k
      · subst hq
        simp [hk]
      · have hne : (q == k) = false := beq_eq_false_iff_ne.mpr hq
        rw [hne]

theorem entry?_setEntry (fs : FileSystem) (hp : p ≠ []) (e : Entry) (q : Path) :
    entry? (fs.setEntry p e) q = if q = p then some e else fs.entry? q := by
  by_cases hq : q = []
  · subst hq
    rw [if_neg (Ne.symm hp)]
    rfl
  · rw [entry?_of_ne_nil _ hq, entry?_of_ne_nil _ hq, setEntry, List.lookup_cons, lookup_filter_ne]
    by_cases heq : q = p
    · simp [heq]
    · have hne : (q == p) = false := beq_eq_false_iff_ne.mpr heq
      simp [hne, heq]

theorem entry?_removeEntry (fs : FileSystem) (hp : p ≠ []) (q : Path) :
    entry? (fs.removeEntry p) q = if q = p then none else fs.entry? q := by
  by_cases hq : q = []
  · subst hq
    rw [if_neg (Ne.symm hp)]
    rfl
  · rw [entry?_of_ne_nil _ hq, entry?_of_ne_nil _ hq, removeEntry, lookup_filter_ne]

/-- A file has one place and its bytes. -/
structure WellFormed (fs : FileSystem) : Prop where
  inside : ∀ p n, fs.entry? p = some (.file n) → n < fs.contents.length
  single : ∀ p q n, fs.entry? p = some (.file n) → fs.entry? q = some (.file n) → p = q

/-! ### Following paths -/

theorem read_eq_ok {r : Route} (h : Route.read path = .ok r) : r = Route.ofText path := by
  unfold Route.read at h
  split at h
  · cases h
  split at h
  · cases h
  split at h
  · cases h
  · exact (Except.ok.inj h).symm

theorem place_eq {r : Route} {s : Spot} (hread : Route.read path = .ok r) (h : fs.locate r = .ok s) :
    s.place = placeOf fs.here path := by
  rw [locate_place h, read_eq_ok hread]
  rfl

theorem entryAt_eq_ok {s : Spot} {entry : Option Entry} :
    fs.entryAt s = .ok entry ↔ s.last.forM checkLength = .ok () ∧ fs.entry? s.place = entry := by
  unfold entryAt
  rw [bind_eq_ok]
  constructor
  · rintro ⟨_, hlen, h⟩
    exact ⟨hlen, Except.ok.inj h⟩
  · rintro ⟨hlen, rfl⟩
    exact ⟨(), hlen, rfl⟩

/-- A spot with a name is not the root. -/
theorem place_ne_nil {s : Spot} (h : s.isNamed = true) : s.place ≠ [] := by
  unfold Spot.isNamed at h
  unfold Spot.place
  cases hlast : s.last with
  | none => simp [hlast] at h
  | some name =>
    simp only [hlast, Option.any_some, Bool.and_eq_true, decide_eq_true_eq] at h
    dsimp only
    rw [step, if_neg h.1, if_neg h.2]
    exact List.append_ne_nil_of_right_ne_nil _ (List.cons_ne_nil _ _)

/-! ### Reading -/

/-- A path can be followed to a place in which there may be a file. -/
def Reaches (fs : FileSystem) (path : String) : Prop := ∃ r s, Route.read path = .ok r ∧ fs.locate r = .ok s ∧
  s.last.forM checkLength = .ok () ∧ s.slash = false

/-- The bytes that are read at a path, if a file is there. -/
def bytesAt (fs : FileSystem) (path : String) : Option (List UInt8) :=
  match (Route.read path).bind fs.find with
  | .ok (.file n) => some (fs.bytes n)
  | _ => none

theorem find_eq_file {r : Route} : fs.find r = .ok (.file n) ↔ ∃ s, fs.locate r = .ok s ∧
    s.last.forM checkLength = .ok () ∧ s.slash = false ∧ fs.entry? s.place = some (.file n) := by
  unfold find
  rw [bind_eq_ok]
  refine exists_congr fun s => and_congr_right fun _ => ?_
  rw [bind_eq_ok]
  constructor
  · rintro ⟨entry, hentry, h⟩
    obtain ⟨hlen, hplace⟩ := entryAt_eq_ok.mp hentry
    rcases entry with _ | _ | m
    · cases h
    · cases h
    · cases hs : s.slash with
      | true => simp [hs] at h
      | false =>
        simp only [hs, Bool.false_eq_true, if_false, Except.ok.injEq, Entry.file.injEq] at h
        exact ⟨hlen, rfl, h ▸ hplace⟩
  · rintro ⟨hlen, hs, hplace⟩
    exact ⟨_, entryAt_eq_ok.mpr ⟨hlen, hplace⟩, by simp [hs]⟩

/-- What is read at a path that reaches its place are the bytes of the file there. -/
theorem bytesAt_eq_some : fs.bytesAt path = some bytes ↔
    fs.Reaches path ∧ ∃ n, fs.entry? (placeOf fs.here path) = some (.file n) ∧ fs.bytes n = bytes := by
  have hfind : fs.bytesAt path = some bytes ↔ ∃ n r, Route.read path = .ok r ∧ fs.find r = .ok (.file n) ∧
      fs.bytes n = bytes := by
    unfold bytesAt
    constructor
    · intro h
      split at h
      · rename_i n hn
        obtain ⟨r, hread, hr⟩ := bind_eq_ok.mp hn
        exact ⟨n, r, hread, hr, Option.some.inj h⟩
      · cases h
    · rintro ⟨n, r, hread, hr, rfl⟩
      rw [show (Route.read path).bind fs.find = .ok (.file n) from bind_eq_ok.mpr ⟨r, hread, hr⟩]
  rw [hfind]
  constructor
  · rintro ⟨n, r, hread, hr, hbytes⟩
    obtain ⟨s, hlocate, hlen, hslash, hplace⟩ := find_eq_file.mp hr
    exact ⟨⟨r, s, hread, hlocate, hlen, hslash⟩, n, place_eq hread hlocate ▸ hplace, hbytes⟩
  · rintro ⟨⟨r, s, hread, hlocate, hlen, hslash⟩, n, hplace, hbytes⟩
    exact ⟨n, r, hread, find_eq_file.mpr ⟨s, hlocate, hlen, hslash, (place_eq hread hlocate).symm ▸ hplace⟩, hbytes⟩

/-- The directories are the same. -/
structure Alike (fs fs' : FileSystem) : Prop where
  here : fs'.here = fs.here
  directory : ∀ p, fs'.entry? p = some .directory ↔ fs.entry? p = some .directory

namespace Alike

theorem refl (fs : FileSystem) : Alike fs fs := ⟨rfl, fun _ => Iff.rfl⟩

theorem trans {fs'' : FileSystem} (h : Alike fs fs') (h' : Alike fs' fs'') : Alike fs fs'' :=
  ⟨h'.here.trans h.here, fun p => (h'.directory p).trans (h.directory p)⟩

theorem follow (h : Alike fs fs') : ∀ (steps : List String) (base : Path),
    fs'.follow base steps = .ok place ↔ fs.follow base steps = .ok place
  | [], base => Iff.rfl
  | name :: rest, base => by
    rw [follow_cons, follow_cons, h.directory, follow h rest]

theorem reaches (h : Alike fs fs') : fs'.Reaches path ↔ fs.Reaches path := by
  have hlocate : ∀ r s, fs'.locate r = .ok s ↔ fs.locate r = .ok s := by
    intro r s
    unfold locate
    rw [bind_eq_ok, bind_eq_ok, h.here]
    exact exists_congr fun parent => and_congr_left fun _ => h.follow _ _
  unfold Reaches
  simp only [hlocate]

/-- A path reads the same where the entry in its place is the same, and its bytes. -/
theorem bytesAt (h : Alike fs fs') (hentry : fs'.entry? (placeOf fs.here path) = fs.entry? (placeOf fs.here path))
    (hbytes : ∀ n, fs.entry? (placeOf fs.here path) = some (.file n) → fs'.bytes n = fs.bytes n) :
    fs'.bytesAt path = fs.bytesAt path := by
  refine Option.ext fun bytes => ?_
  rw [bytesAt_eq_some, bytesAt_eq_some, h.reaches, h.here, hentry]
  refine and_congr_right fun _ => exists_congr fun n => and_congr_right fun hn => ?_
  rw [hbytes n hn]

end Alike

/-! ### Changing -/

/-- Creating a file empties the one in its place, or adds one. -/
theorem create_eq_ok (h : fs.create path = .ok (fs', n)) :
    placeOf fs.here path ≠ [] ∧
      (fs.entry? (placeOf fs.here path) = some (.file n) ∧ fs' = { fs with contents := fs.contents.set n [] } ∨
        fs.entry? (placeOf fs.here path) = none ∧ n = fs.contents.length ∧
          fs' = { fs.setEntry (placeOf fs.here path) (.file n) with contents := fs.contents ++ [[]] }) := by
  unfold create at h
  obtain ⟨r, hread, h⟩ := bind_eq_ok.mp h
  obtain ⟨s, hlocate, h⟩ := bind_eq_ok.mp h
  rw [← place_eq hread hlocate]
  split at h
  · cases h
  rename_i hnamed
  have hne : s.place ≠ [] := place_ne_nil (by simp_all)
  obtain ⟨entry, hentry, h⟩ := bind_eq_ok.mp h
  rw [(entryAt_eq_ok.mp hentry).2]
  split at h
  · cases h
  · cases h
    exact ⟨hne, .inl ⟨rfl, rfl⟩⟩
  · cases h
    exact ⟨hne, .inr ⟨rfl, rfl, rfl⟩⟩

/-- Moving a file takes it from its place to another one, in which there is no directory. -/
theorem rename_eq_ok (h : fs.rename source target = .ok fs') : fs.Reaches target ∧
    fs.entry? (placeOf fs.here target) ≠ some .directory ∧ ∃ n, fs.entry? (placeOf fs.here source) = some (.file n) ∧
      fs' = (fs.removeEntry (placeOf fs.here source)).setEntry (placeOf fs.here target) (.file n) := by
  unfold rename at h
  obtain ⟨r, hread, h⟩ := bind_eq_ok.mp h
  obtain ⟨s, hlocate, h⟩ := bind_eq_ok.mp h
  obtain ⟨r', hread', h⟩ := bind_eq_ok.mp h
  obtain ⟨t, hlocate', h⟩ := bind_eq_ok.mp h
  obtain ⟨entry, hentry, h⟩ := bind_eq_ok.mp h
  obtain ⟨entry', hentry', h⟩ := bind_eq_ok.mp h
  rw [← place_eq hread hlocate, ← place_eq hread' hlocate', (entryAt_eq_ok.mp hentry).2]
  obtain ⟨hlen, htarget⟩ := entryAt_eq_ok.mp hentry'
  rcases entry with _ | _ | n
  · cases h
  · cases h
  have hdirectory : entry' ≠ some .directory := by
    rintro rfl
    cases h
  have hmoved : (if s.slash || t.slash then Except.error FileError.notDirectory
      else .ok ((fs.removeEntry s.place).setEntry t.place (.file n))) = Except.ok fs' := by
    rcases entry' with _ | _ | n'
    · exact h
    · exact absurd rfl hdirectory
    · exact h
  split at hmoved
  · cases hmoved
  · rename_i hslash
    exact ⟨⟨r', t, hread', hlocate', hlen, by simp_all⟩, htarget ▸ hdirectory, n, rfl, (Except.ok.inj hmoved).symm⟩

/-- A file was created in a place: it is empty, and the one that was there or a new one. -/
structure Created (fs : FileSystem) (place : Path) (fs' : FileSystem) (n : Nat) : Prop where
  alike : Alike fs fs'
  entry : ∀ q, fs'.entry? q = if q = place then some (.file n) else fs.entry? q
  origin : fs.entry? place = some (.file n) ∨ fs.entry? place = none ∧ n = fs.contents.length
  empty : fs'.bytes n = []
  size : fs.contents.length ≤ fs'.contents.length
  inside : n < fs'.contents.length
  others : ∀ m, m ≠ n → fs'.bytes m = fs.bytes m

theorem WellFormed.created (hfs : fs.WellFormed) (h : fs.create path = .ok (fs', n)) :
    Created fs (placeOf fs.here path) fs' n := by
  obtain ⟨hne, ⟨hentry, rfl⟩ | ⟨hnone, rfl, rfl⟩⟩ := create_eq_ok h
  · have hlt := hfs.inside _ n hentry
    refine ⟨⟨rfl, fun _ => Iff.rfl⟩, fun q => ?_, .inl hentry, ?_, by simp, by simpa using hlt, fun m hm => ?_⟩
    · split
      · rename_i hq
        exact hq ▸ hentry
      · rfl
    · simp [bytes, hlt]
    · simp [bytes, Ne.symm hm]
  · have hentry := entry?_setEntry fs hne (.file fs.contents.length)
    refine ⟨⟨rfl, fun q => ?_⟩, hentry, .inr ⟨hnone, rfl⟩, ?_, by simp, by simp, fun m hm => ?_⟩
    · refine (Eq.congr_left (hentry q)).trans ?_
      split
      · rename_i hq
        simp [hq, hnone]
      · rfl
    · simp [bytes]
    · unfold bytes
      rw [List.getD_eq_getElem?_getD, List.getD_eq_getElem?_getD]
      rcases Nat.lt_or_gt_of_ne hm with hlt | hgt
      · rw [List.getElem?_append_left hlt]
      · rw [List.getElem?_eq_none (by rw [List.length_append]; exact hgt), List.getElem?_eq_none (Nat.le_of_lt hgt)]

theorem Created.wellFormed {place : Path} (h : Created fs place fs' n) (hfs : fs.WellFormed) : fs'.WellFormed where
  inside p m hp := by
    rw [h.entry] at hp
    split at hp
    · cases hp
      exact h.inside
    · exact Nat.lt_of_lt_of_le (hfs.inside p m hp) h.size
  single p q m hp hq := by
    have hother : ∀ p, p ≠ place → fs.entry? p ≠ some (.file n) := by
      intro p hp hentry
      rcases h.origin with horigin | ⟨-, rfl⟩
      · exact hp (hfs.single p place n hentry horigin)
      · exact Nat.lt_irrefl _ (hfs.inside p _ hentry)
    rw [h.entry] at hp hq
    split at hp <;> split at hq
    · simp_all
    · cases hp
      exact absurd hq (hother q ‹_›)
    · cases hq
      exact absurd hp (hother p ‹_›)
    · exact hfs.single p q m hp hq

/-- A file was moved from one place to another. -/
structure Moved (fs : FileSystem) (source target : Path) (fs' : FileSystem) (n : Nat) : Prop where
  alike : Alike fs fs'
  origin : fs.entry? source = some (.file n)
  entry : ∀ q, fs'.entry? q = if q = target then some (.file n) else if q = source then none else fs.entry? q
  contents : fs'.contents = fs.contents

theorem moved (h : fs.rename source target = .ok fs') :
    fs.Reaches target ∧ ∃ n, Moved fs (placeOf fs.here source) (placeOf fs.here target) fs' n := by
  obtain ⟨hreaches, hdirectory, n, hsource, rfl⟩ := rename_eq_ok h
  have htarget : placeOf fs.here target ≠ [] := fun hnil => hdirectory (by rw [hnil]; rfl)
  have hentry : ∀ q, _ = _ := fun q =>
    (entry?_setEntry (fs.removeEntry (placeOf fs.here source)) htarget (.file n) q).trans
      (if_congr Iff.rfl rfl (entry?_removeEntry fs (ne_nil_of_file hsource) q))
  refine ⟨hreaches, n, ⟨rfl, fun q => ?_⟩, hsource, hentry, rfl⟩
  rw [hentry]
  split
  · rename_i hq
    simp [hq, hdirectory]
  · split
    · rename_i hq
      simp [hq, hsource]
    · rfl

theorem Moved.wellFormed {source target : Path} (h : Moved fs source target fs' n) (hfs : fs.WellFormed) :
    fs'.WellFormed where
  inside p m hp := by
    rw [h.entry] at hp
    rw [h.contents]
    split at hp
    · cases hp
      exact hfs.inside source n h.origin
    · split at hp
      · cases hp
      · exact hfs.inside p m hp
  single p q m hp hq := by
    have hother : ∀ p, p ≠ source → fs.entry? p ≠ some (.file n) := fun p hp hentry =>
      hp (hfs.single p source n hentry h.origin)
    rw [h.entry] at hp hq
    split at hp <;> split at hq
    · simp_all
    · cases hp
      split at hq
      · cases hq
      · exact absurd hq (hother q ‹_›)
    · cases hq
      split at hp
      · cases hp
      · exact absurd hp (hother p ‹_›)
    · split at hp <;> split at hq
      · cases hp
      · cases hp
      · cases hq
      · exact hfs.single p q m hp hq

/-- Nothing was changed but the bytes of one file. -/
structure Written (fs : FileSystem) (n : Nat) (fs' : FileSystem) : Prop where
  here : fs'.here = fs.here
  entries : fs'.entries = fs.entries
  size : fs'.contents.length = fs.contents.length
  others : ∀ m, m ≠ n → fs'.bytes m = fs.bytes m

namespace Written

theorem refl (fs : FileSystem) (n : Nat) : Written fs n fs := ⟨rfl, rfl, rfl, fun _ _ => rfl⟩

theorem trans {fs'' : FileSystem} (h : Written fs n fs') (h' : Written fs' n fs'') : Written fs n fs'' :=
  ⟨h'.here.trans h.here, h'.entries.trans h.entries, h'.size.trans h.size,
    fun m hm => (h'.others m hm).trans (h.others m hm)⟩

theorem entry (h : Written fs n fs') (p : Path) : fs'.entry? p = fs.entry? p := by
  unfold entry?
  rw [h.entries]

theorem alike (h : Written fs n fs') : Alike fs fs' := ⟨h.here, fun p => by rw [h.entry]⟩

theorem wellFormed (h : Written fs n fs') (hfs : fs.WellFormed) : fs'.WellFormed where
  inside p m hp := h.size.symm ▸ hfs.inside p m (h.entry p ▸ hp)
  single p q m hp hq := hfs.single p q m (h.entry p ▸ hp) (h.entry q ▸ hq)

end Written

theorem written (fs : FileSystem) (n offset : Nat) (data : List UInt8) : Written fs n (fs.write n offset data) :=
  ⟨rfl, rfl, List.length_set, fun m hm => by simp [bytes, write, Ne.symm hm]⟩

/-- The bytes of a file that is written to, from a place within it on. -/
theorem bytes_write (h : n < fs.contents.length) (offset : Nat) (data : List UInt8) :
    (fs.write n offset data).bytes n = (fs.bytes n).take offset ++
      List.replicate (offset - (fs.bytes n).length) 0 ++ data ++ (fs.bytes n).drop (offset + data.length) := by
  simp [bytes, write, h]

/-! ### Directories -/

theorem WellFormed.makeDirectory {r : Route} (hfs : fs.WellFormed) (h : fs.makeDirectory r = .ok fs') :
    fs'.WellFormed := by
  unfold FileSystem.makeDirectory at h
  obtain ⟨s, hlocate, h⟩ := bind_eq_ok.mp h
  split at h
  · cases h
  rename_i hnamed
  have hne : s.place ≠ [] := place_ne_nil (by simpa using hnamed)
  obtain ⟨entry, hentry, h⟩ := bind_eq_ok.mp h
  cases entry with
  | some e => cases h
  | none =>
    obtain rfl := Except.ok.inj h
    have hfile : ∀ p n, entry? (fs.setEntry s.place .directory) p = some (.file n) → fs.entry? p = some (.file n) := by
      intro p n hp
      rw [entry?_setEntry fs hne] at hp
      split at hp
      · cases hp
      · exact hp
    exact ⟨fun p n hp => hfs.inside p n (hfile p n hp),
      fun p q n hp hq => hfs.single p q n (hfile p n hp) (hfile q n hq)⟩

theorem WellFormed.ensureDirectory {r : Route} (hfs : fs.WellFormed) (h : fs.ensureDirectory r = .ok fs') :
    fs'.WellFormed := by
  unfold FileSystem.ensureDirectory at h
  split at h
  · rename_i made hmade
    cases h
    exact hfs.makeDirectory hmade
  · split at h
    · cases h
      exact hfs
    · cases h

theorem WellFormed.ensureAll : ∀ {rs : List Route} {fs' : FileSystem}, fs.WellFormed → fs.ensureAll rs = .ok fs' →
    fs'.WellFormed
  | [], _, hfs, h => by
    cases h
    exact hfs
  | r :: above, fs', hfs, h => by
    rw [FileSystem.ensureAll] at h
    split at h
    · obtain ⟨made, hmade, h⟩ := bind_eq_ok.mp h
      exact (ensureAll hfs hmade).ensureDirectory h
    · exact hfs.ensureDirectory h

/-- Making directories leaves all files where they are. -/
theorem WellFormed.makeDirectories (hfs : fs.WellFormed) (h : fs.makeDirectories path = .ok fs') : fs'.WellFormed := by
  unfold FileSystem.makeDirectories at h
  obtain ⟨r, -, h⟩ := bind_eq_ok.mp h
  exact hfs.ensureAll h

/-- Without files there is nothing to keep apart. -/
theorem wellFormed_startingIn (here : Path) : (startingIn here).WellFormed := by
  have hfile : ∀ p n, entry? (startingIn here) p ≠ some (.file n) := by
    intro p n hp
    rw [entry?_of_ne_nil _ (ne_nil_of_file hp)] at hp
    obtain ⟨before, after, hsplit, -⟩ := List.lookup_eq_some_iff.mp hp
    have hmem : (p, Entry.file n) ∈ (startingIn here).entries := by
      rw [hsplit]
      exact List.mem_append_right _ List.mem_cons_self
    obtain ⟨i, -, heq⟩ := List.mem_map.mp hmem
    cases heq
  exact ⟨fun p n hp => absurd hp (hfile p n), fun p _ n hp => absurd hp (hfile p n)⟩

/-! ### Changes within some places -/

/-- Nothing was changed but what stands in some places, and the bytes of the files there and of others that are open. -/
structure Within (places : Path → Prop) (opened : Nat → Prop) (fs fs' : FileSystem) : Prop where
  wellFormed : fs'.WellFormed
  alike : Alike fs fs'
  entry : ∀ p, ¬places p → fs'.entry? p = fs.entry? p
  origin : ∀ p n, places p → fs'.entry? p = some (.file n) →
    (∃ q, places q ∧ fs.entry? q = some (.file n)) ∨ fs.contents.length ≤ n
  size : fs.contents.length ≤ fs'.contents.length
  bytes : ∀ n < fs.contents.length, ¬opened n → (∀ p, places p → fs.entry? p ≠ some (.file n)) →
    fs'.bytes n = fs.bytes n

namespace Within

variable {places : Path → Prop} {opened : Nat → Prop}

theorem refl (hfs : fs.WellFormed) : Within places opened fs fs where
  wellFormed := hfs
  alike := .refl fs
  entry _ _ := rfl
  origin p _ hp hn := .inl ⟨p, hp, hn⟩
  size := Nat.le_refl _
  bytes _ _ _ _ := rfl

theorem trans {fs'' : FileSystem} (h : Within places opened fs fs') (h' : Within places opened fs' fs'') :
    Within places opened fs fs'' where
  wellFormed := h'.wellFormed
  alike := h.alike.trans h'.alike
  entry p hp := (h'.entry p hp).trans (h.entry p hp)
  origin p n hp hn := by
    rcases h'.origin p n hp hn with ⟨q, hq, hn'⟩ | hle
    · exact h.origin q n hq hn'
    · exact .inr (Nat.le_trans h.size hle)
  size := Nat.le_trans h.size h'.size
  bytes n hlt hopened hplaces := by
    have hplaces' : ∀ p, places p → fs'.entry? p ≠ some (.file n) := by
      intro p hp hn
      rcases h.origin p n hp hn with ⟨q, hq, hn'⟩ | hle
      · exact hplaces q hq hn'
      · exact Nat.lt_irrefl n (Nat.lt_of_lt_of_le hlt hle)
    rw [h'.bytes n (Nat.lt_of_lt_of_le hlt h.size) hopened hplaces', h.bytes n hlt hopened hplaces]

theorem of_written (hfs : fs.WellFormed) (h : Written fs n fs')
    (hn : opened n ∨ ∃ p, places p ∧ fs.entry? p = some (.file n)) : Within places opened fs fs' where
  wellFormed := h.wellFormed hfs
  alike := h.alike
  entry p _ := h.entry p
  origin p m hp hm := .inl ⟨p, hp, h.entry p ▸ hm⟩
  size := Nat.le_of_eq h.size.symm
  bytes m hlt hopened hplaces := by
    refine h.others m ?_
    rintro rfl
    rcases hn with hn | ⟨p, hp, hn⟩
    · exact hopened hn
    · exact hplaces p hp hn

theorem of_created (hfs : fs.WellFormed) (h : Created fs place fs' n) (hplace : places place) :
    Within places opened fs fs' where
  wellFormed := h.wellFormed hfs
  alike := h.alike
  entry p hp := by
    have hne : p ≠ place := fun heq => hp (heq ▸ hplace)
    rw [h.entry, if_neg hne]
  origin p m hp hm := by
    rw [h.entry] at hm
    split at hm
    · cases hm
      rcases h.origin with horigin | ⟨-, heq⟩
      · exact .inl ⟨place, hplace, horigin⟩
      · exact .inr (Nat.le_of_eq heq.symm)
    · exact .inl ⟨p, hp, hm⟩
  size := h.size
  bytes m hlt hopened hplaces := by
    refine h.others m ?_
    rintro rfl
    rcases h.origin with horigin | ⟨-, heq⟩
    · exact hplaces place hplace horigin
    · exact absurd hlt (heq ▸ Nat.lt_irrefl _)

theorem of_moved {source target : Path} (hfs : fs.WellFormed) (h : Moved fs source target fs' n)
    (hsource : places source) (htarget : places target) : Within places opened fs fs' where
  wellFormed := h.wellFormed hfs
  alike := h.alike
  entry p hp := by
    have hne : p ≠ target := fun heq => hp (heq ▸ htarget)
    have hne' : p ≠ source := fun heq => hp (heq ▸ hsource)
    rw [h.entry, if_neg hne, if_neg hne']
  origin p m hp hm := by
    rw [h.entry] at hm
    split at hm
    · cases hm
      exact .inl ⟨source, hsource, h.origin⟩
    · split at hm
      · cases hm
      · exact .inl ⟨p, hp, hm⟩
  size := Nat.le_of_eq (congrArg List.length h.contents).symm
  bytes m _ _ _ := by
    unfold FileSystem.bytes
    rw [h.contents]

end Within
end Concord.FileSystem
