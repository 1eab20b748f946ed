import Mathlib.Data.List.Forall2

/-! Steps that may fail: what is known of them when they have not. -/

namespace Concord

variable {ε α β γ : Type}

theorem bind_eq_ok {x : Except ε α} {f : α → Except ε β} {b : β} :
    (x >>= f) = .ok b ↔ ∃ a, x = .ok a ∧ f a = .ok b := by
  cases x with
  | error e => exact ⟨fun h => (by cases h), fun ⟨_, h, _⟩ => (by cases h)⟩
  | ok a => exact ⟨fun h => ⟨a, rfl, h⟩, fun ⟨_, h, hf⟩ => by cases h; exact hf⟩

theorem bind_eq_error {x : Except ε α} {f : α → Except ε β} {e : ε} :
    (x >>= f) = .error e ↔ x = .error e ∨ ∃ a, x = .ok a ∧ f a = .error e := by
  cases x with
  | error e' => exact ⟨fun h => .inl (by cases h; rfl), fun h => h.elim (fun h => by cases h; rfl) fun ⟨_, h, _⟩ => by cases h⟩
  | ok a => exact ⟨fun h => .inr ⟨a, rfl, h⟩, fun h => h.elim (fun h => by cases h) fun ⟨_, h, hf⟩ => by cases h; exact hf⟩

theorem map_eq_ok {x : Except ε α} {f : α → β} {b : β} :
    x.map f = .ok b ↔ ∃ a, x = .ok a ∧ f a = b := by
  cases x with
  | error e => exact ⟨fun h => (by cases h), fun ⟨_, h, _⟩ => (by cases h)⟩
  | ok a =>
    exact ⟨fun h => ⟨a, rfl, Except.ok.inj h⟩, fun ⟨_, h, hf⟩ => by cases h; exact congrArg _ hf⟩

theorem map_eq_error {x : Except ε α} {f : α → β} {e : ε} : x.map f = .error e ↔ x = .error e := by
  cases x with
  | error e' =>
    exact ⟨fun h => congrArg Except.error (Except.error.inj h), fun h => congrArg Except.error (Except.error.inj h)⟩
  | ok a => exact ⟨fun h => (by cases h), fun h => (by cases h)⟩

/-- Two steps that give the same both succeed or both fail. -/
theorem map_eq_map {x : Except ε α} {y : Except ε β} {f : α → γ} {g : β → γ} (h : x.map f = y.map g) :
    (∃ a b, x = .ok a ∧ y = .ok b ∧ f a = g b) ∨ ∃ e, x = .error e ∧ y = .error e := by
  cases y with
  | error e => exact .inr ⟨e, map_eq_error.mp h, rfl⟩
  | ok b =>
    obtain ⟨a, ha, hab⟩ := map_eq_ok.mp h
    exact .inl ⟨a, b, ha, rfl, hab⟩

theorem map_map (x : Except ε α) (f : α → β) (g : β → γ) : (x.map f).map g = x.map (g ∘ f) := by
  cases x <;> rfl

theorem mapM_eq_ok {f : α → Except ε β} :
    ∀ {l : List α} {l' : List β}, l.mapM f = .ok l' ↔ List.Forall₂ (fun a b => f a = .ok b) l l'
  | [], l' => by
    rw [List.mapM_nil]
    constructor
    · intro h
      cases h
      exact .nil
    · intro h
      cases h
      rfl
  | a :: l, l' => by
    rw [List.mapM_cons, bind_eq_ok]
    constructor
    · rintro ⟨b, hb, h⟩
      obtain ⟨bs, hbs, h⟩ := bind_eq_ok.mp h
      cases h
      exact .cons hb (mapM_eq_ok.mp hbs)
    · intro h
      cases h with
      | cons hb hbs => exact ⟨_, hb, bind_eq_ok.mpr ⟨_, mapM_eq_ok.mpr hbs, rfl⟩⟩

theorem mapM_eq_error {f : α → Except ε β} {e : ε} :
    ∀ {l : List α}, l.mapM f = .error e → ∃ a ∈ l, f a = .error e
  | [], h => by cases h
  | a :: l, h => by
    rw [List.mapM_cons] at h
    cases ha : f a with
    | error e' =>
      rw [ha] at h
      cases h
      exact ⟨a, List.mem_cons_self, ha⟩
    | ok b =>
      rw [ha] at h
      cases hl : l.mapM f with
      | error e' =>
        rw [hl] at h
        cases h
        obtain ⟨a', hmem, ha'⟩ := mapM_eq_error hl
        exact ⟨a', List.mem_cons_of_mem _ hmem, ha'⟩
      | ok bs =>
        rw [hl] at h
        cases h

theorem mapError_eq_ok {ε' : Type} {f : ε → ε'} {x : Except ε α} {a : α} : x.mapError f = .ok a ↔ x = .ok a := by
  cases x with
  | error e => exact ⟨fun h => (by cases h), fun h => (by cases h)⟩
  | ok b => exact ⟨fun h => congrArg Except.ok (Except.ok.inj h), fun h => congrArg Except.ok (Except.ok.inj h)⟩

theorem mapError_eq_error {ε' : Type} {f : ε → ε'} {x : Except ε α} {e' : ε'} (h : x.mapError f = .error e') :
    ∃ e, x = .error e := by
  cases x with
  | error e => exact ⟨e, rfl⟩
  | ok b => cases h

theorem foldlM_cons_eq_ok {f : β → α → Except ε β} {a : α} {l : List α} {b r : β} :
    (a :: l).foldlM f b = .ok r ↔ ∃ b', f b a = .ok b' ∧ l.foldlM f b' = .ok r := by
  rw [List.foldlM_cons]
  exact bind_eq_ok

/-- What holds at the start and is kept by every step that succeeds holds in the end. -/
theorem foldlM_induction {P : List α → β → Prop} {f : β → α → Except ε β} (all : List α)
    (hstep : ∀ done a rest b b', all = done ++ a :: rest → P done b → f b a = .ok b' → P (done ++ [a]) b') :
    ∀ {l done : List α} {b r : β}, all = done ++ l → P done b → l.foldlM f b = .ok r → P all r
  | [], done, b, r, hall, hb, h => by
    cases h
    rwa [hall, List.append_nil]
  | a :: l, done, b, r, hall, hb, h => by
    obtain ⟨b', hb', h⟩ := foldlM_cons_eq_ok.mp h
    exact foldlM_induction all hstep (by rw [hall, List.append_assoc]; rfl)
      (hstep done a l b b' hall hb hb') h

/-- If no step fails, whatever came before it, the whole does not. -/
theorem foldlM_total {f : β → α → Except ε β} :
    ∀ {l : List α}, (∀ a ∈ l, ∀ b, ∃ b', f b a = .ok b') → ∀ b, ∃ r, l.foldlM f b = .ok r
  | [], _, b => ⟨b, rfl⟩
  | a :: l, h, b => by
    obtain ⟨b', hb'⟩ := h a List.mem_cons_self b
    obtain ⟨r, hr⟩ := foldlM_total (fun a' ha' => h a' (List.mem_cons_of_mem a ha')) b'
    exact ⟨r, foldlM_cons_eq_ok.mpr ⟨b', hb', hr⟩⟩

/-! ### Outcomes without the reason of a failure -/

theorem toOption_eq_some {x : Except ε α} {a : α} : x.toOption = some a ↔ x = .ok a := by
  cases x with
  | error e => exact ⟨fun h => (by cases h), fun h => (by cases h)⟩
  | ok b => exact ⟨fun h => congrArg Except.ok (Option.some.inj h), fun h => congrArg some (Except.ok.inj h)⟩

theorem toOption_mapM {f : α → Except ε β} {g : α → Option β} :
    ∀ {l : List α}, (∀ a ∈ l, (f a).toOption = g a) → (l.mapM f).toOption = l.mapM g
  | [], _ => rfl
  | a :: l, h => by
    have ha := h a List.mem_cons_self
    have hl := toOption_mapM fun b hb => h b (List.mem_cons_of_mem _ hb)
    rw [List.mapM_cons, List.mapM_cons, ← ha, ← hl]
    cases f a with
    | error e => rfl
    | ok b => cases l.mapM f <;> rfl

/-- Values that are each changed after they are found are found first. -/
theorem mapM_map_eq {f : α → Option β} {g : α → β → γ} :
    ∀ l : List α, l.mapM (fun a => (f a).map (g a)) = (l.mapM f).map (List.zipWith g l)
  | [] => rfl
  | a :: l => by
    rw [List.mapM_cons, List.mapM_cons, mapM_map_eq l]
    cases f a with
    | none => rfl
    | some b => cases l.mapM f <;> rfl

theorem mapM_congr {m : Type → Type} [Monad m] [LawfulMonad m] {f g : α → m β} :
    ∀ {l : List α}, (∀ a ∈ l, f a = g a) → l.mapM f = l.mapM g
  | [], _ => rfl
  | a :: l, h => by
    rw [List.mapM_cons, List.mapM_cons, h a List.mem_cons_self, mapM_congr fun b hb => h b (List.mem_cons_of_mem _ hb)]

theorem mapM_eq_some {f : α → Option β} :
    ∀ {l : List α} {l' : List β}, l.mapM f = some l' ↔ List.Forall₂ (fun a b => f a = some b) l l'
  | [], l' => by
    rw [List.mapM_nil]
    constructor
    · intro h
      cases h
      exact .nil
    · intro h
      cases h
      rfl
  | a :: l, l' => by
    rw [List.mapM_cons]
    constructor
    · intro h
      obtain ⟨b, hb, h⟩ := Option.bind_eq_some_iff.mp h
      obtain ⟨bs, hbs, h⟩ := Option.bind_eq_some_iff.mp h
      cases h
      exact .cons hb (mapM_eq_some.mp hbs)
    · intro h
      cases h with
      | cons hb hbs =>
        exact Option.bind_eq_some_iff.mpr ⟨_, hb, Option.bind_eq_some_iff.mpr ⟨_, mapM_eq_some.mpr hbs, rfl⟩⟩

theorem getElem?_of_mapM_range {f : Nat → Option β} {n i : Nat} {l : List β} (h : (List.range n).mapM f = some l)
    (hi : i < n) : l[i]? = f i := by
  obtain ⟨hlen, hall⟩ := List.forall₂_iff_get.mp (mapM_eq_some.mp h)
  rw [List.length_range] at hlen
  have := hall i (by rwa [List.length_range]) (hlen ▸ hi)
  rw [List.getElem?_eq_getElem (hlen ▸ hi)]
  simpa using this.symm

theorem mapM_eq_none {g : α → Option β} {a : α} : ∀ {l : List α}, a ∈ l → g a = none → l.mapM g = none
  | b :: l, h, ha => by
    rw [List.mapM_cons]
    rcases List.mem_cons.mp h with rfl | h
    · rw [ha]
      rfl
    · rw [mapM_eq_none h ha]
      cases g b <;> rfl

theorem exists_of_mapM_eq_none {g : α → Option β} : ∀ {l : List α}, l.mapM g = none → ∃ a ∈ l, g a = none
  | [], h => by cases h
  | a :: l, h => by
    cases ha : g a with
    | none => exact ⟨a, List.mem_cons_self, ha⟩
    | some b =>
      cases hl : l.mapM g with
      | none =>
        obtain ⟨a', hmem, ha'⟩ := exists_of_mapM_eq_none hl
        exact ⟨a', List.mem_cons_of_mem _ hmem, ha'⟩
      | some bs => simp [List.mapM_cons, ha, hl] at h

end Concord
