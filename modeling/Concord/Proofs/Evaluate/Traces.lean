import Concord.Evaluate.Traced

/-! Reasoning on evaluations: what is known of the result if there is one, what a failure means, and what
    has been given out on the way. -/

namespace Concord.Traced

variable {ε ε' α β σ ι : Type}

/-- What was given out, in order. -/
def emitted (t : Traced ε α) : List (Nat × Grid Double) :=
  t.events.filterMap fun e =>
    match e with
    | .emit index value => some (index, value)
    | .read _ _ => none

/-- What comes out is `Q` with what was given out; what was given out until a failure is `B`. -/
def Emits (t : Traced ε α) (Q : List (Nat × Grid Double) → α → Prop) (B : List (Nat × Grid Double) → Prop) :
    Prop :=
  match t.outcome with
  | .ok a => Q t.emitted a
  | .error _ => B t.emitted

/-- Nothing is given out. What comes out is `Q`, and it fails only if `B`. -/
structure Meets (t : Traced ε α) (Q : α → Prop) (B : Prop) : Prop where
  quiet : t.emitted = []
  outcome : match t.outcome with
    | .ok a => Q a
    | .error _ => B

/-! ### Sequences -/

section
variable {t : Traced ε α} {f : α → Traced ε β}

theorem bind_ok {a : α} (h : t.outcome = .ok a) : (t >>= f).outcome = (f a).outcome := by
  show (t.andThen f).outcome = _
  unfold andThen
  rw [h]

theorem bind_error {e : ε} (h : t.outcome = .error e) : (t >>= f).outcome = .error e := by
  show (t.andThen f).outcome = _
  unfold andThen
  rw [h]

theorem events_bind_ok {a : α} (h : t.outcome = .ok a) : (t >>= f).events = t.events ++ (f a).events := by
  show (t.andThen f).events = _
  unfold andThen
  rw [h]

theorem events_bind_error {e : ε} (h : t.outcome = .error e) : (t >>= f).events = t.events := by
  show (t.andThen f).events = _
  unfold andThen
  rw [h]

theorem andThen_pure : ∀ t : Traced ε α, t >>= pure = t
  | ⟨_, .error _⟩ => rfl
  | ⟨events, .ok a⟩ => congrArg (fun events => (⟨events, .ok a⟩ : Traced ε α)) (List.append_nil events)

theorem andThen_andThen {γ : Type} (g : β → Traced ε γ) : ∀ t : Traced ε α, t >>= f >>= g = t >>= fun a => f a >>= g
  | ⟨_, .error _⟩ => rfl
  | ⟨events, .ok a⟩ => by
    show (andThen ⟨events ++ (f a).events, (f a).outcome⟩ g) = ⟨events ++ ((f a).andThen g).events, ((f a).andThen g).outcome⟩
    unfold andThen
    cases (f a).outcome with
    | error e => rfl
    | ok b => exact congrArg (fun events => (⟨events, (g b).outcome⟩ : Traced ε γ)) (List.append_assoc ..)

instance : LawfulMonad (Traced ε) := LawfulMonad.mk' _ andThen_pure (fun _ _ => rfl) fun t _ g => andThen_andThen g t

theorem bind_outcome_ok {b : β} (h : (t >>= f).outcome = .ok b) :
    ∃ a, t.outcome = .ok a ∧ (f a).outcome = .ok b := by
  cases ht : t.outcome with
  | error e =>
    rw [bind_error ht] at h
    cases h
  | ok a =>
    rw [bind_ok ht] at h
    exact ⟨a, rfl, h⟩

theorem emitted_bind_ok {a : α} (h : t.outcome = .ok a) : (t >>= f).emitted = t.emitted ++ (f a).emitted := by
  unfold emitted
  rw [events_bind_ok h, List.filterMap_append]

theorem emitted_bind_error {e : ε} (h : t.outcome = .error e) : (t >>= f).emitted = t.emitted := by
  unfold emitted
  rw [events_bind_error h]

end

/-! ### What gives out nothing -/

section
variable {t : Traced ε α} {Q : α → Prop} {R : β → Prop} {B : Prop}

theorem Meets.ok {a : α} (h : t.Meets Q B) (ha : t.outcome = .ok a) : Q a := by
  have := h.outcome
  rwa [ha] at this

theorem Meets.error {e : ε} (h : t.Meets Q B) (he : t.outcome = .error e) : B := by
  have := h.outcome
  rwa [he] at this

theorem meets_iff : t.Meets Q B ↔
    t.emitted = [] ∧ (∀ a, t.outcome = .ok a → Q a) ∧ ∀ e, t.outcome = .error e → B := by
  constructor
  · exact fun h => ⟨h.quiet, fun _ => h.ok, fun _ => h.error⟩
  · rintro ⟨hquiet, hok, herror⟩
    refine ⟨hquiet, ?_⟩
    cases ht : t.outcome with
    | ok a => exact hok a ht
    | error e => exact herror e ht

theorem Meets.imp {Q' : α → Prop} {B' : Prop} (h : t.Meets Q B) (hq : ∀ a, Q a → Q' a) (hb : B → B') :
    t.Meets Q' B' :=
  meets_iff.mpr ⟨h.quiet, fun a ha => hq a (h.ok ha), fun _ he => hb (h.error he)⟩

theorem meets_pure {a : α} (h : Q a) : (pure a : Traced ε α).Meets Q B := ⟨rfl, h⟩

theorem meets_fail {e : ε} (h : B) : (fail e : Traced ε α).Meets Q B := ⟨rfl, h⟩

theorem meets_ofExcept {x : Except ε α} (hok : ∀ a, x = .ok a → Q a) (herror : ∀ e, x = .error e → B) :
    (ofExcept x).Meets Q B := meets_iff.mpr ⟨rfl, hok, herror⟩

theorem meets_of_quiet (h : t.emitted = []) :
    t.Meets (fun a => t.outcome.toOption = some a) (t.outcome.toOption = none) := by
  refine meets_iff.mpr ⟨h, fun a ha => ?_, fun e he => ?_⟩
  · rw [ha]
    rfl
  · rw [he]
    rfl

theorem Meets.bind {f : α → Traced ε β} (h : t.Meets Q B) (hf : ∀ a, Q a → (f a).Meets R B) :
    (t >>= f).Meets R B := by
  cases ht : t.outcome with
  | error e =>
    refine meets_iff.mpr ⟨(emitted_bind_error ht).trans h.quiet, fun b hb => ?_, fun _ _ => h.error ht⟩
    rw [bind_error ht] at hb
    cases hb
  | ok a =>
    have ha := hf a (h.ok ht)
    refine meets_iff.mpr ⟨?_, fun b hb => ha.ok ((bind_ok ht).symm.trans hb),
      fun e he => ha.error ((bind_ok ht).symm.trans he)⟩
    rw [emitted_bind_ok ht, h.quiet, ha.quiet]
    rfl

theorem Meets.mapError {f : ε → ε'} (h : t.Meets Q B) : (t.mapError f).Meets Q B := by
  refine ⟨h.quiet, ?_⟩
  have := h.outcome
  unfold Traced.mapError
  dsimp only
  cases ht : t.outcome <;> rw [ht] at this <;> exact this

/-- What holds at the start and is kept by every step holds in the end. -/
theorem meets_foldlM {P : List ι → σ → Prop} {f : σ → ι → Traced ε σ} (all : List ι)
    (hstep : ∀ done i rest s, all = done ++ i :: rest → P done s → (f s i).Meets (P (done ++ [i])) B) :
    ∀ {l done : List ι} {s : σ}, all = done ++ l → P done s → (l.foldlM f s).Meets (P all) B
  | [], done, s, hall, hs => by
    rw [hall, List.append_nil]
    exact meets_pure hs
  | i :: l, done, s, hall, hs => by
    rw [List.foldlM_cons]
    refine (hstep done i l s hall hs).bind fun s' hs' => ?_
    exact meets_foldlM all hstep (by rw [hall, List.append_assoc]; rfl) hs'

end

/-! ### What gives out something -/

section
variable {t : Traced ε α} {Q : List (Nat × Grid Double) → α → Prop} {R : List (Nat × Grid Double) → β → Prop}
  {B : List (Nat × Grid Double) → Prop}

theorem emits_iff : t.Emits Q B ↔
    (∀ a, t.outcome = .ok a → Q t.emitted a) ∧ ∀ e, t.outcome = .error e → B t.emitted := by
  unfold Emits
  cases t.outcome with
  | ok a => exact ⟨fun h => ⟨fun _ ha => Except.ok.inj ha ▸ h, fun _ he => (by cases he)⟩, fun h => h.1 a rfl⟩
  | error e => exact ⟨fun h => ⟨fun _ ha => (by cases ha), fun _ _ => h⟩, fun h => h.2 e rfl⟩

theorem Meets.emits {Q : α → Prop} {B : Prop} (h : t.Meets Q B) : t.Emits (fun es a => es = [] ∧ Q a) fun es => es = [] ∧ B :=
  emits_iff.mpr ⟨fun _ ha => ⟨h.quiet, h.ok ha⟩, fun _ he => ⟨h.quiet, h.error he⟩⟩

theorem Emits.imp {Q' : List (Nat × Grid Double) → α → Prop} {B' : List (Nat × Grid Double) → Prop}
    (h : t.Emits Q B) (hq : ∀ es a, Q es a → Q' es a) (hb : ∀ es, B es → B' es) : t.Emits Q' B' := by
  obtain ⟨hok, herror⟩ := emits_iff.mp h
  exact emits_iff.mpr ⟨fun a ha => hq _ a (hok a ha), fun e he => hb _ (herror e he)⟩

theorem Emits.bind {f : α → Traced ε β} {B' : List (Nat × Grid Double) → Prop} (h : t.Emits Q B)
    (hbad : ∀ es, B es → B' es)
    (hf : ∀ es a, Q es a → (f a).Emits (fun es' => R (es ++ es')) fun es' => B' (es ++ es')) :
    (t >>= f).Emits R B' := by
  obtain ⟨hok, herror⟩ := emits_iff.mp h
  cases ht : t.outcome with
  | error e =>
    refine emits_iff.mpr ⟨fun b hb => ?_, fun _ _ => ?_⟩
    · rw [bind_error ht] at hb
      cases hb
    · rw [emitted_bind_error ht]
      exact hbad _ (herror e ht)
  | ok a =>
    obtain ⟨hok', herror'⟩ := emits_iff.mp (hf _ a (hok a ht))
    refine emits_iff.mpr ⟨fun b hb => ?_, fun e he => ?_⟩ <;> rw [emitted_bind_ok ht]
    · exact hok' b ((bind_ok ht).symm.trans hb)
    · exact herror' e ((bind_ok ht).symm.trans he)

/-- The same with what was given out so far. -/
theorem emits_foldlM {P : List ι → List (Nat × Grid Double) → σ → Prop} {f : σ → ι → Traced ε σ} (all : List ι)
    (hstep : ∀ done i rest es s, all = done ++ i :: rest → P done es s →
      (f s i).Emits (fun es' => P (done ++ [i]) (es ++ es')) fun es' => B (es ++ es')) :
    ∀ {l done : List ι} {es : List (Nat × Grid Double)} {s : σ}, all = done ++ l → P done es s →
      (l.foldlM f s).Emits (fun es' => P all (es ++ es')) fun es' => B (es ++ es')
  | [], done, es, s, hall, hs => by
    refine emits_iff.mpr ⟨fun a ha => ?_, fun e he => by cases he⟩
    cases ha
    rw [hall, List.append_nil]
    exact (List.append_nil es).symm ▸ hs
  | i :: l, done, es, s, hall, hs => by
    rw [List.foldlM_cons]
    refine (hstep done i l es s hall hs).bind (fun _ h => h) fun es' s' hs' => ?_
    have hall' : all = (done ++ [i]) ++ l := by rw [hall, List.append_assoc]; rfl
    have := emits_foldlM all hstep hall' hs'
    simpa only [List.append_assoc] using this

end
end Concord.Traced

/-! What evaluations read: what is known of all readings, and which readings an evaluation that succeeds has
    made. -/

namespace Concord.Traced

variable {ε ε' δ α β γ σ ι : Type}

/-- What was read, in order. -/
def reads (t : Traced ε α) : List Reading :=
  t.events.filterMap fun e =>
    match e with
    | .read name bounds => some (name, bounds)
    | .emit _ _ => none

section
variable {t : Traced ε α} {f : α → Traced ε β}

theorem reads_bind_ok {a : α} (h : t.outcome = .ok a) : (t >>= f).reads = t.reads ++ (f a).reads := by
  simp only [reads, events_bind_ok h, List.filterMap_append]

theorem reads_bind_error {e : ε} (h : t.outcome = .error e) : (t >>= f).reads = t.reads := by
  simp only [reads, events_bind_error h]

end

/-! ### All readings -/

/-- `P` holds of all that is read. -/
def Reads (t : Traced ε α) (P : Reading → Prop) : Prop := ∀ r ∈ t.reads, P r

section
variable {t : Traced ε α} {P : Reading → Prop}

theorem reads_pure {a : α} : (pure a : Traced ε α).Reads P := fun _ h => by cases h

theorem reads_fail {e : ε} : (fail e : Traced ε α).Reads P := fun _ h => by cases h

theorem reads_ofExcept {x : Except ε α} : (ofExcept x).Reads P := fun _ h => by cases h

theorem reads_emit {index : Nat} {g : Grid Double} : (emit index g : Traced ε Unit).Reads P := fun _ h => by cases h

theorem Reads.mapError {f : ε → ε'} (h : t.Reads P) : (t.mapError f).Reads P := h

theorem Reads.bind {f : α → Traced ε β} (h : t.Reads P) (hf : ∀ a, t.outcome = .ok a → (f a).Reads P) :
    (t >>= f).Reads P := by
  intro r hr
  cases ht : t.outcome with
  | error e =>
    rw [reads_bind_error ht] at hr
    exact h r hr
  | ok a =>
    rw [reads_bind_ok ht] at hr
    rcases List.mem_append.mp hr with hr | hr
    · exact h r hr
    · exact hf a ht r hr

theorem reads_foldlM {f : σ → ι → Traced ε σ} :
    ∀ {l : List ι} {s : σ}, (∀ i ∈ l, ∀ s, (f s i).Reads P) → (l.foldlM f s).Reads P
  | [], _, _ => reads_pure
  | i :: l, s, hf => by
    rw [List.foldlM_cons]
    refine (hf i List.mem_cons_self s).bind fun s' _ => ?_
    exact reads_foldlM fun j hj => hf j (List.mem_cons_of_mem _ hj)

end

/-! ### Parts of evaluations -/

/-- An evaluation that succeeds, and what it reads is read by another one. -/
structure Part (u : Traced δ γ) (t : Traced ε α) : Prop where
  ok : ∃ c, u.outcome = .ok c
  reads : u.reads ⊆ t.reads

section
variable {t : Traced ε α} {u : Traced δ γ}

theorem Part.refl {a : α} (h : t.outcome = .ok a) : Part t t := ⟨⟨a, h⟩, List.Subset.refl _⟩

theorem Part.mapError {f : δ → ε'} (h : Part (u.mapError f) t) : Part u t := by
  refine ⟨?_, h.reads⟩
  obtain ⟨c, hc⟩ := h.ok
  cases hu : u.outcome with
  | ok c => exact ⟨c, rfl⟩
  | error e =>
    change u.outcome.mapError f = .ok c at hc
    rw [hu] at hc
    cases hc

/-- Both halves of a sequence are parts. -/
theorem Part.bind {f : γ → Traced δ β} (h : Part (u >>= f) t) :
    Part u t ∧ ∃ c, u.outcome = .ok c ∧ Part (f c) t := by
  obtain ⟨b, hb⟩ := h.ok
  obtain ⟨c, hu, hb⟩ := bind_outcome_ok hb
  have hreads := h.reads
  rw [reads_bind_ok hu] at hreads
  exact ⟨⟨⟨c, hu⟩, List.Subset.trans (List.subset_append_left ..) hreads⟩, c, hu,
    ⟨b, hb⟩, List.Subset.trans (List.subset_append_right ..) hreads⟩

/-- A step of a fold is a part. -/
theorem Part.foldlM {f : σ → ι → Traced δ σ} {i : ι} :
    ∀ {l : List ι} {s : σ}, Part (l.foldlM f s) t → i ∈ l → ∃ s', Part (f s' i) t
  | j :: l, s, h, hi => by
    rw [List.foldlM_cons] at h
    obtain ⟨hfirst, s', -, hrest⟩ := h.bind
    rcases List.mem_cons.mp hi with rfl | hi
    · exact ⟨s, hfirst⟩
    · exact hrest.foldlM hi

/-- What all steps of a fold keep, if they are parts, comes out of it. -/
theorem Part.foldlM_induction {P : List ι → σ → Prop} {f : σ → ι → Traced δ σ} {l : List ι}
    (hstep : ∀ done i s s', i ∈ l → P done s → Part (f s i) t → (f s i).outcome = .ok s' → P (done ++ [i]) s') :
    ∀ (rest done : List ι) {s s' : σ}, l = done ++ rest → P done s → Part (rest.foldlM f s) t →
      (rest.foldlM f s).outcome = .ok s' → P l s'
  | [], done, s, s', hall, hs, _, hok => by
    cases hok
    rwa [hall, List.append_nil]
  | i :: rest, done, s, s', hall, hs, h, hok => by
    rw [List.foldlM_cons] at h hok
    obtain ⟨hfirst, next, hnext, hrest⟩ := h.bind
    rw [bind_ok hnext] at hok
    refine Part.foldlM_induction hstep rest (done ++ [i]) (by rw [hall, List.append_assoc]; rfl) ?_ hrest hok
    exact hstep done i s next (hall ▸ List.mem_append_right _ List.mem_cons_self) hs hfirst hnext

end
end Concord.Traced
