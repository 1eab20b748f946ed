import Concord.Proofs.Schedule.Isolation

/-! What becomes of the selected names before anything is evaluated: each is settled with a status, or enlisted
    as a job of its name. -/

namespace Concord

variable {name : String}

namespace Conformance

variable {t : Conformance}

theorem prepare_name {target : Target} {j : Job} (h : t.prepare t.compile name target = .ok j) :
    j.name = name ∧ j.header.name = j.name := by
  obtain ⟨v, plan, hv, -, rfl⟩ := prepare_eq_ok h
  obtain ⟨w, hw, hv⟩ := resolveIn_eq_ok hv
  obtain ⟨p, -, hv⟩ := bind_eq_ok.mp hv
  obtain ⟨r, -, hv⟩ := bind_eq_ok.mp hv
  cases hv
  exact ⟨(Compilation.compile_graphOf hw).named, rfl⟩

/-! ### One name -/

/-- A name is settled with a status, or a job of the name is enlisted, whatever came before. -/
inductive Choice (t : Conformance) (has : String → Bool) (name : String) : Prop
  | settled (s : Status) (hs : ∀ n, s ≠ .succeeded n) (h : ∀ p, t.enlist t.compile has p name = p.settle name s)
  | enlisted (j : Job) (target : Target) (hj : t.prepare t.compile name target = .ok j)
      (h : ∀ p, t.enlist t.compile has p name = { p with jobs := p.jobs ++ [j] })

theorem choice (t : Conformance) (has : String → Bool) (name : String) : Choice t has name := by
  cases htarget : t.standard.get? name with
  | none =>
    exact .settled (.skipped "not in the standard") (fun _ => Status.noConfusion) fun p => by rw [enlist, htarget]
  | some target =>
    by_cases hdefined : (!t.definitions.contains name) = true
    · exact .settled (.skipped "no definition") (fun _ => Status.noConfusion) fun p => by
        rw [enlist, htarget]
        exact if_pos hdefined
    by_cases hskip : (has name && t.config.overwrite = .skip) = true
    · exact .settled (.skipped "output exists") (fun _ => Status.noConfusion) fun p => by
        simp only [enlist, htarget, if_neg hdefined, if_pos hskip]
    by_cases hfail : (has name && t.config.overwrite = .fail) = true
    · exact .settled (.ofFailure (.outputExists name)) (fun _ => Status.noConfusion) fun p => by
        simp only [enlist, htarget, if_neg hdefined, if_neg hskip, if_pos hfail]
    cases hprepare : t.prepare t.compile name target with
    | ok j =>
      exact .enlisted j target hprepare fun p => by
        simp only [enlist, htarget, if_neg hdefined, if_neg hskip, if_neg hfail, hprepare]
    | error f =>
      exact .settled (.ofFailure f) (fun _ => Status.noConfusion) fun p => by
        simp only [enlist, htarget, if_neg hdefined, if_neg hskip, if_neg hfail, hprepare]

/-! ### All names -/

/-- Nothing is known of any variable. -/
def Progress.none : Progress := ⟨.empty, []⟩

/-- The report and the jobs of some names. -/
def enlistAll (t : Conformance) (has : String → Bool) (names : List String) (p : Progress) : Progress :=
  names.foldl (t.enlist t.compile has) p

/-- Enlisting adds jobs of the names, and says nothing of others. -/
theorem enlistAll_adds (t : Conformance) (has : String → Bool) : ∀ (names : List String) (p : Progress), ∃ jobs,
    (t.enlistAll has names p).jobs = p.jobs ++ jobs ∧
      (∀ j ∈ jobs, j.name ∈ names ∧ ∃ target, t.prepare t.compile j.name target = .ok j) ∧
      ∀ key, key ∉ names → (t.enlistAll has names p).report.get? key = p.report.get? key
  | [], p => ⟨[], (List.append_nil _).symm, fun _ h => (nomatch h), fun _ _ => rfl⟩
  | name :: names, p => by
    obtain ⟨jobs, hjobs, hnames, hreport⟩ := enlistAll_adds t has names (t.enlist t.compile has p name)
    have hcons : t.enlistAll has (name :: names) p = t.enlistAll has names (t.enlist t.compile has p name) := rfl
    rw [hcons, hjobs]
    cases t.choice has name with
    | settled s hs h =>
      refine ⟨jobs, by rw [h]; rfl, fun j hj => (hnames j hj).imp_left (List.mem_cons_of_mem _), fun key hkey => ?_⟩
      rw [List.mem_cons, not_or] at hkey
      rw [hreport key hkey.2, h]
      exact Coordinator.get?_record_ne hkey.1
    | enlisted j target hj h =>
      refine ⟨j :: jobs, by rw [h, List.append_assoc]; rfl, fun j' hj' => ?_, fun key hkey => ?_⟩
      · rcases List.mem_cons.mp hj' with rfl | hj'
        · have hname := (prepare_name hj).1
          exact ⟨hname ▸ List.mem_cons_self, target, hname.symm ▸ hj⟩
        · exact (hnames j' hj').imp_left (List.mem_cons_of_mem _)
      · rw [hreport key fun h => hkey (List.mem_cons_of_mem _ h), h]

/-- What becomes of a name that is selected once, whatever becomes of the others: the same as if it is the only
    one. -/
inductive Fate (t : Conformance) (has : String → Bool) (name : String) (p : Progress) : Prop
  | settled (s : Status) (hs : ∀ n, s ≠ .succeeded n) (hreport : p.report.get? name = some s)
      (hjobs : ∀ j ∈ p.jobs, j.name ≠ name) (halone : t.enlistAll has [name] .none = ⟨Report.record .empty name s, []⟩)
  | enlisted (n : Nat) (j : Job) (hn : p.jobs[n]? = some j) (hname : j.name = name)
      (hreport : p.report.get? name = none) (hapart : Coordinator.Apart p.jobs n name)
      (halone : t.enlistAll has [name] .none = ⟨.empty, [j]⟩)

theorem not_mem_of_count {name : String} {before after : List String}
    (h : (before ++ name :: after).count name ≤ 1) : name ∉ before ∧ name ∉ after := by
  rw [List.count_append, List.count_cons_self] at h
  exact ⟨List.count_eq_zero.mp (by omega), List.count_eq_zero.mp (by omega)⟩

/-- What stands in another place than a member stands before it or behind it. -/
theorem mem_of_getElem?_ne {α : Type} {before after : List α} {a b : α} {i : Nat}
    (h : (before ++ a :: after)[i]? = some b) (hi : i ≠ before.length) : b ∈ before ∨ b ∈ after := by
  rcases Nat.lt_or_gt_of_ne hi with hlt | hgt
  · rw [List.getElem?_append_left hlt] at h
    exact .inl (List.mem_of_getElem? h)
  · rw [List.getElem?_append_right (Nat.le_of_lt hgt), show i - before.length = i - before.length - 1 + 1 by omega,
      List.getElem?_cons_succ] at h
    exact .inr (List.mem_of_getElem? h)

theorem fate (t : Conformance) (has : String → Bool) {names : List String} (hmem : name ∈ names)
    (hcount : names.count name ≤ 1) : Fate t has name (t.enlistAll has names .none) := by
  obtain ⟨before, after, rfl⟩ := List.append_of_mem hmem
  obtain ⟨hbefore, hafter⟩ := not_mem_of_count hcount
  obtain ⟨early, hearly, hearlyNames, hearlyReport⟩ := t.enlistAll_adds has before .none
  obtain ⟨late, hlate, hlateNames, hlateReport⟩ := t.enlistAll_adds has after
    (t.enlist t.compile has (t.enlistAll has before .none) name)
  have hsplit : t.enlistAll has (before ++ name :: after) .none =
      t.enlistAll has after (t.enlist t.compile has (t.enlistAll has before .none) name) := List.foldl_append
  replace hearly : (t.enlistAll has before .none).jobs = early := hearly
  have hfresh : (t.enlistAll has before .none).report.get? name = none := hearlyReport name hbefore
  have hother : ∀ j, j ∈ early ∨ j ∈ late → j.name ≠ name := by
    rintro j (hj | hj) rfl
    · exact hbefore (hearlyNames j hj).1
    · exact hafter (hlateNames j hj).1
  rw [hsplit]
  cases t.choice has name with
  | settled s hs h =>
    have hjobs : (t.enlist t.compile has (t.enlistAll has before .none) name).jobs = early := by rw [h, ← hearly]; rfl
    refine .settled s hs ?_ (fun j hj => hother j ?_) (h .none)
    · rw [hlateReport name hafter, h]
      exact (Coordinator.get?_record ..).trans (by rw [if_pos rfl, hfresh]; rfl)
    · rw [hlate, hjobs] at hj
      exact List.mem_append.mp hj
  | enlisted j target hj h =>
    have hjobs : (t.enlistAll has after (t.enlist t.compile has (t.enlistAll has before .none) name)).jobs =
        early ++ j :: late := by
      rw [hlate, h, hearly, List.append_assoc]
      rfl
    refine .enlisted early.length j ?_ (prepare_name hj).1 ?_ (fun i j' hi hne => ?_) (h .none)
    · rw [hjobs, List.getElem?_append_right (Nat.le_refl _), Nat.sub_self]
      rfl
    · rw [hlateReport name hafter, h, hfresh]
    · exact hother j' (mem_of_getElem?_ne (hjobs ▸ hi) hne)

end Conformance
end Concord
