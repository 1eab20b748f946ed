import Concord.Conformance
import Concord.Proofs.Evaluate.Roles
import Concord.Proofs.Graph.Lowering
import Concord.Proofs.Resolve.Compaction

/-! What a task prepares: a variable that is resolved, with a plan for it and the header of its output. -/

namespace Concord

/-- What a definition resolves to, whatever the calls are like that it binds. -/
theorem Resolution.resolved_of_compiled {c : Context} {definitions : Definitions} {name : String} {w : CompiledVariable}
    {target : Target} {v : ResolvedVariable}
    (hw : (Compilation.compile c.functions c.source definitions).compiled.get? name = some w)
    (hv : resolve c w target = .ok v) : Resolved c (fun _ _ => True) v :=
  (resolve_resolved (Compilation.compile_lowered (fun _ _ _ _ _ => trivial) hw) hv).1

namespace Conformance

variable {t : Conformance} {c : Compilation} {name : String} {target : Target} {j : Job}
  {Fit : String → CallOptions → Prop}

theorem resolveIn_eq_ok {v : ResolvedVariable} (h : t.resolveIn c name target = .ok v) :
    ∃ w, c.compiled.get? name = some w ∧ Resolution.resolve t.resolution w target = .ok v := by
  simp only [resolveIn] at h
  split at h
  · cases h
  · cases h
  · exact ⟨_, ‹_›, h⟩

theorem prepare_eq_ok (h : t.prepare c name target = .ok j) :
    ∃ v plan, t.resolveIn c name target = .ok v ∧ Plan.build v t.functions t.config = .ok plan ∧
      j = Job.ofPlan v plan t.config.provenance := by
  obtain ⟨v, hv, h⟩ := bind_eq_ok.mp h
  obtain ⟨plan, hplan, h⟩ := bind_eq_ok.mp h
  cases h
  exact ⟨v, plan, hv, hplan, rfl⟩

/-- A prepared variable is resolved and planned. -/
theorem prepare_planned
    (hbind : ∀ name args kwargs call, t.functions.bind name args kwargs = .ok call → Fit name call.options)
    (h : t.prepare t.compile name target = .ok j) :
    Resolution.Resolved t.resolution Fit j.resolved ∧ Plan.Planned t.functions j.resolved j.plan ∧
      j.header = Job.headerOf j.resolved j.plan t.config.provenance := by
  obtain ⟨v, plan, hv, hplan, rfl⟩ := prepare_eq_ok h
  obtain ⟨w, hw, hv⟩ := resolveIn_eq_ok hv
  obtain ⟨hresolved, -⟩ := Resolution.resolve_resolved (Compilation.compile_lowered hbind hw) hv
  exact ⟨hresolved, Plan.build_planned (fun i p hp => hresolved.typed.parents_lt hp) hplan, rfl⟩

/-- Whatever the calls are like that it binds. -/
theorem planned_of_prepare (h : t.prepare t.compile name target = .ok j) :
    Resolution.Resolved t.resolution (fun _ _ => True) j.resolved ∧ Plan.Planned t.functions j.resolved j.plan := by
  have hplanned : Resolution.Resolved t.resolution (fun _ _ => True) j.resolved ∧ _ :=
    prepare_planned (fun _ _ _ _ _ => trivial) h
  exact ⟨hplanned.1, hplanned.2.1⟩

end Conformance
end Concord
