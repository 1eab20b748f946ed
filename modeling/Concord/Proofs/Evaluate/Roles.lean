import Concord.Evaluate.Plan
import Concord.Proofs.Graph.Reachable
import Concord.Proofs.Outcome

/-! What building a plan gives: each node has its role by what it does to its parents, and the chunks are
    pieces of one length. -/

namespace Concord.Plan

open NodeStore

theorem foldl_max_le_iff {l : List Nat} : ∀ {a m : Nat}, l.foldl max a ≤ m ↔ a ≤ m ∧ ∀ x ∈ l, x ≤ m := by
  induction l with
  | nil => simp
  | cons x l ih =>
    intro a m
    rw [List.foldl_cons, ih, Nat.max_le, List.forall_mem_cons, and_assoc]

/-- The role of a node, given those of the nodes before it. -/
inductive RoleOf (functions : Functions) (s : NodeStore) (dimension : Option String) (roles : List Role)
    (n : Node) : Role → Prop
  | call {function : String} {options : CallOptions} {f : FunctionSpec} {carried : Option Nat}
      (hk : n.kind = .call function options) (hf : functions.get? function n.parents.length = some f)
      (hc : carried = carriedAxis s dimension roles f options n.parents) :
      RoleOf functions s dimension roles n
        ⟨dimension.any fun d => Signature.named ((n.layout.map (·.dims)).getD []) d,
          levelOf roles n.parents (carried.isSome && f.shape = .reduce), some f.kernel, carried⟩
  | other (hk : ∀ function options, n.kind ≠ .call function options) :
      RoleOf functions s dimension roles n
        ⟨dimension.any fun d => Signature.named ((n.layout.map (·.dims)).getD []) d,
          levelOf roles n.parents false, none, none⟩

section
variable {functions : Functions} {s : NodeStore} {dimension : Option String} {roles more : List Role}
  {n : Node} {r : Role}

theorem addRole_role {p p' : Progress} (h : addRole functions s dimension p n = .ok p') :
    ∃ r, p'.roles = p.roles ++ [r] ∧ RoleOf functions s dimension p.roles n r := by
  unfold addRole at h
  dsimp only at h
  split at h
  · rename_i function options hk
    split at h
    · cases h
    · rename_i f hf
      cases h
      exact ⟨_, rfl, .call hk hf rfl⟩
  · rename_i hk
    cases h
    exact ⟨_, rfl, .other hk⟩

theorem carriedAxis_eq_some {f : FunctionSpec} {options : CallOptions} {parents : List Nat} {axis : Nat}
    (h : carriedAxis s dimension roles f options parents = some axis) :
    ∃ d p rest, options.text? "dim" = some d ∧ parents = p :: rest ∧ (f.shape = .reduce ∨ f.shape = .scan) ∧
      dimension = some d ∧ (roles[p]?).any (·.streamed) = true ∧
      Signature.position (s.dims p) d = some axis := by
  unfold carriedAxis at h
  split at h
  · rename_i d p rest hd
    split at h
    · rename_i hc
      exact ⟨d, p, rest, hd, rfl, hc.1, hc.2.1, hc.2.2, h⟩
    · cases h
  · cases h

theorem carriedAxis_append {f : FunctionSpec} {options : CallOptions} {parents : List Nat}
    (h : ∀ p ∈ parents, p < roles.length) :
    carriedAxis s dimension (roles ++ more) f options parents = carriedAxis s dimension roles f options parents := by
  unfold carriedAxis
  cases options.text? "dim" with
  | none => rfl
  | some d =>
    cases parents with
    | nil => rfl
    | cons p rest =>
      dsimp only
      rw [List.getElem?_append_left (h p List.mem_cons_self)]

theorem levelOf_append {parents : List Nat} {accumulating : Bool} (h : ∀ p ∈ parents, p < roles.length)
    (hne : accumulating = true → parents ≠ []) :
    levelOf (roles ++ more) parents accumulating = levelOf roles parents accumulating := by
  have hlevel : ∀ p ∈ parents, (((roles ++ more)[p]?).map (·.level)).getD 0 = ((roles[p]?).map (·.level)).getD 0 :=
    fun p hp => by rw [List.getElem?_append_left (h p hp)]
  unfold levelOf
  cases accumulating with
  | true =>
    obtain ⟨p, rest, rfl⟩ := List.exists_cons_of_ne_nil (hne rfl)
    simp only [if_true, List.getD_cons_zero, hlevel p List.mem_cons_self]
  | false =>
    dsimp only
    rw [if_neg Bool.false_ne_true, if_neg Bool.false_ne_true, List.map_congr_left hlevel]

/-- A role depends on those of the parents only. -/
theorem RoleOf.append (h : RoleOf functions s dimension roles n r) (hp : ∀ p ∈ n.parents, p < roles.length) :
    RoleOf functions s dimension (roles ++ more) n r := by
  cases h with
  | @call function options f carried hk hf hc =>
    have hne : (carried.isSome && f.shape = .reduce) = true → n.parents ≠ [] := by
      intro ha
      obtain ⟨axis, haxis⟩ := Option.isSome_iff_exists.mp (Bool.and_eq_true_iff.mp ha).1
      obtain ⟨_, _, _, _, hparents, _⟩ := carriedAxis_eq_some (hc.symm.trans haxis)
      rw [hparents]
      exact List.cons_ne_nil _ _
    have hlevel : levelOf (roles ++ more) n.parents _ = _ := levelOf_append hp hne
    rw [← hlevel]
    exact .call hk hf (hc.trans (carriedAxis_append hp).symm)
  | other hk =>
    have hlevel : levelOf (roles ++ more) n.parents false = _ := levelOf_append hp fun ha => by cases ha
    rw [← hlevel]
    exact .other hk

/-- A node that needs all chunks at once: a reduction that carries state, but is not put together from parts. -/
def Blocks (functions : Functions) (s : NodeStore) (dimension : Option String) (roles : List Role) (n : Node) : Prop :=
  ∃ function options f, n.kind = .call function options ∧ functions.get? function n.parents.length = some f ∧
    (carriedAxis s dimension roles f options n.parents).isSome = true ∧ f.shape = .reduce ∧ f.chunkAssociative = false

theorem addRole_blocking {p p' : Progress} (h : addRole functions s dimension p n = .ok p') :
    p'.blocking.isSome = true ↔ p.blocking.isSome = true ∨ Blocks functions s dimension p.roles n := by
  unfold addRole at h
  dsimp only at h
  split at h
  · rename_i function options hk
    split at h
    · cases h
    · rename_i f hf
      cases h
      have hblocks : Blocks functions s dimension p.roles n ↔
          (carriedAxis s dimension p.roles f options n.parents).isSome = true ∧ f.shape = .reduce ∧
            f.chunkAssociative = false := by
        constructor
        · rintro ⟨function', options', f', hk', hf', hcase⟩
          cases hk.symm.trans hk'
          cases hf.symm.trans hf'
          exact hcase
        · exact fun hcase => ⟨function, options, f, hk, hf, hcase⟩
      rw [hblocks]
      cases p.blocking with
      | some _ => exact ⟨fun _ => .inl rfl, fun _ => rfl⟩
      | none =>
        change Option.isSome (if _ then some function else none) = true ↔ _
        split <;> rename_i hcase <;> simpa [and_assoc] using hcase
  · rename_i hk
    cases h
    exact ⟨.inl, fun h => h.resolve_right fun ⟨function, options, _, hk', _⟩ => hk function options hk'⟩

theorem blocks_append (h : ∀ p ∈ n.parents, p < roles.length) :
    Blocks functions s dimension (roles ++ more) n ↔ Blocks functions s dimension roles n := by
  unfold Blocks
  simp only [carriedAxis_append h]

end

/-! ### Chunks -/

/-- Chunks that follow each other up to a length, each from an edge to the next. -/
structure Consecutive (chunks : List (Nat × Nat)) (domain : Nat) (edge : Nat → Nat) : Prop where
  start : edge 0 = 0
  stop : edge chunks.length = domain
  chunk : ∀ c < chunks.length, chunks.getD c (0, 0) = (edge c, edge (c + 1))
  mono : ∀ c, edge c ≤ edge (c + 1)
  le : ∀ c, edge c ≤ domain

theorem cut_pos (domain : Nat) {length : Nat} (h : 0 < length) : 0 < (cut domain length).length := by
  unfold cut
  split
  · exact Nat.one_pos
  · rw [List.length_map, List.length_range]
    exact Nat.div_pos (by omega) h

theorem cut_consecutive (domain : Nat) {length : Nat} (h : 0 < length) :
    ∃ edge, Consecutive (cut domain length) domain edge := by
  refine ⟨fun c => min (c * length) domain, by simp, ?_, ?_, fun c => ?_, fun c => Nat.min_le_right _ _⟩
  · unfold cut
    split
    · rename_i hd
      rw [hd, Nat.min_zero]
    · rw [List.length_map, List.length_range, Nat.min_eq_right]
      have := Nat.lt_div_mul_add (a := domain + length - 1) h
      omega
  · intro c hc
    unfold cut at hc ⊢
    split
    · rename_i hd
      rw [if_pos hd] at hc
      cases Nat.lt_one_iff.mp hc
      simp [hd]
    · rename_i hd
      rw [if_neg hd, List.length_map, List.length_range] at hc
      have hlt : c * length < domain := by
        have := Nat.div_mul_le_self (domain + length - 1) length
        have := Nat.mul_le_mul_right length (Nat.succ_le_of_lt hc)
        rw [Nat.succ_mul] at this
        omega
      rw [List.getD_eq_getElem?_getD, List.getElem?_map, List.getElem?_range hc, Option.map_some,
        Option.getD_some, Nat.min_eq_left (Nat.le_of_lt hlt), Nat.succ_mul]
  · have hle : c * length ≤ (c + 1) * length := Nat.mul_le_mul_right length (Nat.le_succ c)
    omega

/-! ### Plans -/

/-- What is known of a plan for a variable. -/
structure Planned (functions : Functions) (v : ResolvedVariable) (plan : Plan) : Prop where
  length : plan.roles.length = v.store.count
  role : ∀ i n, v.store.node? i = some n →
    RoleOf functions v.store plan.dimension plan.roles n (plan.role i)
  root : plan.root = v.root
  passes : plan.passes = (plan.role plan.root).level + if plan.rootStreamed then 1 else 0
  chunks : ∃ length, 0 < length ∧ plan.chunks = cut plan.domain length
  domain : ∀ d, plan.dimension = some d → domainOf (inputDims v.store) d = some plan.domain

theorem getElem?_concat_eq_some {α : Type} {l : List α} {a b : α} {i : Nat} :
    (l ++ [a])[i]? = some b ↔ l[i]? = some b ∨ i = l.length ∧ a = b := by
  rcases Nat.lt_trichotomy i l.length with hi | rfl | hi
  · simp [List.getElem?_append_left hi, Nat.ne_of_lt hi]
  · simp
  · have hout : (l ++ [a]).length ≤ i := by rw [List.length_append, List.length_singleton]; exact hi
    simp [List.getElem?_eq_none hout, List.getElem?_eq_none (Nat.le_of_lt hi), Nat.ne_of_gt hi]

/-- The first nodes of a graph have the roles that they have by the roles of all of them, and the whole is blocked if
    one of them is. -/
structure Given (functions : Functions) (s : NodeStore) (dimension : Option String) (done : List Node) (p : Progress) :
    Prop where
  length : p.roles.length = done.length
  role : ∀ (i : Nat) (n : Node), done[i]? = some n → ∃ r, p.roles[i]? = some r ∧ RoleOf functions s dimension p.roles n r
  blocking : p.blocking.isSome = true ↔ ∃ (i : Nat) (n : Node), done[i]? = some n ∧ Blocks functions s dimension p.roles n

/-- The next node, whose parents are among them, gets its role. -/
theorem Given.step {functions : Functions} {s : NodeStore} {dimension : Option String} {done : List Node} {n : Node}
    {p p' : Progress} (h : Given functions s dimension done p) (hp : addRole functions s dimension p n = .ok p')
    (hbelow : ∀ (i : Nat) (m : Node), (done ++ [n])[i]? = some m → ∀ q ∈ m.parents, q < p.roles.length) :
    Given functions s dimension (done ++ [n]) p' := by
  obtain ⟨r, heq, hr⟩ := addRole_role hp
  have hsame : ∀ (i : Nat) (m : Node), (done ++ [n])[i]? = some m →
      (Blocks functions s dimension p'.roles m ↔ Blocks functions s dimension p.roles m) := by
    intro i m hm
    rw [heq]
    exact blocks_append (hbelow i m hm)
  have hlast : (done ++ [n])[done.length]? = some n := getElem?_concat_eq_some.mpr (.inr ⟨rfl, rfl⟩)
  refine ⟨by rw [heq, List.length_append, List.length_append, h.length]; rfl, fun i m hm => ?_, ?_⟩
  · have hparents := hbelow i m hm
    rw [heq]
    rcases getElem?_concat_eq_some.mp hm with hm | ⟨rfl, rfl⟩
    · obtain ⟨r', hr', hrole⟩ := h.role i m hm
      exact ⟨r', getElem?_concat_eq_some.mpr (.inl hr'), hrole.append hparents⟩
    · exact ⟨r, getElem?_concat_eq_some.mpr (.inr ⟨h.length.symm, rfl⟩), hr.append hparents⟩
  · rw [addRole_blocking hp, h.blocking]
    constructor
    · rintro (⟨i, m, hm, hblocks⟩ | hblocks)
      · have hm : (done ++ [n])[i]? = some m := getElem?_concat_eq_some.mpr (.inl hm)
        exact ⟨i, m, hm, (hsame i m hm).mpr hblocks⟩
      · exact ⟨_, n, hlast, (hsame _ n hlast).mpr hblocks⟩
    · rintro ⟨i, m, hm, hblocks⟩
      have hblocks := (hsame i m hm).mp hblocks
      rcases getElem?_concat_eq_some.mp hm with hm | ⟨-, rfl⟩
      · exact .inl ⟨i, m, hm, hblocks⟩
      · exact .inr hblocks

theorem foldlM_addRole {functions : Functions} {s : NodeStore} {dimension : Option String} {p : Progress}
    (hb : s.ParentsBelow) (h : s.nodes.foldlM (addRole functions s dimension) ⟨[], none⟩ = .ok p) :
    Given functions s dimension s.nodes p := by
  refine foldlM_induction (P := Given functions s dimension) s.nodes ?_ (List.nil_append _).symm
    ⟨rfl, fun i n hn => by simp at hn, by simp⟩ h
  intro done n rest q q' hall hdone hq
  refine hdone.step hq fun i m hm p hp => ?_
  have hi := (List.getElem?_eq_some_iff.mp hm).1
  rw [List.length_append, List.length_singleton] at hi
  have hnode : s.node? i = some m := by
    unfold node?
    rw [hall, ← List.singleton_append, ← List.append_assoc, List.getElem?_append_left (List.getElem?_eq_some_iff.mp hm).1]
    exact hm
  have hlt := hb i p (parents_of_node hnode ▸ hp)
  rw [hdone.length]
  omega

theorem chunkLengthFor_pos (config : Config) (perStep domain : Nat) : 0 < chunkLengthFor config perStep domain :=
  Nat.lt_of_lt_of_le Nat.one_pos (Nat.le_max_left ..)

section
variable (v : ResolvedVariable) (config : Config)

/-- The length of the dimension that is chosen, if it is known. -/
def lengthFor : Option Nat := (chooseDimension config.chunkDimensions (inputDims v.store)).bind (domainOf (inputDims v.store))

/-- The dimension that is cut: the chosen one, if its length is known. -/
def dimensionFor : Option String :=
  if (lengthFor v config).isSome then chooseDimension config.chunkDimensions (inputDims v.store) else none

/-- The length that is cut; without a dimension it is 1. -/
def domainFor : Nat := (lengthFor v config).getD 1

/-- The roles of all nodes. -/
def rolesFor (functions : Functions) : Except Failure Progress :=
  v.store.nodes.foldlM (addRole functions v.store (dimensionFor v config)) ⟨[], none⟩

/-- The plan that is made once the roles are known. -/
def planOf (roles : List Role) : Plan :=
  let length := chunkLengthFor config (elementsPerStep v.store (dimensionFor v config) roles) (domainFor v config)
  let root := roles.getD v.root ⟨false, 0, none, none⟩
  ⟨dimensionFor v config, domainFor v config, length, cut (domainFor v config) length, roles,
    root.level + if root.streamed then 1 else 0, v.root⟩

/-- The plan, unless something needs all chunks at once and there are several. -/
def accept (p : Progress) : Except Failure Plan :=
  match p.blocking, dimensionFor v config with
  | some function, some d =>
    if (planOf v config p.roles).chunks.length > 1 then .error (.nonAssociativeReduction function d)
    else .ok (planOf v config p.roles)
  | _, _ => .ok (planOf v config p.roles)

/-- To build a plan is to give all nodes their roles, and then to accept the plan that these make. -/
theorem build_eq (functions : Functions) : build v functions config =
    if !hasLayouts v.store then .error (.incompatibleOperands v.name "graph is not resolved")
    else rolesFor v config functions >>= accept v config := rfl

variable {v config}

theorem domainOf_dimensionFor {d : String} (h : dimensionFor v config = some d) :
    domainOf (inputDims v.store) d = some (domainFor v config) := by
  unfold dimensionFor at h
  split at h
  · rename_i hsome
    obtain ⟨n, hn⟩ := Option.isSome_iff_exists.mp hsome
    unfold domainFor
    rw [hn, Option.getD_some]
    unfold lengthFor at hn
    rwa [h] at hn
  · cases h

theorem domainFor_of_none (h : dimensionFor v config = none) : domainFor v config = 1 := by
  unfold domainFor
  cases hn : lengthFor v config with
  | none => rfl
  | some n =>
    unfold dimensionFor at h
    rw [hn, Option.isSome_some, if_pos rfl] at h
    unfold lengthFor at hn
    rw [h] at hn
    cases hn

/-- Something needs all chunks of a plan at once, and there are several. -/
def Refused (v : ResolvedVariable) (config : Config) (p : Progress) : Prop :=
  p.blocking.isSome = true ∧ (dimensionFor v config).isSome = true ∧ 1 < (planOf v config p.roles).chunks.length

theorem accept_of_refused {p : Progress} (h : Refused v config p) :
    ∃ function d, accept v config p = .error (.nonAssociativeReduction function d) := by
  obtain ⟨hblocking, hdimension, hchunks⟩ := h
  obtain ⟨function, hfunction⟩ := Option.isSome_iff_exists.mp hblocking
  obtain ⟨d, hd⟩ := Option.isSome_iff_exists.mp hdimension
  refine ⟨function, d, ?_⟩
  unfold accept
  rw [hfunction, hd]
  exact if_pos hchunks

theorem accept_of_not_refused {p : Progress} (h : ¬Refused v config p) : accept v config p = .ok (planOf v config p.roles) := by
  unfold accept
  split
  · rename_i hblocking hdimension
    refine if_neg fun hchunks => h ⟨?_, ?_, hchunks⟩
    · rw [hblocking]; rfl
    · rw [hdimension]; rfl
  · rfl

theorem accept_eq_ok {p : Progress} {plan : Plan} (h : accept v config p = .ok plan) : plan = planOf v config p.roles := by
  by_cases hr : Refused v config p
  · obtain ⟨function, d, herror⟩ := accept_of_refused hr
    rw [herror] at h
    cases h
  · rw [accept_of_not_refused hr] at h
    exact (Except.ok.inj h).symm

theorem build_eq_ok {functions : Functions} {plan : Plan} (h : build v functions config = .ok plan) :
    ∃ p, rolesFor v config functions = .ok p ∧ plan = planOf v config p.roles := by
  rw [build_eq] at h
  split at h
  · cases h
  · obtain ⟨p, hp, h⟩ := bind_eq_ok.mp h
    exact ⟨p, hp, accept_eq_ok h⟩

end

theorem planned_planOf {v : ResolvedVariable} {functions : Functions} {config : Config} {p : Progress}
    (hb : v.store.ParentsBelow) (hp : rolesFor v config functions = .ok p) :
    Planned functions v (planOf v config p.roles) := by
  have hgiven := foldlM_addRole hb hp
  refine ⟨hgiven.length, fun i n hn => ?_, rfl, rfl, ⟨_, chunkLengthFor_pos .., rfl⟩, fun d => domainOf_dimensionFor⟩
  obtain ⟨r, hr, hrole⟩ := hgiven.role i n hn
  have hget : (planOf v config p.roles).role i = r := by
    unfold Plan.role planOf
    rw [List.getD_eq_getElem?_getD, hr]
    rfl
  rw [hget]
  exact hrole

theorem build_planned {v : ResolvedVariable} {functions : Functions} {config : Config} {plan : Plan}
    (hb : v.store.ParentsBelow) (h : build v functions config = .ok plan) : Planned functions v plan := by
  obtain ⟨p, hp, rfl⟩ := build_eq_ok h
  exact planned_planOf hb hp

end Concord.Plan
