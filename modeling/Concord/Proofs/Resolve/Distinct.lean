import Concord.Proofs.Resolve.Core

/-! Axes of one name. No step of resolution gives two axes of a node the same name, but none refuses them either: the
    names differ everywhere if and only if they differ, once renamed, in every input that the definition reads. -/

namespace Concord

open Signature

section
variable {c : Resolution.Context} {Fit : String → CallOptions → Prop} {dims : Nat → Signature} {kind : NodeKind}
  {parents : List Nat} {out : Signature}

/-- Axes are joined by name, so the names differ whatever the names of the arrays are. -/
theorem Typing.union_nodup {signatures : List Signature} (h : Typing.union signatures = .ok out) : out.names.Nodup := by
  have hfold : ∀ {l s out : Signature}, l.foldlM (fun out d => Typing.joinDimension d out) s = .ok out →
      s.names.Nodup → out.names.Nodup := by
    intro l
    induction l with
    | nil =>
      intro s out h hs
      cases h
      exact hs
    | cons d l ih =>
      intro s out h hs
      obtain ⟨mid, hmid, h⟩ := foldlM_cons_eq_ok.mp h
      refine ih h ?_
      rw [Typing.joinDimension_names hmid]
      split
      · exact hs
      · rename_i hnew
        exact List.nodup_append.mpr ⟨hs, List.nodup_singleton _, fun x hx y hy heq =>
          hnew (List.mem_singleton.mp hy ▸ heq ▸ hx)⟩
  exact hfold h List.nodup_nil

theorem Typing.dims_nodup {rule : ShapeRule} {function : String} {operands : List Operand} {options : CallOptions}
    (ho : ∀ o ∈ operands, (names o.dims).Nodup) (h : Typing.dims rule function operands options = .ok out) :
    out.names.Nodup := by
  have hfirst : (Typing.firstDims operands).names.Nodup := by
    cases operands with
    | nil => exact List.nodup_nil
    | cons o operands => exact ho o List.mem_cons_self
  cases rule with
  | passThrough =>
    cases h
    exact hfirst
  | broadcast => exact Typing.union_nodup (Typing.dims_broadcast h)
  | reduce =>
    obtain ⟨d, -, -, rfl⟩ := dims_along (.inl rfl) h
    exact hfirst.sublist (List.filter_sublist.map _)
  | scan =>
    obtain ⟨d, -, -, rfl⟩ := dims_along (.inr rfl) h
    exact hfirst

/-- If names differ in the parents of a node, they do in the node, unless it is an input that has one twice. -/
theorem AxesOf.nodup (h : AxesOf c Fit dims kind parents out) (hp : ∀ p ∈ parents, (names (dims p)).Nodup)
    (hinput : ∀ name m, kind = .operand name → c.source.describe name = some m →
      (names (renamed m.dims c.dimensionMap)).Nodup) : out.names.Nodup := by
  cases h with
  | literal => exact List.nodup_nil
  | operand hm => exact hinput _ _ rfl hm
  | convert => exact hp _ (List.mem_singleton_self _)
  | transpose horder =>
    rw [(perm_apply horder).1]
    exact (permutationTo_eq_some horder).2.nodup_iff.mpr (hp _ (List.mem_singleton_self _))
  | call _ _ _ hdims =>
    refine Typing.dims_nodup (fun o ho => ?_) hdims
    obtain ⟨p, hp', rfl⟩ := List.mem_map.mp ho
    exact hp p hp'

end

namespace Resolution

variable {c : Context} {Fit : String → CallOptions → Prop} {s : NodeStore}

/-- Names differ in all nodes of a typed graph if they do in its inputs. -/
theorem nodup_of_inputs (hs : Typed c Fit s)
    (hinputs : ∀ i name m, s.kind? i = some (.operand name) → c.source.describe name = some m →
      (Signature.names (Signature.renamed m.dims c.dimensionMap)).Nodup) (i : Nat) :
    (Signature.names (s.dims i)).Nodup := by
  -- By induction on the number: the parents of a node stand before it.
  induction i using Nat.strongRecOn with
  | ind i ih =>
    cases hn : s.node? i with
    | none =>
      rw [NodeStore.dims, NodeStore.layout?, hn]
      exact List.nodup_nil
    | some n =>
      refine (hs.axes hn).nodup (fun p hp => ih p ((hs.node i n hn).1 p hp)) fun name m hkind hm => ?_
      exact hinputs i name m (hkind ▸ NodeStore.kind_of_node hn) hm

/-- The names of axes differ in every node of a resolved graph if and only if they do, once renamed, in every input of
    the definition. -/
theorem resolve_distinct_iff {source : Source} {definitions : Definitions} {name : String} {v : CompiledVariable}
    {converter : Measure.Converter} {dimensionMap : NameMap String} {target : Target} {w : ResolvedVariable}
    (hv : (Compilation.compile .builtins source definitions).compiled.get? name = some v)
    (h : resolve ⟨.builtins, source, converter, dimensionMap⟩ v target = .ok w) :
    (∀ i a, w.store.layout? i = some a → (Signature.names a.dims).Nodup) ↔
      ∀ input m, Compilation.InputOf source definitions input v.expression → source.describe input = some m →
        (Signature.names (Signature.renamed m.dims dimensionMap)).Nodup := by
  have hlowered : Lowered (fun _ _ => True) v.store := Compilation.compile_lowered (fun _ _ _ _ _ => trivial) hv
  have htyped := (resolve_resolved hlowered h).1.typed
  have hreads : ∀ input, (∃ i, w.store.kind? i = some (.operand input)) ↔
      Compilation.InputOf source definitions input v.expression := fun input =>
    resolve_inputs Functions.builtins_convertsOne hv h
  constructor
  · intro hall input m hinput hm
    obtain ⟨i, hi⟩ := (hreads input).mpr hinput
    obtain ⟨n, hn, hkind⟩ := Option.map_eq_some_iff.mp hi
    obtain ⟨-, a, ha, haxes⟩ := htyped.node i n hn
    have hlayout : w.store.layout? i = some a := by
      rw [NodeStore.layout?, hn]
      exact ha
    generalize hdims : a.dims = dims at haxes
    generalize n.parents = parents at haxes
    rw [hkind] at haxes
    cases haxes with
    | operand hm' =>
      cases hm.symm.trans hm'
      exact hdims ▸ hall i a hlayout
  · intro hinputs i a ha
    obtain ⟨n, hn, hlayout⟩ := Option.bind_eq_some_iff.mp ha
    rw [← NodeStore.dims_of_node hn hlayout]
    exact nodup_of_inputs htyped (fun j input m hkind hm => hinputs input m ((hreads input).mp ⟨j, hkind⟩) hm) i

/-- Two inputs: one has two axes of one name, the axes of the other get one name. -/
def squares : Dataset :=
  .ofList [("a", ⟨⟨[⟨"x", some 2⟩, ⟨"x", some 2⟩], "K", .empty⟩, ⟨[2, 2], #[1, 2, 3, 4], rfl⟩⟩),
    ("b", ⟨⟨[⟨"x", some 2⟩, ⟨"y", some 2⟩], "K", .empty⟩, ⟨[2, 2], #[5, 6, 7, 8], rfl⟩⟩)]

def squareMap : NameMap String := .ofList [("y", "x")]

def squareDefinitions : Definitions := .ofList [("out", "mean(a, dim='x') + mean(b, dim='x')")]

def squareTarget : Target := ⟨[], "K", .empty⟩

def squareVariable : CompiledVariable :=
  ((Compilation.compile .builtins squares.source squareDefinitions).compiled.get? "out").get (by decide +kernel)

def squareResolved : ResolvedVariable :=
  (resolve ⟨.builtins, squares.source, Measure.linear, squareMap⟩ squareVariable squareTarget).toOption.get
    (by decide +kernel)

/-- Both are accepted: a mean takes both axes of the name away from what is known of it, and one from its array. -/
theorem resolve_distinct_iff_squares :
    squareResolved.store.nodes.map (fun n => (n.kind, n.layout.map (·.dims))) =
        [(.operand "a", some [⟨"x", some 2⟩, ⟨"x", some 2⟩]), (.call "mean" [("dim", .text "x")], some []),
          (.operand "b", some [⟨"x", some 2⟩, ⟨"x", some 2⟩]), (.call "mean" [("dim", .text "x")], some []),
          (.call "+" [], some [])] ∧
      ((∀ i a, squareResolved.store.layout? i = some a → (Signature.names a.dims).Nodup) ↔
        ∀ input m, Compilation.InputOf squares.source squareDefinitions input squareVariable.expression →
          squares.source.describe input = some m → (Signature.names (Signature.renamed m.dims squareMap)).Nodup) ∧
      ¬ ∀ i a, squareResolved.store.layout? i = some a → (Signature.names a.dims).Nodup := by
  have hr : resolve ⟨.builtins, squares.source, Measure.linear, squareMap⟩ squareVariable squareTarget =
      .ok squareResolved := toOption_eq_some.mp (Option.some_get _).symm
  refine ⟨by decide +kernel, resolve_distinct_iff (Option.some_get _).symm hr, fun hall => ?_⟩
  have hlayout : squareResolved.store.layout? 0 = some ⟨[⟨"x", some 2⟩, ⟨"x", some 2⟩], "K"⟩ := by decide +kernel
  exact absurd (hall 0 _ hlayout) (by decide)

end Resolution
end Concord
