import Concord.Grid

/-! Positions and elements. The elements of an array are numbered by their positions one to one, so an
    array is its shape and the element at each position within it. -/

namespace Concord

/-- The position lies within the shape. -/
def InBounds : List Nat → List Nat → Prop
  | [], [] => True
  | n :: ns, i :: is => i < n ∧ InBounds ns is
  | _, _ => False

theorem InBounds.length : ∀ {shape index : List Nat}, InBounds shape index → index.length = shape.length
  | [], [], _ => rfl
  | _ :: _, _ :: _, h => congrArg (· + 1) h.2.length
  | [], _ :: _, h => h.elim
  | _ :: _, [], h => h.elim

theorem inBounds_iff : ∀ {shape index : List Nat},
    InBounds shape index ↔
      index.length = shape.length ∧ ∀ i (_ : i < index.length) (_ : i < shape.length), index[i] < shape[i]
  | [], [] => ⟨fun _ => ⟨rfl, fun _ h => absurd h (Nat.not_lt_zero _)⟩, fun _ => trivial⟩
  | [], _ :: _ => ⟨False.elim, fun h => Nat.noConfusion h.1⟩
  | _ :: _, [] => ⟨False.elim, fun h => Nat.noConfusion h.1⟩
  | n :: ns, i :: is => by
    constructor
    · rintro ⟨hi, his⟩
      obtain ⟨hlen, hall⟩ := inBounds_iff.mp his
      refine ⟨congrArg (· + 1) hlen, fun a ha hb => ?_⟩
      cases a with
      | zero => exact hi
      | succ a => exact hall a (Nat.lt_of_succ_lt_succ ha) (Nat.lt_of_succ_lt_succ hb)
    · rintro ⟨hlen, hall⟩
      refine ⟨hall 0 (Nat.succ_pos _) (Nat.succ_pos _), inBounds_iff.mpr ⟨Nat.succ.inj hlen, ?_⟩⟩
      exact fun a ha hb => hall (a + 1) (Nat.succ_lt_succ ha) (Nat.succ_lt_succ hb)

@[simp] theorem volume_nil : volume [] = 1 := rfl

@[simp] theorem volume_cons (n : Nat) (ns : List Nat) : volume (n :: ns) = n * volume ns := rfl

theorem offset_lt : ∀ {shape index : List Nat}, InBounds shape index → offset shape index < volume shape
  | [], [], _ => Nat.one_pos
  | n :: ns, i :: is, h => by
    have hi : (i + 1) * volume ns ≤ n * volume ns := Nat.mul_le_mul_right _ h.1
    have hrest := offset_lt h.2
    rw [Nat.succ_mul] at hi
    simp only [offset, volume_cons]
    omega
  | [], _ :: _, h => h.elim
  | _ :: _, [], h => h.elim

theorem coordinates_inBounds :
    ∀ {shape : List Nat} {k : Nat}, k < volume shape → InBounds shape (coordinates shape k)
  | [], _, _ => trivial
  | n :: ns, k, h => by
    have hpos : 0 < volume ns := Nat.pos_of_mul_pos_left (Nat.zero_lt_of_lt h)
    exact ⟨(Nat.div_lt_iff_lt_mul hpos).mpr h, coordinates_inBounds (Nat.mod_lt k hpos)⟩

theorem offset_coordinates :
    ∀ {shape : List Nat} {k : Nat}, k < volume shape → offset shape (coordinates shape k) = k
  | [], k, h => by
    rw [volume_nil, Nat.lt_one_iff] at h
    exact h.symm
  | n :: ns, k, h => by
    have hpos : 0 < volume ns := Nat.pos_of_mul_pos_left (Nat.zero_lt_of_lt h)
    simp only [coordinates, offset]
    rw [offset_coordinates (Nat.mod_lt k hpos), Nat.mul_comm]
    exact Nat.div_add_mod k _

theorem coordinates_offset :
    ∀ {shape index : List Nat}, InBounds shape index → coordinates shape (offset shape index) = index
  | [], [], _ => rfl
  | n :: ns, i :: is, h => by
    have hlt := offset_lt h.2
    have hpos : 0 < volume ns := Nat.zero_lt_of_lt hlt
    simp only [coordinates, offset]
    rw [Nat.mul_comm i, Nat.mul_add_div hpos, Nat.div_eq_of_lt hlt, Nat.mul_add_mod,
      Nat.mod_eq_of_lt hlt, coordinates_offset h.2, Nat.add_zero]
  | [], _ :: _, h => h.elim
  | _ :: _, [], h => h.elim

namespace Grid

variable {α β γ : Type}

@[simp] theorem shape_ofFn (shape : List Nat) (f : List Nat → α) : (ofFn shape f).shape = shape := rfl

theorem ext_data {a b : Grid α} (hs : a.shape = b.shape) (hd : a.data = b.data) : a = b := by
  obtain ⟨s, d, h⟩ := a
  obtain ⟨s', d', h'⟩ := b
  cases hs
  cases hd
  rfl

theorem ofFn_congr {shape : List Nat} {f f' : List Nat → α}
    (h : ∀ index, InBounds shape index → f index = f' index) : ofFn shape f = ofFn shape f' := by
  unfold ofFn
  congr 2
  funext k
  exact h _ (coordinates_inBounds k.isLt)

section
variable [Inhabited α]

theorem get_ofFn {shape index : List Nat} {f : List Nat → α} (h : InBounds shape index) :
    (ofFn shape f).get index = f index := by
  have hlt := offset_lt h
  have hsize : offset shape index < (Array.ofFn fun k : Fin (volume shape) => f (coordinates shape k)).size := by
    rwa [Array.size_ofFn]
  show (Array.ofFn fun k : Fin (volume shape) => f (coordinates shape k)).getD (offset shape index) default = _
  rw [Array.getD, dif_pos hsize]
  show (Array.ofFn _)[offset shape index] = _
  rw [Array.getElem_ofFn, coordinates_offset h]

/-- An array is given by its elements. -/
theorem ofFn_get (g : Grid α) : ofFn g.shape g.get = g := by
  refine ext_data rfl (Array.ext (by simp [ofFn, g.size_eq]) fun k hk hk' => ?_)
  have hlt : k < volume g.shape := g.size_eq ▸ hk'
  simp only [ofFn, Array.getElem_ofFn, get]
  rw [offset_coordinates hlt, Array.getD, dif_pos hk']
  rfl

end

/-! ### Arrays given by functions -/

theorem map_ofFn (g : α → β) (shape : List Nat) (f : List Nat → α) :
    (ofFn shape f).map g = ofFn shape fun index => g (f index) :=
  ext_data rfl Array.map_ofFn

theorem zipWith_ofFn (op : α → β → γ) (shape : List Nat) (f : List Nat → α) (g : List Nat → β)
    (h : (ofFn shape f).shape = (ofFn shape g).shape) :
    (ofFn shape f).zipWith op (ofFn shape g) h = ofFn shape fun index => op (f index) (g index) := by
  refine ext_data rfl (Array.ext ?_ fun k hk hk' => ?_)
  · simp [zipWith, ofFn]
  · simp [zipWith, ofFn]

end Grid
end Concord
