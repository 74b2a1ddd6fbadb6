import Mathlib.Algebra.Order.Ring.Basic
import Mathlib.Data.Fintype.Defs
import Mathlib.Order.Lattice
import Mathlib.Tactic.Common

/-!
# Axis-parallel boxes

A box has a smallest and a largest coordinate in every dimension. Nothing keeps the smallest
one below the largest; a box for which this holds is called ordered. A search that prunes by
bounding boxes is right because a box meets whatever a box inside it meets, and a search for
the nearest box because a box is not farther from a point than an ordered box inside it.
-/

namespace FastKV.Lib

/-- A box, given by its two corners. -/
@[ext] structure Box (ι α : Type*) where
  /-- The smallest coordinates. -/
  min : ι → α
  /-- The largest coordinates. -/
  max : ι → α

namespace Box

section Order

variable {ι α : Type*} [LinearOrder α] {b c d : Box ι α}

/-- The corners of the second box lie between those of the first. -/
def Covers (b c : Box ι α) : Prop := ∀ i, b.min i ≤ c.min i ∧ c.max i ≤ b.max i

/-- In no dimension does one box end before the other begins. -/
def Meets (b c : Box ι α) : Prop := ∀ i, c.min i ≤ b.max i ∧ b.min i ≤ c.max i

/-- The box is not inverted in any dimension. -/
def Ordered (b : Box ι α) : Prop := ∀ i, b.min i ≤ b.max i

instance [Fintype ι] : Decidable (b.Covers c) := inferInstanceAs (Decidable (∀ _, _))

instance [Fintype ι] : Decidable (b.Meets c) := inferInstanceAs (Decidable (∀ _, _))

instance [Fintype ι] : Decidable b.Ordered := inferInstanceAs (Decidable (∀ _, _))

/-- Covering is transitive. -/
theorem Covers.trans (h : b.Covers c) (h' : c.Covers d) : b.Covers d :=
  fun i => ⟨(h i).1.trans (h' i).1, (h' i).2.trans (h i).2⟩

/-- A box meets what a box inside it meets. -/
theorem Covers.meets (h : b.Covers c) (h' : c.Meets d) : b.Meets d :=
  fun i => ⟨(h' i).1.trans (h i).2, (h i).1.trans (h' i).2⟩

/-- An ordered box meets the boxes that cover it. -/
theorem Covers.meets_of_ordered (h : b.Covers c) (hc : c.Ordered) : b.Meets c :=
  fun i => ⟨(hc i).trans (h i).2, (h i).1.trans (hc i)⟩

/-- A box covers itself. -/
theorem Covers.refl (b : Box ι α) : b.Covers b := fun _ => ⟨le_refl _, le_refl _⟩

/-- Meeting is symmetric. -/
theorem Meets.symm (h : b.Meets c) : c.Meets b := fun i => ⟨(h i).2, (h i).1⟩

end Order

section Distance

variable {α : Type*} [CommRing α] [LinearOrder α]

/-- The point of an interval that is closest to a given one. -/
def clamp (lo hi x : α) : α := if x < lo then lo else if hi < x then hi else x

/-- A point is not farther from an interval than from an ordered one inside it. -/
theorem sq_sub_clamp_le [IsStrictOrderedRing α] {lo hi lo' hi' : α} (hlo : lo ≤ lo')
    (hhi : hi' ≤ hi)
    (hord : lo' ≤ hi') (x : α) :
    (x - clamp lo hi x) * (x - clamp lo hi x) ≤ (x - clamp lo' hi' x) * (x - clamp lo' hi' x) := by
  unfold clamp
  by_cases hbelow : x < lo
  · have hbelow' : x < lo' := hbelow.trans_le hlo
    rw [if_pos hbelow, if_pos hbelow', ← neg_mul_neg, ← neg_mul_neg (x - lo'), neg_sub, neg_sub]
    have hle : lo - x ≤ lo' - x := sub_le_sub_right hlo x
    exact mul_self_le_mul_self (sub_nonneg.mpr hbelow.le) hle
  · rw [if_neg hbelow]
    by_cases habove : hi < x
    · have habove' : hi' < x := hhi.trans_lt habove
      have hnot : ¬ x < lo' := not_lt.mpr (hord.trans habove'.le)
      rw [if_pos habove, if_neg hnot, if_pos habove']
      have hle : x - hi ≤ x - hi' := sub_le_sub_left hhi x
      exact mul_self_le_mul_self (sub_nonneg.mpr habove.le) hle
    · rw [if_neg habove, sub_self, mul_zero]
      exact mul_self_nonneg _

end Distance

end Box

end FastKV.Lib
