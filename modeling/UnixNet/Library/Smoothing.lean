import Mathlib.Algebra.Order.Ring.Defs
import Mathlib.Data.Finset.Max
import Mathlib.Data.List.Basic
import Mathlib.Tactic.Ring
set_option autoImplicit false

/-! Estimates that go a part of the way to each new sample. -/

namespace Smoothing
variable {K : Type} [CommRing K]

/-- The estimate `a` after the sample `x`, which counts with the weight `g`. -/
def toward (g a x : K) : K := a + g * (x - a)

def smooth (g a : K) (xs : List K) : K := xs.foldl (toward g) a

theorem toward_convex (g a x : K) : toward g a x = (1 - g) * a + g * x := by
  unfold toward
  ring

theorem smooth_append (g a : K) (xs : List K) (x : K) :
    smooth g a (xs ++ [x]) = toward g (smooth g a xs) x := by
  rw [smooth,List.foldl_append]
  rfl

variable [LinearOrder K] [IsOrderedRing K] {g a x lo hi : K}

theorem le_toward (h0 : 0 ≤ g) (h1 : g ≤ 1) (ha : lo ≤ a) (hx : lo ≤ x) : lo ≤ toward g a x := by
  have hrest : 0 ≤ 1 - g := sub_nonneg.mpr h1
  calc lo = (1 - g) * lo + g * lo := by ring
    _ ≤ (1 - g) * a + g * x :=
      add_le_add (mul_le_mul_of_nonneg_left ha hrest) (mul_le_mul_of_nonneg_left hx h0)
    _ = toward g a x := (toward_convex g a x).symm

theorem toward_le (h0 : 0 ≤ g) (h1 : g ≤ 1) (ha : a ≤ hi) (hx : x ≤ hi) : toward g a x ≤ hi := by
  have hrest : 0 ≤ 1 - g := sub_nonneg.mpr h1
  calc toward g a x = (1 - g) * a + g * x := toward_convex g a x
    _ ≤ (1 - g) * hi + g * hi :=
      add_le_add (mul_le_mul_of_nonneg_left ha hrest) (mul_le_mul_of_nonneg_left hx h0)
    _ = hi := by ring

theorem le_smooth (h0 : 0 ≤ g) (h1 : g ≤ 1) {xs : List K} (ha : lo ≤ a) (hxs : ∀ x ∈ xs, lo ≤ x) :
    lo ≤ smooth g a xs := by
  induction xs generalizing a with
  | nil => exact ha
  | cons x xs ih =>
    refine ih (le_toward h0 h1 ha (hxs x List.mem_cons_self)) fun y hy => ?_
    exact hxs y (List.mem_cons_of_mem x hy)

theorem smooth_le (h0 : 0 ≤ g) (h1 : g ≤ 1) {xs : List K} (ha : a ≤ hi) (hxs : ∀ x ∈ xs, x ≤ hi) :
    smooth g a xs ≤ hi := by
  induction xs generalizing a with
  | nil => exact ha
  | cons x xs ih =>
    refine ih (toward_le h0 h1 ha (hxs x List.mem_cons_self)) fun y hy => ?_
    exact hxs y (List.mem_cons_of_mem x hy)

/-- An estimate that starts below all samples stays below one of them. -/
theorem smooth_le_sample (h0 : 0 ≤ g) (h1 : g ≤ 1) {xs : List K} (hne : xs ≠ [])
    (ha : ∀ x ∈ xs, a ≤ x) : ∃ x ∈ xs, smooth g a xs ≤ x := by
  obtain ⟨y,hy⟩ := List.exists_mem_of_ne_nil xs hne
  obtain ⟨x,hx,hmax⟩ := xs.toFinset.exists_max_image id ⟨y,List.mem_toFinset.mpr hy⟩
  have hmem : x ∈ xs := List.mem_toFinset.mp hx
  exact ⟨x,hmem,smooth_le h0 h1 (ha x hmem) fun z hz => hmax z (List.mem_toFinset.mpr hz)⟩

end Smoothing
