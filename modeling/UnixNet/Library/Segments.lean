import Mathlib.Data.List.Basic
import Mathlib.Algebra.Ring.Nat
import Mathlib.Algebra.Order.Group.Nat
set_option autoImplicit false

/-! Segments of a row, each with its start and its length. -/

namespace Segments
variable {β : Type}

/-- The segments begin at `a`, each where the one before has ended, and end at `b`. -/
def Consecutive : Nat → List (Nat × Nat) → Nat → Prop
  | a, [], b => a = b
  | a, s :: ss, b => s.1 = a ∧ Consecutive (a + s.2) ss b

def slice (l : List β) (s : Nat × Nat) : List β := (l.drop s.1).take s.2

theorem Consecutive.add_sum {a b : Nat} {ss : List (Nat × Nat)} (h : Consecutive a ss b) :
    a + (ss.map Prod.snd).sum = b := by
  induction ss generalizing a with
  | nil => exact h
  | cons s ss ih =>
    rw [List.map_cons,List.sum_cons,← Nat.add_assoc]
    exact ih h.2

theorem Consecutive.le {a b : Nat} {ss : List (Nat × Nat)} (h : Consecutive a ss b) :
    ∀ s ∈ ss, s.1 + s.2 ≤ b := by
  induction ss generalizing a with
  | nil => exact nofun
  | cons s ss ih =>
    obtain ⟨rfl,hrest⟩ := h
    have hsum := hrest.add_sum
    exact List.forall_mem_cons.mpr ⟨by omega,ih hrest⟩

/-- No two segments overlap. -/
theorem Consecutive.pairwise {a b : Nat} {ss : List (Nat × Nat)} (h : Consecutive a ss b) :
    (∀ s ∈ ss, a ≤ s.1) ∧ ss.Pairwise fun s t => s.1 + s.2 ≤ t.1 := by
  induction ss generalizing a with
  | nil => exact ⟨nofun,.nil⟩
  | cons s ss ih =>
    obtain ⟨rfl,hrest⟩ := h
    obtain ⟨hle,hpairs⟩ := ih hrest
    refine ⟨List.forall_mem_cons.mpr ⟨Nat.le_refl _,fun t ht => ?_⟩,.cons hle hpairs⟩
    exact Nat.le_trans (Nat.le_add_right _ _) (hle t ht)

/-- The slices together are the part of the row from `a` to `b`. -/
theorem Consecutive.slices {a b : Nat} {ss : List (Nat × Nat)} (h : Consecutive a ss b)
    (l : List β) : (ss.map (slice l)).flatten = (l.drop a).take (b - a) := by
  induction ss generalizing a with
  | nil =>
    cases h
    rw [Nat.sub_self,List.take_zero]
    rfl
  | cons s ss ih =>
    obtain ⟨rfl,hrest⟩ := h
    have hsum := hrest.add_sum
    have hlen : b - s.1 = s.2 + (b - (s.1 + s.2)) := by omega
    rw [List.map_cons,List.flatten_cons,ih hrest,hlen,List.take_add,List.drop_drop,slice]

end Segments
