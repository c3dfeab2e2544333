import Mathlib.Data.List.Basic
import Mathlib.Logic.Function.Basic
set_option autoImplicit false

/-!
Slots `0` to `n - 1` used in a circle, with a count kept beside them. The count
may be as large as `n`.
-/

namespace CyclicBuffer
variable {α : Type*} {n start count : Nat} {slots : Nat → α} {x : α}

/-- The slots after `i`, with the first one after the last. -/
def next (n i : Nat) : Nat := if i + 1 ≥ n then 0 else i + 1

/-- What `count` slots hold, from slot `start` on. -/
def slice (slots : Nat → α) (n start count : Nat) : List α :=
  (List.range count).map fun k => slots ((start + k) % n)

theorem next_lt (hn : 0 < n) (i : Nat) : next n i < n := by
  unfold next
  split <;> omega

theorem next_eq {i : Nat} (hi : i < n) : next n i = (i + 1) % n := by
  unfold next
  split
  · rw [show i + 1 = n by omega,Nat.mod_self]
  · rw [Nat.mod_eq_of_lt (by omega)]

@[simp] theorem slice_length : (slice slots n start count).length = count := by simp [slice]

@[simp] theorem slice_mod : slice slots n (start % n) count = slice slots n start count := by
  simp [slice]

/-- Fewer than `n` slots from `start` on do not reach the one `count` places after it. -/
theorem slot_ne {k : Nat} (hk : k < count) (hcount : count < n) :
    (start + k) % n ≠ (start + count) % n := by
  intro h
  have hdvd := Nat.sub_mod_eq_zero_of_mod_eq h.symm
  rw [show start + count - (start + k) = count - k by omega,
    Nat.mod_eq_of_lt (by omega)] at hdvd
  omega

theorem slice_update_of_ne {i : Nat} (hi : ∀ k < count, (start + k) % n ≠ i) :
    slice (Function.update slots i x) n start count = slice slots n start count := by
  refine List.map_congr_left fun k hk => ?_
  exact Function.update_of_ne (hi k (List.mem_range.mp hk)) _ _

theorem slice_put (hcount : count < n) :
    slice (Function.update slots ((start + count) % n) x) n start (count + 1) =
      slice slots n start count ++ [x] := by
  have hkept : slice (Function.update slots ((start + count) % n) x) n start count =
      slice slots n start count := slice_update_of_ne fun k hk => slot_ne hk hcount
  rw [← hkept]
  simp [slice,List.range_succ]

theorem slice_take : slice slots n start (count + 1) =
    slots (start % n) :: slice slots n (start + 1) count := by
  simp only [slice,List.range_succ_eq_map,List.map_cons,List.map_map,Nat.add_zero]
  refine congrArg _ (List.map_congr_left fun k _ => ?_)
  rw [Function.comp_apply,show start + k.succ = start + 1 + k by omega]

end CyclicBuffer
