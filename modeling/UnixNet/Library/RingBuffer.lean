import Mathlib.Data.List.Basic
import Mathlib.Data.Fin.Basic
import Mathlib.Logic.Function.Basic
set_option autoImplicit false

/-!
Rings of `n` slots without a count. The ring is empty when its two indexes are
equal, so that it holds at most `n - 1` elements.
-/

structure RingBuffer (α : Type*) (n : Nat) where
  slots : Fin n → α
  iget : Fin n
  iput : Fin n

namespace RingBuffer
variable {α : Type*} {n : Nat} {r : RingBuffer α n} {x : α}

/-- The index after `i`, or the first one. -/
def next (i : Fin n) : Fin n := if h : i.val + 1 < n then ⟨i.val + 1,h⟩ else ⟨0,i.pos⟩

def put (r : RingBuffer α n) (x : α) : RingBuffer α n :=
  { r with slots := Function.update r.slots r.iput x, iput := next r.iput }

def take (r : RingBuffer α n) : RingBuffer α n := { r with iget := next r.iget }

/-- How many elements wait. -/
def used (r : RingBuffer α n) : Nat :=
  if r.iget.val ≤ r.iput.val then r.iput.val - r.iget.val else n - r.iget.val + r.iput.val

/-- The slot of the `k`-th element that waits. -/
def slot (r : RingBuffer α n) (k : Nat) : Fin n := ⟨(r.iget.val + k) % n,Nat.mod_lt _ r.iget.pos⟩

def content (r : RingBuffer α n) : List α := (List.range r.used).map fun k => r.slots (r.slot k)

theorem next_val (i : Fin n) : (next i).val = if i.val + 1 < n then i.val + 1 else 0 := by
  unfold next
  split <;> rfl

theorem used_lt (r : RingBuffer α n) : r.used < n := by
  have hget := r.iget.isLt
  have hput := r.iput.isLt
  unfold used
  split <;> omega

theorem slot_val {k : Nat} (hk : k < n) :
    (r.slot k).val = if r.iget.val + k < n then r.iget.val + k else r.iget.val + k - n := by
  have hget := r.iget.isLt
  simp only [slot]
  split
  · rename_i hlt
    exact Nat.mod_eq_of_lt hlt
  · rename_i hge
    rw [Nat.mod_eq_sub_mod (by omega),Nat.mod_eq_of_lt (by omega)]

theorem used_eq_zero : r.used = 0 ↔ r.iget = r.iput := by
  have hget := r.iget.isLt
  rw [Fin.ext_iff]
  unfold used
  split <;> omega

theorem content_length (r : RingBuffer α n) : r.content.length = r.used := by simp [content]

theorem content_eq_nil : r.content = [] ↔ r.iget = r.iput := by
  rw [← List.length_eq_zero_iff,content_length,used_eq_zero]

/-- The slot that is written next holds no element that waits. -/
theorem slot_ne_iput {k : Nat} (hk : k < r.used) : r.slot k ≠ r.iput := by
  have hget := r.iget.isLt
  have hput := r.iput.isLt
  have hval := slot_val (r := r) (Nat.lt_trans hk r.used_lt)
  intro h
  rw [h] at hval
  unfold used at hk
  split at hk <;> split at hval <;> omega

theorem slot_used (r : RingBuffer α n) : r.slot r.used = r.iput := by
  have hget := r.iget.isLt
  have hput := r.iput.isLt
  rw [Fin.ext_iff,slot_val r.used_lt]
  unfold used
  split <;> split <;> omega

/-- The writer meets the reader when one free slot was left. -/
theorem put_meets : (r.put x).iput = (r.put x).iget ↔ r.used + 1 = n := by
  have hget := r.iget.isLt
  have hput := r.iput.isLt
  rw [Fin.ext_iff]
  simp only [put,next_val]
  unfold used
  split <;> split <;> omega

theorem used_put (h : r.used + 1 ≠ n) : (r.put x).used = r.used + 1 := by
  have hget := r.iget.isLt
  have hput := r.iput.isLt
  simp only [used,put,next_val] at h ⊢
  split at h <;> split <;> split <;> omega

theorem content_put (h : r.used + 1 ≠ n) : (r.put x).content = r.content ++ [x] := by
  have hslot : ∀ k, (r.put x).slot k = r.slot k := fun k => rfl
  simp only [content,used_put h,List.range_succ,List.map_append,hslot]
  congr 1
  · refine List.map_congr_left fun k hk => ?_
    exact Function.update_of_ne (slot_ne_iput (List.mem_range.mp hk)) _ _
  · simp [put,slot_used]

theorem used_take (h : r.iget ≠ r.iput) : r.used = r.take.used + 1 := by
  have hget := r.iget.isLt
  have hput := r.iput.isLt
  have hne : r.iget.val ≠ r.iput.val := fun heq => h (Fin.ext heq)
  simp only [used,take,next_val]
  split <;> split <;> split <;> omega

theorem content_take (h : r.iget ≠ r.iput) : r.content = r.slots r.iget :: r.take.content := by
  have hused := used_take h
  have hlt := r.used_lt
  have hget := r.iget.isLt
  rw [content,hused,List.range_succ_eq_map,List.map_cons,List.map_map]
  refine congrArg₂ List.cons ?_ (List.map_congr_left fun k hk => ?_)
  · exact congrArg r.slots (Fin.ext (Nat.mod_eq_of_lt hget))
  · refine congrArg r.slots (Fin.ext ?_)
    have hk := List.mem_range.mp hk
    rw [slot_val (by omega),slot_val (by omega)]
    simp only [take,next_val]
    split <;> split <;> split <;> omega

end RingBuffer
