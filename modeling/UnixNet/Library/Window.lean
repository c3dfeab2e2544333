import Mathlib.Data.List.Basic
set_option autoImplicit false

/-!
Buffers with an input and an output pointer. Reads fill in at the first and partial writes
take out at the second; when they meet, both go back to the start of the buffer.
-/

structure Window (α : Type*) where
  data : Nat → α
  iptr : Nat
  optr : Nat

namespace Window
variable {α : Type*} {w : Window α} {l : List α} {k cap : Nat}

/-- The elements in the places from `i` to `j`. -/
def segment (data : Nat → α) (i j : Nat) : List α := (List.range (j - i)).map fun k => data (i + k)

/-- `data` with `l` stored from place `i` on. -/
def store (data : Nat → α) (i : Nat) (l : List α) : Nat → α := fun j =>
  if h : i ≤ j ∧ j - i < l.length then l[j - i] else data j

def pending (w : Window α) : List α := segment w.data w.optr w.iptr

def fill (w : Window α) (l : List α) : Window α :=
  { w with data := store w.data w.iptr l, iptr := w.iptr + l.length }

def drain (w : Window α) (k : Nat) : Window α :=
  if w.optr + k = w.iptr then { w with iptr := 0, optr := 0 } else { w with optr := w.optr + k }

/-- The pointers are in order and within the buffer. -/
structure Within (cap : Nat) (w : Window α) : Prop where
  ordered : w.optr ≤ w.iptr
  bounded : w.iptr ≤ cap

theorem segment_self (data : Nat → α) (i : Nat) : segment data i i = [] := by simp [segment]

theorem segment_append {data : Nat → α} {i j m : Nat} (hij : i ≤ j) (hjm : j ≤ m) :
    segment data i m = segment data i j ++ segment data j m := by
  have hlen : m - i = (j - i) + (m - j) := by omega
  unfold segment
  rw [hlen,List.range_add,List.map_append,List.map_map]
  congr 1
  refine List.map_congr_left fun k _ => ?_
  have hk : i + (j - i + k) = j + k := by omega
  exact congrArg data hk

theorem segment_congr {data data' : Nat → α} {i j : Nat}
    (h : ∀ k, i ≤ k → k < j → data k = data' k) : segment data i j = segment data' i j := by
  refine List.map_congr_left fun k hk => ?_
  have hlt := List.mem_range.mp hk
  exact h (i + k) (by omega) (by omega)

theorem segment_store (data : Nat → α) (i : Nat) (l : List α) :
    segment (store data i l) i (i + l.length) = l := by
  refine List.ext_getElem (by simp [segment]) fun k hk hl => ?_
  simp [segment,store,hl]

theorem segment_length (data : Nat → α) (i j : Nat) : (segment data i j).length = j - i := by
  simp [segment]

theorem pending_eq_nil (h : w.Within cap) : w.pending = [] ↔ w.optr = w.iptr := by
  have hordered := h.ordered
  rw [pending,← List.length_eq_zero_iff,segment_length]
  omega

/-- What is read in comes after all that was pending. -/
theorem pending_fill (h : w.optr ≤ w.iptr) : (w.fill l).pending = w.pending ++ l := by
  have hold : segment (store w.data w.iptr l) w.optr w.iptr = segment w.data w.optr w.iptr :=
    segment_congr fun k _ hk => dif_neg fun hstored => by omega
  simp only [pending,fill]
  rw [segment_append h (Nat.le_add_right _ _),hold,segment_store]

/-- What is taken out came first of all that was pending. -/
theorem pending_drain (h : w.optr + k ≤ w.iptr) :
    w.pending = segment w.data w.optr (w.optr + k) ++ (w.drain k).pending := by
  simp only [pending]
  rw [segment_append (Nat.le_add_right _ _) h]
  congr 1
  unfold drain
  split
  · rename_i hmeet
    rw [hmeet,segment_self,segment_self]
  · rfl

theorem drain_meet : (w.drain k).optr = (w.drain k).iptr ↔ w.optr + k = w.iptr := by
  unfold drain
  split
  · rename_i hmeet
    exact iff_of_true rfl hmeet
  · rfl

theorem within_fill (h : w.Within cap) (hl : w.iptr + l.length ≤ cap) : (w.fill l).Within cap :=
  ⟨Nat.le_trans h.ordered (Nat.le_add_right _ _),hl⟩

theorem within_drain (h : w.Within cap) (hk : w.optr + k ≤ w.iptr) : (w.drain k).Within cap := by
  unfold drain
  split
  · exact ⟨Nat.le_refl 0,Nat.zero_le cap⟩
  · exact ⟨hk,h.bounded⟩

end Window
