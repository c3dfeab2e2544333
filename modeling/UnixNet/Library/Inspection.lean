import Mathlib.Data.List.Range
import Mathlib.Logic.Basic
set_option autoImplicit false

/-! Programs that look at the cells of an array, and how far they look. -/

/-- Which cell a program looks at next depends on what it has found so far. -/
inductive Inspect (β α : Type) where
  | done (a : α) : Inspect β α
  | look (i : Nat) (next : β → Inspect β α) : Inspect β α

namespace Inspect
variable {β α γ : Type}

def bind : Inspect β α → (α → Inspect β γ) → Inspect β γ
  | .done a, f => f a
  | .look i next, f => .look i fun b => (next b).bind f

instance : Monad (Inspect β) where
  pure := .done
  bind := bind

def cell (i : Nat) : Inspect β β := .look i .done

/-- `k` cells from the `i`-th on. -/
def cells (i : Nat) : Nat → Inspect β (List β)
  | 0 => pure []
  | k+1 => do
    let b ← cell i
    let bs ← cells (i + 1) k
    pure (b :: bs)

/-- One program for each entry of a list, one after the other. -/
def each (f : γ → Inspect β α) : List γ → Inspect β (List α)
  | [] => pure []
  | x :: xs => do
    let a ← f x
    let as ← each f xs
    pure (a :: as)

def run (buf : Nat → β) : Inspect β α → α
  | .done a => a
  | .look i next => (next (buf i)).run buf

/-- The program looks at none but the first `n` cells. -/
def Within (n : Nat) (buf : Nat → β) : Inspect β α → Prop
  | .done _ => True
  | .look i next => i < n ∧ (next (buf i)).Within n buf

instance decidableWithin (n : Nat) (buf : Nat → β) :
    (p : Inspect β α) → Decidable (p.Within n buf)
  | .done _ => inferInstanceAs (Decidable True)
  | .look i next =>
    have := decidableWithin n buf (next (buf i))
    inferInstanceAs (Decidable (i < n ∧ (next (buf i)).Within n buf))

section
variable {n : Nat} {buf : Nat → β}

@[simp] theorem run_pure (a : α) : (pure a : Inspect β α).run buf = a := (rfl)

@[simp] theorem run_cell (i : Nat) : (cell i).run buf = buf i := (rfl)

@[simp] theorem run_bind (p : Inspect β α) (f : α → Inspect β γ) :
    (p >>= f).run buf = (f (p.run buf)).run buf := by
  induction p with
  | done a => rfl
  | look i next ih => exact ih (buf i)

@[simp] theorem run_ite (c : Prop) [Decidable c] (p q : Inspect β α) :
    (if c then p else q).run buf = if c then p.run buf else q.run buf := by split <;> rfl

@[simp] theorem within_pure (a : α) : (pure a : Inspect β α).Within n buf := trivial

@[simp] theorem within_cell (i : Nat) : (cell i).Within n buf ↔ i < n :=
  Iff.of_eq (and_true _)

@[simp] theorem within_bind (p : Inspect β α) (f : α → Inspect β γ) :
    (p >>= f).Within n buf ↔ p.Within n buf ∧ (f (p.run buf)).Within n buf := by
  induction p with
  | done a => exact (and_iff_right trivial).symm
  | look i next ih => exact (and_congr_right fun _ => ih (buf i)).trans and_assoc.symm

@[simp] theorem within_ite (c : Prop) [Decidable c] (p q : Inspect β α) :
    (if c then p else q).Within n buf ↔ if c then p.Within n buf else q.Within n buf := by
  split <;> rfl

theorem run_cells (i k : Nat) :
    (cells i k).run buf = (List.range k).map fun j => buf (i + j) := by
  induction k generalizing i with
  | zero => rfl
  | succ k ih =>
    rw [cells,run_bind,run_bind,ih,run_pure,List.range_succ_eq_map,List.map_cons,List.map_map]
    simp [Function.comp_def,Nat.add_comm,Nat.add_left_comm]

theorem run_cells_add (i j k : Nat) :
    (cells i (j + k)).run buf = (cells i j).run buf ++ (cells (i + j) k).run buf := by
  simp only [run_cells,List.range_add,List.map_append,List.map_map,Function.comp_def,Nat.add_assoc]

@[simp] theorem within_cells (i k : Nat) : (cells i k).Within n buf ↔ k = 0 ∨ i + k ≤ n := by
  induction k generalizing i with
  | zero => simp [cells]
  | succ k ih =>
    simp only [cells,within_bind,within_cell,ih,within_pure,and_true]
    omega

theorem run_each (f : γ → Inspect β α) (xs : List γ) :
    (each f xs).run buf = xs.map fun x => (f x).run buf := by
  induction xs with
  | nil => rfl
  | cons x xs ih => rw [each,run_bind,run_bind,ih,run_pure,List.map_cons]

@[simp] theorem within_each (f : γ → Inspect β α) (xs : List γ) :
    (each f xs).Within n buf ↔ ∀ x ∈ xs, (f x).Within n buf := by
  induction xs with
  | nil => simp [each]
  | cons x xs ih => simp [each,ih]

/-- Cells that are not looked at have no influence. -/
theorem run_congr {p : Inspect β α} {buf' : Nat → β} (hsame : ∀ i < n, buf' i = buf i)
    (h : p.Within n buf) : p.run buf' = p.run buf := by
  induction p with
  | done a => rfl
  | look i next ih =>
    obtain ⟨hi,hnext⟩ := h
    rw [run,run,hsame i hi]
    exact ih _ hnext

end

end Inspect
