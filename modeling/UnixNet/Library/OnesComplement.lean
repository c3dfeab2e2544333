import Mathlib.Data.Nat.Basic
import Mathlib.Data.List.Basic
import Mathlib.Algebra.Ring.Nat
import Mathlib.Algebra.Order.Group.Nat
set_option autoImplicit false

/-! Sums of words in base `b+1` with the carry added back at the low end. -/

namespace OnesComplement

def fold (base x : Nat) : Nat := x / base + x % base

/-- The carry is added back after every word. -/
def sum (base : Nat) : List Nat → Nat
  | [] => 0
  | w :: ws => fold base (w + sum base ws)

section
variable {b : Nat}

theorem fold_mod (x : Nat) : fold (b + 1) x % b = x % b := by
  have hsplit : x = b * (x / (b + 1)) + fold (b + 1) x := by
    have h := Nat.div_add_mod x (b + 1)
    rw [Nat.add_mul,Nat.one_mul] at h
    rw [fold]
    omega
  conv_rhs => rw [hsplit,Nat.mul_add_mod]

theorem fold_eq_zero_iff (x : Nat) : fold (b + 1) x = 0 ↔ x = 0 := by
  constructor
  · intro h
    have hdiv := Nat.div_add_mod x (b + 1)
    rw [fold,Nat.add_eq_zero_iff] at h
    rw [h.1,h.2] at hdiv
    omega
  · rintro rfl
    simp [fold]

theorem fold_le {x : Nat} (h : x ≤ 2 * b) : fold (b + 1) x ≤ b := by
  have hq : x / (b + 1) < 2 := Nat.div_lt_of_lt_mul (by omega)
  have hdiv := Nat.div_add_mod x (b + 1)
  have hr : x % (b + 1) < b + 1 := Nat.mod_lt x (Nat.succ_pos b)
  rw [fold]
  obtain hq | hq := Nat.lt_succ_iff_lt_or_eq.mp hq
  · omega
  · rw [hq,Nat.mul_one] at hdiv
    omega

/-- Two words worth of carry are gone after the first time. -/
theorem fold_le_two_mul {x : Nat} (h : x < (b + 1) * (b + 1)) : fold (b + 1) x ≤ 2 * b := by
  have hq : x / (b + 1) < b + 1 := Nat.div_lt_of_lt_mul h
  have hr : x % (b + 1) < b + 1 := Nat.mod_lt x (Nat.succ_pos b)
  rw [fold]
  omega

/-- A word is known from its residue, up to the two forms of zero. -/
theorem eq_of_mod_eq {x y : Nat} (hx : x ≤ b) (hy : y ≤ b) (hmod : x % b = y % b)
    (hzero : x = 0 ↔ y = 0) : x = y := by
  obtain hx' | rfl := Nat.lt_or_eq_of_le hx <;> obtain hy' | rfl := Nat.lt_or_eq_of_le hy
  · rwa [Nat.mod_eq_of_lt hx',Nat.mod_eq_of_lt hy'] at hmod
  · rw [Nat.mod_eq_of_lt hx',Nat.mod_self] at hmod
    exact hmod.trans (hzero.mp hmod).symm
  · rw [Nat.mod_eq_of_lt hy',Nat.mod_self] at hmod
    exact (hzero.mpr hmod.symm).trans hmod
  · rfl

variable {ws : List Nat}

theorem sum_le (h : ∀ w ∈ ws, w ≤ b) : sum (b + 1) ws ≤ b := by
  induction ws with
  | nil => exact Nat.zero_le b
  | cons w ws ih =>
    have hw := h w List.mem_cons_self
    have hws := ih fun v hv => h v (List.mem_cons_of_mem w hv)
    exact fold_le (by omega)

theorem sum_mod (ws : List Nat) : sum (b + 1) ws % b = ws.sum % b := by
  induction ws with
  | nil => rfl
  | cons w ws ih => rw [sum,fold_mod,List.sum_cons,Nat.add_mod,ih,← Nat.add_mod]

theorem sum_eq_zero_iff (ws : List Nat) : sum (b + 1) ws = 0 ↔ ws.sum = 0 := by
  induction ws with
  | nil => exact Iff.rfl
  | cons w ws ih =>
    rw [sum,fold_eq_zero_iff,List.sum_cons,Nat.add_eq_zero_iff,ih,Nat.add_eq_zero_iff]

/-- The sum of data with their checksum is the word of all ones. -/
theorem sum_eq_max_iff (hb : 0 < b) (h : ∀ w ∈ ws, w ≤ b) :
    sum (b + 1) ws = b ↔ ws.sum % b = 0 ∧ ws.sum ≠ 0 := by
  rw [← sum_mod,Ne,← sum_eq_zero_iff (b := b)]
  constructor
  · intro hmax
    rw [hmax,Nat.mod_self]
    exact ⟨rfl,hb.ne'⟩
  · rintro ⟨hmod,hne⟩
    exact eq_of_mod_eq (sum_le h) (Nat.le_refl b) (by rw [hmod,Nat.mod_self])
      (iff_of_false hne hb.ne')

/-- Carries may be left in a wide accumulator and added back twice at the end. -/
theorem fold_fold_sum (h : ∀ w ∈ ws, w ≤ b) (hwide : ws.sum < (b + 1) * (b + 1)) :
    fold (b + 1) (fold (b + 1) ws.sum) = sum (b + 1) ws := by
  refine eq_of_mod_eq (fold_le (fold_le_two_mul hwide)) (sum_le h) ?_ ?_
  · rw [fold_mod,fold_mod,sum_mod]
  · rw [fold_eq_zero_iff,fold_eq_zero_iff,sum_eq_zero_iff]

end

end OnesComplement
