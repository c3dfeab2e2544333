import Mathlib.Algebra.Order.Field.Power
import Mathlib.Data.Int.Log
import Mathlib.Data.Rat.Floor
import Mathlib.Tactic.Linarith
import Mathlib.Tactic.NormNum
import Mathlib.Tactic.Positivity
import Mathlib.Tactic.Ring
set_option autoImplicit false

/-! Binary floating point: the finite numbers of a format, and rounding to the nearest of them,
ties to even. Numbers have no largest exponent. -/

structure BinaryFormat where
  prec : Nat
  emin : Int
  prec_pos : 0 < prec

namespace BinaryFormat
variable (F : BinaryFormat)

def Represents (q : ℚ) : Prop :=
  ∃ m e : Int, |m| < 2 ^ F.prec ∧ F.emin ≤ e ∧ q = m * (2 : ℚ) ^ e

def roundInt (x : ℚ) : Int :=
  if x - ⌊x⌋ < 1 / 2 then ⌊x⌋
  else if 1 / 2 < x - ⌊x⌋ then ⌊x⌋ + 1
  else if ⌊x⌋ % 2 = 0 then ⌊x⌋
  else ⌊x⌋ + 1

/-- The exponent of the last place that a number near `q` has. -/
def lastPlace (q : ℚ) : Int := max (Int.log 2 |q| - (F.prec - 1 : Nat)) F.emin

def nearest (q : ℚ) : ℚ := roundInt (q / (2 : ℚ) ^ F.lastPlace q) * (2 : ℚ) ^ F.lastPlace q

@[simp] theorem roundInt_intCast (m : Int) : roundInt m = m := by simp [roundInt]

theorem roundInt_error (x : ℚ) : |(roundInt x : ℚ) - x| ≤ 1 / 2 := by
  have hlow := Int.floor_le x
  have hhigh := Int.lt_floor_add_one x
  unfold roundInt
  split_ifs <;> push_cast <;> rw [abs_le] <;> constructor <;> linarith

theorem roundInt_abs_le {x : ℚ} {k : Nat} (h : |x| < k) : |roundInt x| ≤ k := by
  have herr := abs_le.mp (roundInt_error x)
  have hx := abs_lt.mp h
  have hlow : -(k : ℚ) - 1 < roundInt x := by linarith
  have hhigh : (roundInt x : ℚ) < k + 1 := by linarith
  have hlow' : -(k : Int) - 1 < roundInt x := by exact_mod_cast hlow
  have hhigh' : roundInt x < (k : Int) + 1 := by exact_mod_cast hhigh
  rw [abs_le]
  omega

theorem two_zpow_add (a b : Int) : (2 : ℚ) ^ (a + b) = (2 : ℚ) ^ a * (2 : ℚ) ^ b :=
  zpow_add₀ (by norm_num) a b

variable {F} {q : ℚ}

theorem lastPlace_le {m e : Int} (hm : |m| < 2 ^ F.prec) (he : F.emin ≤ e)
    (h : m * (2 : ℚ) ^ e ≠ 0) : F.lastPlace (m * (2 : ℚ) ^ e) ≤ e := by
  have hpos := F.prec_pos
  have hlog : (2 : ℚ) ^ Int.log 2 |m * (2 : ℚ) ^ e| ≤ |m * (2 : ℚ) ^ e| :=
    Int.zpow_log_le_self (by norm_num) (abs_pos.mpr h)
  have hlt : |m * (2 : ℚ) ^ e| < (2 : ℚ) ^ ((F.prec : Int) + e) := by
    rw [abs_mul,abs_of_pos (zpow_pos (by norm_num : (0 : ℚ) < 2) e),two_zpow_add,zpow_natCast]
    exact mul_lt_mul_of_pos_right (by exact_mod_cast hm) (by positivity)
  have hexp := (zpow_lt_zpow_iff_right₀ (by norm_num : (1 : ℚ) < 2)).mp (lt_of_le_of_lt hlog hlt)
  unfold lastPlace
  omega

/-- A number of the format is its own nearest. -/
theorem nearest_of_represents (h : F.Represents q) : F.nearest q = q := by
  obtain ⟨m,e,hm,he,rfl⟩ := h
  by_cases hz : m * (2 : ℚ) ^ e = 0
  · simp [nearest,hz,roundInt]
  · have hle := lastPlace_le hm he hz
    unfold nearest
    generalize F.lastPlace (m * (2 : ℚ) ^ e) = p at hle
    obtain ⟨k,hk⟩ := Int.eq_ofNat_of_zero_le (Int.sub_nonneg.mpr hle)
    have hsplit : (2 : ℚ) ^ e = (2 : ℚ) ^ k * (2 : ℚ) ^ p := by
      rw [← zpow_natCast,← two_zpow_add]
      congr 1
      omega
    have hquot : m * (2 : ℚ) ^ e / (2 : ℚ) ^ p = ((m * 2 ^ k : Int) : ℚ) := by
      rw [hsplit,← mul_assoc,mul_div_cancel_right₀ _ (by positivity)]
      push_cast
      rfl
    rw [hquot,roundInt_intCast,hsplit]
    push_cast
    ring

theorem represents_of_abs_le {m e : Int} (hm : |m| ≤ 2 ^ F.prec) (he : F.emin ≤ e) :
    F.Represents (m * (2 : ℚ) ^ e) := by
  by_cases hlt : |m| < 2 ^ F.prec
  · exact ⟨m,e,hlt,he,rfl⟩
  · -- the rounding has carried into a new place
    have hpos := F.prec_pos
    obtain ⟨k,hk⟩ := Nat.exists_eq_add_of_lt hpos
    have heq : |m| = 2 ^ F.prec := le_antisymm hm (not_lt.mp hlt)
    have hpow : (2 : Int) ^ F.prec = 2 * 2 ^ k := by rw [hk,Nat.zero_add,pow_succ']
    obtain hm | hm := abs_choice m
    · refine ⟨2 ^ k,e + 1,?_,by omega,?_⟩
      · rw [abs_of_pos (by positivity),hpow]
        have := pow_pos (by norm_num : (0 : Int) < 2) k
        omega
      · rw [← hm,heq,hpow,two_zpow_add]
        push_cast
        ring
    · refine ⟨-2 ^ k,e + 1,?_,by omega,?_⟩
      · rw [abs_neg,abs_of_pos (by positivity),hpow]
        have := pow_pos (by norm_num : (0 : Int) < 2) k
        omega
      · have hneg : m = -(2 * 2 ^ k) := by omega
        rw [hneg,two_zpow_add]
        push_cast
        ring

theorem represents_nearest (q : ℚ) : F.Represents (F.nearest q) := by
  have hpos := F.prec_pos
  have hlt : |q / (2 : ℚ) ^ F.lastPlace q| < ((2 ^ F.prec : Nat) : ℚ) := by
    have hscale : (0 : ℚ) < (2 : ℚ) ^ F.lastPlace q := by positivity
    rw [abs_div,abs_of_pos hscale,div_lt_iff₀ hscale]
    push_cast
    rw [← zpow_natCast,← two_zpow_add]
    refine lt_of_lt_of_le (Int.lt_zpow_succ_log_self (by norm_num : 1 < 2) |q|) ?_
    refine zpow_le_zpow_right₀ (by norm_num : (1 : ℚ) ≤ 2) ?_
    unfold lastPlace
    omega
  have hle := roundInt_abs_le hlt
  push_cast at hle
  exact represents_of_abs_le hle (le_max_right _ _)

end BinaryFormat

/-- The finite numbers of a format. -/
structure BinaryFloat (F : BinaryFormat) where
  val : ℚ
  represents : F.Represents val

namespace BinaryFloat
variable {F : BinaryFormat}

def round (q : ℚ) : BinaryFloat F := ⟨F.nearest q,BinaryFormat.represents_nearest q⟩

def mul (x y : BinaryFloat F) : BinaryFloat F := round (x.val * y.val)

def div (x y : BinaryFloat F) : BinaryFloat F := round (x.val / y.val)

@[simp] theorem val_round {q : ℚ} (h : F.Represents q) : (round q : BinaryFloat F).val = q :=
  BinaryFormat.nearest_of_represents h

end BinaryFloat
