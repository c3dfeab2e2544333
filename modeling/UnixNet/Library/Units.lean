import Mathlib.Data.List.Basic
import Mathlib.Data.List.Infix
set_option autoImplicit false

/-!
Cutting a sequence into units. A unit ends at the first delimiter, at a given
length or at the end of the sequence, whichever comes first.
-/

namespace Units
variable {α : Type*}

/-- No longer than `m`, and a delimiter can only be the last element. -/
def Fits (d : α) (m : Nat) (p : List α) : Prop := p.length ≤ m ∧ d ∉ p.dropLast

/-- The longest prefix of `s` that fits. -/
structure Longest (d : α) (m : Nat) (s p : List α) : Prop where
  isPrefix : p <+: s
  fits : Fits d m p
  longest : ∀ q, q <+: s → Fits d m q → q.length ≤ p.length

theorem Longest.unique {d : α} {m : Nat} {s p q : List α}
    (hp : Longest d m s p) (hq : Longest d m s q) : p = q := by
  have hle := hp.longest q hq.isPrefix hq.fits
  have hge := hq.longest p hp.isPrefix hp.fits
  exact (List.prefix_of_prefix_length_le hp.isPrefix hq.isPrefix hge).eq_of_length
    (Nat.le_antisymm hge hle)

theorem fits_nil (d : α) (m : Nat) : Fits d m [] := by simp [Fits]

theorem fits_cons {d c : α} {m : Nat} {p : List α} (h : Fits d (m+1) (c :: p)) :
    Fits d m p ∧ (c = d → p = []) := by
  obtain ⟨hlen,hd⟩ := h
  cases p with
  | nil => exact ⟨fits_nil d m,fun _ => rfl⟩
  | cons b p =>
    simp only [List.dropLast_cons_cons,List.mem_cons,not_or] at hd
    refine ⟨⟨by simpa using hlen,hd.2⟩,fun hc => absurd hc.symm hd.1⟩

/-- `s` is cut into the units `ps`, each as long as its bound allows; `t` is left. -/
inductive Cut (d : α) : List Nat → List α → List (List α) → List α → Prop where
  | nil {s : List α} : Cut d [] s [] s
  | cons {m : Nat} {ms : List Nat} {s p u t : List α} {ps : List (List α)} :
      Longest d m s p → s = p ++ u → Cut d ms u ps t → Cut d (m :: ms) s (p :: ps) t

theorem Cut.flatten_append {d : α} {ms : List Nat} {s t : List α} {ps : List (List α)}
    (h : Cut d ms s ps t) : ps.flatten ++ t = s := by
  induction h with
  | nil => rfl
  | cons _ hs _ ih => rw [hs,← ih,List.flatten_cons,List.append_assoc]

theorem Cut.unique {d : α} {ms : List Nat} {s t t' : List α} {ps ps' : List (List α)}
    (h : Cut d ms s ps t) (h' : Cut d ms s ps' t') : ps = ps' ∧ t = t' := by
  induction h generalizing ps' t' with
  | nil =>
    cases h'
    exact ⟨rfl,rfl⟩
  | cons hp hs _ ih =>
    cases h' with
    | cons hp' hs' hrest' =>
      obtain rfl := hp.unique hp'
      obtain rfl := List.append_cancel_left (hs.symm.trans hs')
      obtain ⟨rfl,rfl⟩ := ih hrest'
      exact ⟨rfl,rfl⟩

variable [DecidableEq α]

def unit (d : α) : Nat → List α → List α
  | 0, _ => []
  | _+1, [] => []
  | m+1, c :: s => c :: if c = d then [] else unit d m s

@[simp] theorem unit_zero (d : α) (s : List α) : unit d 0 s = [] := by cases s <;> rfl

@[simp] theorem unit_nil (d : α) (m : Nat) : unit d m [] = [] := by cases m <;> rfl

theorem unit_initial (d : α) (m : Nat) (s : List α) : unit d m s <+: s := by
  induction m generalizing s with
  | zero => simp
  | succ m ih =>
    cases s with
    | nil => simp
    | cons c s =>
      by_cases hc : c = d
      · simp [unit,hc]
      · simpa [unit,hc] using ih s

theorem unit_of_notMem {d : α} {s : List α} (h : d ∉ s) (m : Nat) : unit d m s = s.take m := by
  induction s generalizing m with
  | nil => simp
  | cons c s ih =>
    obtain ⟨hc,hs⟩ : d ≠ c ∧ d ∉ s := by simpa using h
    cases m with
    | zero => simp
    | succ m => simp [unit,Ne.symm hc,ih hs]

/-- Where the first delimiter is known, the unit ends behind it, or at its bound. -/
theorem unit_delimited {d : α} {s : List α} (h : d ∉ s) (m : Nat) (t : List α) :
    unit d m (s ++ d :: t) = (s ++ [d]).take m := by
  induction s generalizing m with
  | nil => cases m <;> simp [unit]
  | cons c s ih =>
    obtain ⟨hc,hs⟩ : d ≠ c ∧ d ∉ s := by simpa using h
    cases m with
    | zero => simp
    | succ m => simp [unit,Ne.symm hc,ih hs]

theorem unit_length_le (d : α) (m : Nat) (s : List α) : (unit d m s).length ≤ m := by
  induction m generalizing s with
  | zero => simp
  | succ m ih =>
    cases s with
    | nil => simp
    | cons c s =>
      have h := ih s
      by_cases hc : c = d
      · simp [unit,hc]
      · simpa [unit,hc] using h

theorem unit_fits (d : α) (m : Nat) (s : List α) : Fits d m (unit d m s) := by
  refine ⟨unit_length_le d m s,?_⟩
  induction m generalizing s with
  | zero => simp
  | succ m ih =>
    cases s with
    | nil => simp
    | cons c s =>
      by_cases hc : c = d
      · simp [unit,hc]
      · have h := ih s
        cases hu : unit d m s with
        | nil => simp [unit,hc,hu]
        | cons b u =>
          rw [hu] at h
          simp [unit,hc,hu,h,Ne.symm hc]

theorem length_le_unit {d : α} {m : Nat} {s p : List α} (hp : p <+: s)
    (hf : Fits d m p) : p.length ≤ (unit d m s).length := by
  induction m generalizing s p with
  | zero => simpa using hf.1
  | succ m ih =>
    cases p with
    | nil => simp
    | cons c p =>
      obtain ⟨t,rfl⟩ := hp
      obtain ⟨hfits,hstop⟩ := fits_cons hf
      by_cases hc : c = d
      · simp [unit,hc,hstop hc]
      · simpa [unit,hc] using ih (List.prefix_append p t) hfits

theorem unit_longest (d : α) (m : Nat) (s : List α) : Longest d m s (unit d m s) :=
  ⟨unit_initial d m s,unit_fits d m s,fun _ hq hf => length_le_unit hq hf⟩

/-- What is left after the first unit. -/
def rest (d : α) (m : Nat) (s : List α) : List α := s.drop (unit d m s).length

theorem unit_append_rest (d : α) (m : Nat) (s : List α) :
    unit d m s ++ rest d m s = s :=
  List.prefix_iff_eq_append.mp (unit_initial d m s)

theorem unit_pos {d : α} {m : Nat} {s : List α} (hm : 0 < m) (hs : s ≠ []) :
    0 < (unit d m s).length := by
  cases s with
  | nil => exact absurd rfl hs
  | cons c s =>
    cases m with
    | zero => omega
    | succ m => simp [unit]

theorem length_rest_lt {d : α} {m : Nat} {s : List α} (hm : 0 < m) (hs : s ≠ []) :
    (rest d m s).length < s.length := by
  have hpos := @unit_pos _ _ d _ _ hm hs
  have hlen := List.length_pos_iff.mpr hs
  simp only [rest,List.length_drop]
  omega

/-- All units of the sequence, one after another. -/
def units (d : α) (m : Nat) (s : List α) : List (List α) :=
  if _ : 0 < m ∧ s ≠ [] then unit d m s :: units d m (rest d m s) else []
termination_by s.length
decreasing_by
  rename_i h
  exact length_rest_lt h.1 h.2

@[simp] theorem units_nil (d : α) (m : Nat) : units d m [] = [] := by
  rw [units]
  simp

theorem units_cons {d : α} {m : Nat} {s : List α} (hm : 0 < m) (hs : s ≠ []) :
    units d m s = unit d m s :: units d m (rest d m s) := by
  rw [units]
  simp [hm,hs]

theorem flatten_units {d : α} {m : Nat} (hm : 0 < m) (s : List α) :
    (units d m s).flatten = s := by
  induction s using units.induct d m with
  | case1 s h ih => rw [units_cons h.1 h.2,List.flatten_cons,ih,unit_append_rest]
  | case2 s h =>
    have hs : s = [] := by simpa [hm] using h
    rw [hs]
    simp

section
variable {d : α} {m : Nat} {b : List α}

theorem units_fitting (hb : d ∉ b) (hlen : b.length < m) (s : List α) :
    units d m (b ++ d :: s) = (b ++ [d]) :: units d m s := by
  have hunit := unit_delimited hb m s
  rw [List.take_of_length_le (by rw [List.length_append,List.length_singleton]; omega)] at hunit
  have hrest : rest d m (b ++ d :: s) = s := by
    have hsplit : b ++ d :: s = (b ++ [d]) ++ s := by simp
    rw [rest,hunit,hsplit,List.drop_left]
  rw [units_cons (by omega) (by simp),hunit,hrest]

/-- A delimited piece has at least one unit, and more when it does not fit. -/
theorem units_delimited_length (hm : 0 < m) (hb : d ∉ b) (s : List α) :
    (units d m s).length + 1 ≤ (units d m (b ++ d :: s)).length ∧
      (m ≤ b.length → (units d m s).length + 2 ≤ (units d m (b ++ d :: s)).length) := by
  induction hn : b.length using Nat.strongRecOn generalizing b with
  | ind n ih =>
    by_cases hlen : b.length < m
    · rw [units_fitting hb hlen,List.length_cons]
      exact ⟨Nat.le_refl _,fun hle => by omega⟩
    · have hsplit : b ++ d :: s = b.take m ++ (b.drop m ++ d :: s) := by
        rw [← List.append_assoc,List.take_append_drop]
      have hunit : unit d m (b ++ d :: s) = b.take m := by
        rw [unit_delimited hb,List.take_append_of_le_length (by omega)]
      have hrest : rest d m (b ++ d :: s) = b.drop m ++ d :: s := by
        have hsize : (b.take m).length = m := by
          rw [List.length_take]
          omega
        rw [rest,hunit,hsize,hsplit,List.drop_left' hsize]
      have hdrop : d ∉ b.drop m := fun hmem => hb (List.mem_of_mem_drop hmem)
      have hmore := (ih (b.drop m).length (by rw [List.length_drop]; omega) hdrop rfl).1
      have hcons := @units_cons _ _ d m (b ++ d :: s) hm (by simp)
      rw [hcons,hunit,hrest,List.length_cons]
      omega

end

/-- Delimited pieces are the units when they all fit, and else there are more units. -/
theorem units_pieces {d : α} {m : Nat} (hm : 0 < m) {bs : List (List α)} (hbs : ∀ b ∈ bs, d ∉ b) :
    ((∀ b ∈ bs, b.length < m) →
      units d m (bs.flatMap (· ++ [d])) = bs.map (· ++ [d])) ∧
      bs.length ≤ (units d m (bs.flatMap (· ++ [d]))).length ∧
      ((units d m (bs.flatMap (· ++ [d]))).length = bs.length → ∀ b ∈ bs, b.length < m) := by
  induction bs with
  | nil => simp
  | cons b bs ih =>
    obtain ⟨hb,hbs⟩ := List.forall_mem_cons.mp hbs
    obtain ⟨hfit,hle,hall⟩ := ih hbs
    have hcons : (b :: bs).flatMap (· ++ [d]) = b ++ d :: bs.flatMap (· ++ [d]) := by simp
    obtain ⟨hone,htwo⟩ := units_delimited_length hm hb (bs.flatMap (· ++ [d]))
    rw [hcons]
    refine ⟨fun h => ?_,?_,fun h => ?_⟩
    · obtain ⟨hlen,h⟩ := List.forall_mem_cons.mp h
      rw [units_fitting hb hlen,hfit h,List.map_cons]
    · rw [List.length_cons]
      omega
    · rw [List.length_cons] at h
      refine List.forall_mem_cons.mpr ⟨?_,hall (by omega)⟩
      by_contra hlen
      have hmore := htwo (by omega)
      omega

theorem units_length_le (d : α) (m : Nat) (s : List α) : (units d m s).length ≤ s.length := by
  induction s using units.induct d m with
  | case1 s h ih =>
    have hlt := @length_rest_lt _ _ d _ _ h.1 h.2
    rw [units_cons h.1 h.2,List.length_cons]
    omega
  | case2 s h =>
    rw [units,dif_neg h]
    simp

end Units
