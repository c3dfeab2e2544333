import Mathlib.Data.List.Basic
import Mathlib.Data.List.Infix
set_option autoImplicit false

/-! Logs in which what happens depends on what happened before. -/

namespace History
variable {α : Type*} {P : List α → α → Prop}

/-- Each entry of the log is allowed by those before it. -/
def Heeds (P : List α → α → Prop) (l : List α) : Prop :=
  ∀ before x, before ++ [x] <+: l → P before x

theorem heeds_nil (P : List α → α → Prop) : Heeds P [] := by
  intro before x h
  simpa using List.prefix_nil.mp h

theorem heeds_concat (l : List α) (x : α) : Heeds P (l ++ [x]) ↔ Heeds P l ∧ P l x := by
  constructor
  · exact fun h => ⟨fun before y hy => h before y (hy.trans (List.prefix_append l [x])),
      h l x (List.prefix_refl _)⟩
  · rintro ⟨hl,hx⟩ before y hy
    rcases List.prefix_concat_iff.mp hy with heq | hy
    · obtain ⟨rfl,hxy⟩ := List.append_inj' heq rfl
      cases hxy
      exact hx
    · exact hl before y hy

/-- An entry that is not allowed after itself. -/
theorem Heeds.count_le_one [BEq α] [LawfulBEq α] {l : List α} (h : Heeds P l) {x : α}
    (hx : ∀ before, P before x → x ∉ before) : l.count x ≤ 1 := by
  induction l using List.reverseRecOn with
  | nil => exact Nat.zero_le 1
  | append_singleton l y ih =>
    obtain ⟨hl,hy⟩ := (heeds_concat l y).mp h
    rw [List.count_append]
    by_cases heq : y = x
    · rw [List.count_eq_zero.mpr (hx l (heq ▸ hy)),heq]
      simp
    · have hzero : [y].count x = 0 := List.count_eq_zero.mpr (by simpa using Ne.symm heq)
      rw [hzero]
      exact ih hl

/-- A property that each entry keeps just when it is allowed holds all along the log just when
all entries are allowed. -/
theorem heeds_iff {S : List α → Prop} (h0 : S []) (hstep : ∀ l x, S l → (S (l ++ [x]) ↔ P l x))
    (l : List α) : Heeds P l ↔ ∀ before, before <+: l → S before := by
  induction l using List.reverseRecOn with
  | nil => exact iff_of_true (heeds_nil P) fun before h => List.prefix_nil.mp h ▸ h0
  | append_singleton l x ih =>
    rw [heeds_concat]
    constructor
    · rintro ⟨hl,hx⟩ before hb
      have hall := ih.mp hl
      rcases List.prefix_concat_iff.mp hb with rfl | hb
      · exact (hstep l x (hall l (List.prefix_refl l))).mpr hx
      · exact hall before hb
    · intro h
      have hall : ∀ before, before <+: l → S before :=
        fun before hb => h before (hb.trans (List.prefix_append l [x]))
      exact ⟨ih.mpr hall,(hstep l x (hall l (List.prefix_refl l))).mp (h _ (List.prefix_refl _))⟩

/-- New entries that do not matter to each other. -/
theorem heeds_append (l : List α) {es : List α}
    (h : ∀ x ∈ es, ∀ before, ∀ y ∈ es, P (before ++ [x]) y ↔ P before y) :
    Heeds P (l ++ es) ↔ Heeds P l ∧ ∀ x ∈ es, P l x := by
  induction es generalizing l with
  | nil => simp
  | cons x es ih =>
    have hnext := ih (l ++ [x]) fun y hy before z hz =>
      h y (List.mem_cons_of_mem x hy) before z (List.mem_cons_of_mem x hz)
    have hsame : (∀ y ∈ es, P (l ++ [x]) y) ↔ ∀ y ∈ es, P l y :=
      forall₂_congr fun y hy => h x List.mem_cons_self l y (List.mem_cons_of_mem x hy)
    rw [← List.append_cons] at hnext
    rw [hnext,heeds_concat,hsame,List.forall_mem_cons,and_assoc]

end History
