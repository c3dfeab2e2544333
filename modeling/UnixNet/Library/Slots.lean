import Mathlib.Data.Finset.Card
import Mathlib.Data.List.Nodup
import Mathlib.Data.Finset.Dedup
import Mathlib.Logic.Function.Basic
set_option autoImplicit false

/-!
Tables of slots that keep a finite set: a new member goes into the first free
slot, and a slot is marked free when its member leaves.
-/

namespace Slots

/-- `for (i = ...; i < ...; i++) if (p) break;` leaves the first place with `p` in `i`,
or the bound. -/
def search (p : Nat → Bool) (i : Nat) : Nat → Nat
  | 0 => i
  | k+1 => if p i then i else search p (i+1) k

theorem search_spec (p : Nat → Bool) (i k : Nat) :
    i ≤ search p i k ∧ search p i k ≤ i + k ∧
      (∀ j, i ≤ j → j < search p i k → p j = false) ∧
      (search p i k < i + k → p (search p i k) = true) := by
  induction k generalizing i with
  | zero => exact ⟨Nat.le_refl i,Nat.le_refl i,fun j h₁ h₂ => by simp only [search] at h₂; omega,
      fun h => by simp only [search] at h; omega⟩
  | succ k ih =>
    unfold search
    split
    · rename_i hp
      exact ⟨Nat.le_refl i,by omega,fun j h₁ h₂ => by omega,fun _ => hp⟩
    · rename_i hp
      obtain ⟨hge,hle,hskip,hhit⟩ := ih (i+1)
      refine ⟨by omega,by omega,?_,fun h => hhit (by omega)⟩
      intro j hij hj
      by_cases h : j = i
      · subst h
        simpa using hp
      · exact hskip j (by omega) hj

theorem search_found {p : Nat → Bool} {n : Nat} (h : ∃ i < n, p i = true) :
    search p 0 n < n ∧ p (search p 0 n) = true ∧ ∀ j < search p 0 n, p j = false := by
  obtain ⟨i,hi,hp⟩ := h
  obtain ⟨_,hle,hskip,hhit⟩ := search_spec p 0 n
  have hlt : search p 0 n < n := by
    by_contra hge
    have hno := hskip i (by omega) (by omega)
    simp [hp] at hno
  exact ⟨hlt,hhit (by omega),fun j hj => hskip j (Nat.zero_le j) hj⟩

variable {κ : Type*}

/-- The used slots of `t` lie below `m` and hold the members of `S`, each once. -/
structure Keeps (used : κ → Prop) (t : Nat → κ) (m : Nat) (S : Finset κ) : Prop where
  mem : ∀ i, used (t i) → i < m ∧ t i ∈ S
  slot : ∀ k ∈ S, used k ∧ ∃ i, t i = k
  inj : ∀ i j, used (t i) → t i = t j → i = j

section
variable {used : κ → Prop} {t : Nat → κ} {m : Nat} {S : Finset κ}

theorem keeps_empty (h : ∀ i, ¬ used (t i)) : Keeps used t m ∅ :=
  ⟨fun i hi => absurd hi (h i),fun _ hk => absurd hk (Finset.notMem_empty _),
    fun i _ hi => absurd hi (h i)⟩

theorem Keeps.free (h : Keeps used t m S) {n : Nat} (hn : S.card < n) :
    ∃ i < n, ¬ used (t i) := by
  by_contra hall
  push Not at hall
  have hle : (Finset.range n).card ≤ S.card := by
    refine Finset.card_le_card_of_injOn t (fun i hi => ?_) fun i hi j _ hij => ?_
    · exact (h.mem i (hall i (Finset.mem_range.mp hi))).2
    · exact h.inj i j (hall i (Finset.mem_range.mp hi)) hij
  rw [Finset.card_range] at hle
  omega

variable [DecidableEq κ]

theorem Keeps.insert (h : Keeps used t m S) (m' : Nat) {i : Nat} {k : κ} (hfree : ¬ used (t i))
    (hk : used k) (hnew : k ∉ S) (hm : m ≤ m') (hi : i < m') :
    Keeps used (Function.update t i k) m' (insert k S) := by
  refine ⟨fun j hj => ?_,fun l hl => ?_,fun a b ha hab => ?_⟩
  · by_cases hji : j = i
    · subst hji
      exact ⟨hi,by simp⟩
    · rw [Function.update_of_ne hji] at hj ⊢
      obtain ⟨hjm,hjS⟩ := h.mem j hj
      exact ⟨by omega,Finset.mem_insert_of_mem hjS⟩
  · rcases Finset.mem_insert.mp hl with rfl | hl
    · exact ⟨hk,i,Function.update_self i l t⟩
    · obtain ⟨hused,j,rfl⟩ := h.slot l hl
      have hji : j ≠ i := by
        rintro rfl
        exact hfree hused
      exact ⟨hused,j,Function.update_of_ne hji k t⟩
  · by_cases hai : a = i <;> by_cases hbi : b = i
    · exact hai.trans hbi.symm
    · subst hai
      rw [Function.update_self,Function.update_of_ne hbi] at hab
      exact absurd (hab ▸ (h.mem b (hab ▸ hk)).2) hnew
    · subst hbi
      rw [Function.update_self,Function.update_of_ne hai] at hab
      rw [Function.update_of_ne hai] at ha
      exact absurd (hab ▸ (h.mem a ha).2) hnew
    · rw [Function.update_of_ne hai,Function.update_of_ne hbi] at hab
      rw [Function.update_of_ne hai] at ha
      exact h.inj a b ha hab

theorem Keeps.erase (h : Keeps used t m S) {i : Nat} {k : κ} (hi : used (t i)) (hk : ¬ used k) :
    Keeps used (Function.update t i k) m (S.erase (t i)) := by
  have hother : ∀ j, used (Function.update t i k j) → j ≠ i := by
    rintro j hj rfl
    rw [Function.update_self] at hj
    exact hk hj
  refine ⟨fun j hj => ?_,fun l hl => ?_,fun a b ha hab => ?_⟩
  · have hji := hother j hj
    rw [Function.update_of_ne hji] at hj ⊢
    obtain ⟨hjm,hjS⟩ := h.mem j hj
    exact ⟨hjm,Finset.mem_erase.mpr ⟨fun hsame => hji (h.inj j i hj hsame),hjS⟩⟩
  · obtain ⟨hne,hl⟩ := Finset.mem_erase.mp hl
    obtain ⟨hused,j,rfl⟩ := h.slot l hl
    have hji : j ≠ i := by
      rintro rfl
      exact hne rfl
    exact ⟨hused,j,Function.update_of_ne hji k t⟩
  · have hai := hother a ha
    have hbi := hother b (hab ▸ ha)
    rw [Function.update_of_ne hai,Function.update_of_ne hbi] at hab
    rw [Function.update_of_ne hai] at ha
    exact h.inj a b ha hab

/-- The slots of a part of `S`, in order. -/
def among (t : Nat → κ) (m : Nat) (R : Finset κ) : List Nat :=
  (List.range m).filter fun i => t i ∈ R

theorem among_nodup (t : Nat → κ) (m : Nat) (R : Finset κ) : (among t m R).Nodup :=
  List.nodup_range.filter _

theorem Keeps.mem_among (h : Keeps used t m S) {R : Finset κ} (hR : R ⊆ S) {i : Nat} :
    i ∈ among t m R ↔ t i ∈ R := by
  simp only [among,List.mem_filter,List.mem_range,decide_eq_true_eq,and_iff_right_iff_imp]
  exact fun hi => (h.mem i (h.slot _ (hR hi)).1).1

theorem Keeps.map_nodup (h : Keeps used t m S) {R : Finset κ} (hR : R ⊆ S) :
    ((among t m R).map t).Nodup := by
  refine (among_nodup t m R).map_on fun i hi j _ hij => ?_
  exact h.inj i j (h.slot _ (hR ((h.mem_among hR).mp hi))).1 hij

theorem Keeps.map_among (h : Keeps used t m S) {R : Finset κ} (hR : R ⊆ S) :
    ((among t m R).map t).toFinset = R := by
  ext k
  simp only [List.mem_toFinset,List.mem_map,h.mem_among hR]
  constructor
  · rintro ⟨i,hi,rfl⟩
    exact hi
  · intro hk
    obtain ⟨_,i,rfl⟩ := h.slot k (hR hk)
    exact ⟨i,hk,rfl⟩

theorem Keeps.length_among (h : Keeps used t m S) {R : Finset κ} (hR : R ⊆ S) :
    (among t m R).length = R.card := by
  calc (among t m R).length
      = ((among t m R).map t).length := by rw [List.length_map]
    _ = ((among t m R).map t).toFinset.card :=
      (List.toFinset_card_of_nodup (h.map_nodup hR)).symm
    _ = R.card := by rw [h.map_among hR]

/-- A new member outside the part changes none of its slots. -/
theorem Keeps.among_insert (h : Keeps used t m S) {R : Finset κ} (hR : R ⊆ S) {i m' : Nat} {k : κ}
    (hfree : ¬ used (t i)) (hk : k ∉ R) (hm : m ≤ m') :
    among (Function.update t i k) m' R = among t m R := by
  obtain ⟨d,rfl⟩ := Nat.exists_eq_add_of_le hm
  have hi : t i ∉ R := fun hi => hfree (h.slot _ (hR hi)).1
  have hsame : ∀ j, Function.update t i k j ∈ R ↔ t j ∈ R := by
    intro j
    by_cases hj : j = i
    · subst hj
      simp [hk,hi]
    · rw [Function.update_of_ne hj]
  have hnone : ((List.range d).map (m + ·)).filter (fun j => t j ∈ R) = [] := by
    refine List.filter_eq_nil_iff.mpr fun j hj => ?_
    obtain ⟨l,_,rfl⟩ := List.mem_map.mp hj
    simp only [decide_eq_true_eq]
    intro hmem
    have hlt := (h.mem _ (h.slot _ (hR hmem)).1).1
    omega
  simp only [among,hsame,List.range_add,List.filter_append,hnone,List.append_nil]

end

end Slots
