import Mathlib.Data.Finset.Basic
import Mathlib.Data.List.Basic
set_option autoImplicit false

/-! Families of processes in a list, of which one moves at a time. -/

namespace Family
variable {α : Type*} {l : List α} {i : Nat} {x y : α}

/-- What holds of the others and of the one that moved holds of all. -/
theorem forall_set {P : α → Prop} (h : ∀ z ∈ l, P z) (hy : P y) : ∀ z ∈ l.set i y, P z := by
  intro z hz
  rcases List.mem_or_eq_of_mem_set hz with hz | rfl
  · exact h z hz
  · exact hy

theorem getElem?_set (h : l[i]? = some x) (y : α) (j : Nat) :
    (l.set i y)[j]? = if i = j then some y else l[j]? := by
  have hlen : i < l.length := (List.getElem?_eq_some_iff.mp h).1
  by_cases hij : i = j
  · subst hij
    simp [hlen]
  · simp [hij]

/-- How many have the property changes as it does for the one that moved. -/
theorem countP_set (h : l[i]? = some x) (p : α → Bool) (y : α) :
    (l.set i y).countP p + (if p x then 1 else 0) = l.countP p + if p y then 1 else 0 := by
  obtain ⟨hlen,rfl⟩ := List.getElem?_eq_some_iff.mp h
  have hle := List.boole_getElem_le_countP (p := p) hlen
  rw [List.countP_set hlen]
  omega

theorem countP_gain {p : α → Bool} (h : l[i]? = some x) (hx : p x = false) (hy : p y = true) :
    (l.set i y).countP p = l.countP p + 1 := by
  simpa [hx,hy] using countP_set h p y

theorem countP_loss {p : α → Bool} (h : l[i]? = some x) (hx : p x = true) (hy : p y = false) :
    l.countP p = (l.set i y).countP p + 1 := by
  simpa [hx,hy] using (countP_set h p y).symm

theorem countP_same {p : α → Bool} (h : l[i]? = some x) (hxy : p y = p x) :
    (l.set i y).countP p = l.countP p := by
  have hset := countP_set h p y
  rw [hxy] at hset
  omega

section
variable {κ : Type*} {p : α → Prop} {key : α → κ} {S : Finset κ}

/-- The process `j` has the property and holds the key `k`. -/
def Has (p : α → Prop) (key : α → κ) (l : List α) (j : Nat) (k : κ) : Prop :=
  ∃ x, l[j]? = some x ∧ p x ∧ key x = k

/-- `S` are the keys of the processes with the property, each of them the key of one. -/
structure Keyed (p : α → Prop) (key : α → κ) (l : List α) (S : Finset κ) : Prop where
  mem : ∀ k, k ∈ S ↔ ∃ j, Has p key l j k
  inj : ∀ i j k, Has p key l i k → Has p key l j k → i = j

theorem has_set (hi : l[i]? = some x) (y : α) (j : Nat) (k : κ) :
    Has p key (l.set i y) j k ↔ if i = j then p y ∧ key y = k else Has p key l j k := by
  unfold Has
  rw [getElem?_set hi]
  split <;> simp

theorem has_of_getElem? (hi : l[i]? = some x) (j : Nat) (k : κ) :
    Has p key l j k ↔ if i = j then p x ∧ key x = k else Has p key l j k := by
  split
  · rename_i hij
    subst hij
    simp [Has,hi]
  · rfl

theorem keyed_empty (h : ∀ z ∈ l, ¬ p z) : Keyed p key l ∅ := by
  have hnone : ∀ j k, ¬ Has p key l j k := fun j k ⟨x,hx,hp,_⟩ =>
    h x (List.mem_of_getElem? hx) hp
  refine ⟨fun k => ?_,fun i j k hk => absurd hk (hnone i k)⟩
  simp [hnone]

/-- The process that moved keeps the property and its key, or is without the property. -/
theorem Keyed.keep (h : Keyed p key l S) (hi : l[i]? = some x) (hp : p y ↔ p x)
    (hkey : p x → key y = key x) : Keyed p key (l.set i y) S := by
  have hsame : ∀ j k, Has p key (l.set i y) j k ↔ Has p key l j k := by
    intro j k
    rw [has_set hi]
    split
    · rename_i hij
      rw [has_of_getElem? hi,if_pos hij,hp]
      exact and_congr_right fun hx => by rw [hkey hx]
    · rfl
  exact ⟨fun k => by simp only [h.mem,hsame],fun a b k ha hb =>
    h.inj a b k ((hsame a k).mp ha) ((hsame b k).mp hb)⟩

variable [DecidableEq κ]

theorem Keyed.insert (h : Keyed p key l S) (hi : l[i]? = some x) (hx : ¬ p x) (hy : p y)
    (hnew : key y ∉ S) : Keyed p key (l.set i y) (insert (key y) S) := by
  have hnone : ∀ k, ¬ Has p key l i k := fun k hk => by
    rw [has_of_getElem? hi,if_pos rfl] at hk
    exact hx hk.1
  have hother : ∀ j, ¬ Has p key l j (key y) := fun j hj => hnew ((h.mem _).mpr ⟨j,hj⟩)
  refine ⟨fun k => ?_,fun a b k ha hb => ?_⟩
  · simp only [Finset.mem_insert,h.mem,has_set hi]
    constructor
    · rintro (rfl | ⟨j,hj⟩)
      · exact ⟨i,by simp [hy]⟩
      · have hij : i ≠ j := fun hij => hnone k (hij ▸ hj)
        exact ⟨j,by simpa [hij] using hj⟩
    · rintro ⟨j,hj⟩
      split at hj
      · exact .inl hj.2.symm
      · exact .inr ⟨j,hj⟩
  · rw [has_set hi] at ha hb
    split at ha <;> split at hb
    · simp_all
    · exact absurd (ha.2 ▸ hb) (hother b)
    · exact absurd (hb.2 ▸ ha) (hother a)
    · exact h.inj a b k ha hb

theorem Keyed.erase (h : Keyed p key l S) (hi : l[i]? = some x) (hx : p x) (hy : ¬ p y) :
    Keyed p key (l.set i y) (S.erase (key x)) := by
  have hself : Has p key l i (key x) := ⟨x,hi,hx,rfl⟩
  refine ⟨fun k => ?_,fun a b k ha hb => ?_⟩
  · simp only [Finset.mem_erase,h.mem,has_set hi]
    constructor
    · rintro ⟨hne,j,hj⟩
      have hij : i ≠ j := by
        rintro rfl
        rw [has_of_getElem? hi,if_pos rfl] at hj
        exact hne hj.2.symm
      exact ⟨j,by simpa [hij] using hj⟩
    · rintro ⟨j,hj⟩
      split at hj
      · exact absurd hj.1 hy
      · rename_i hij
        refine ⟨fun hk => hij (h.inj i j k (hk ▸ hself) hj),j,hj⟩
  · rw [has_set hi] at ha hb
    split at ha <;> split at hb
    · exact absurd ha.1 hy
    · exact absurd ha.1 hy
    · exact absurd hb.1 hy
    · exact h.inj a b k ha hb

end

end Family
