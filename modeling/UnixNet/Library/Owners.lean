import Mathlib.Data.Multiset.AddSub
import Mathlib.Data.Multiset.UnionInter
import UnixNet.Library.Arena
set_option autoImplicit false

/-! The objects of an arena that were allocated since some time, and who has to free them. -/

namespace Arena
variable {α : Type} {A B C : Arena α} {own keep : Multiset Nat} {i : Nat}

theorem alloc_next {x : α} {p : Option Nat} (h : A.alloc x = (p,B)) :
    B.next = A.next + 1 ∧ B.grant = A.grant ∧ (p.isSome ↔ A.grant A.next = true) := by
  obtain ⟨rfl,rfl⟩ := Prod.mk.inj h
  refine ⟨rfl,rfl,?_⟩
  cases A.grant A.next <;> simp

/-- Freeing what is not live is an error. -/
def free (A : Arena α) (i : Nat) : Option (Arena α) :=
  if (A.obj i).isSome then
    some { A with
      obj := fun j => if j = i then none else A.obj j
      fresh := fun j h => by
        split
        · rfl
        · exact A.fresh j h }
  else none

/-- A null pointer is not freed. -/
def freePtr (A : Arena α) : Option Nat → Option (Arena α)
  | none => some A
  | some i => A.free i

/-- The live objects of `B` that `A` does not have are those in `own`, each one once. -/
structure Owns (A : Arena α) (own : Multiset Nat) (B : Arena α) : Prop where
  le : A.next ≤ B.next
  grant : B.grant = A.grant
  old : ∀ i < A.next, B.obj i = A.obj i
  nodup : own.Nodup
  mem_iff : ∀ i, i ∈ own ↔ A.next ≤ i ∧ (B.obj i).isSome = true

/-- The objects are those that there were: what was allocated since has been freed. -/
def Freed (A B : Arena α) : Prop := ∀ i, B.obj i = A.obj i

namespace Owns

theorem refl (A : Arena α) : A.Owns 0 A := by
  refine ⟨Nat.le_refl _,rfl,fun _ _ => rfl,Multiset.nodup_zero,fun i => ?_⟩
  simp only [Multiset.notMem_zero,false_iff,not_and]
  intro hle
  simp [A.fresh i hle]

theorem zero_iff (h : A.Owns own B) : own = 0 ↔ ∀ i, A.next ≤ i → B.obj i = none := by
  constructor
  · rintro rfl i hle
    by_contra hlive
    have hmem := (h.mem_iff i).mpr ⟨hle,Option.isSome_iff_ne_none.mpr hlive⟩
    simp at hmem
  · intro hnone
    refine Multiset.eq_zero_of_forall_notMem fun i hi => ?_
    obtain ⟨hle,hlive⟩ := (h.mem_iff i).mp hi
    simp [hnone i hle] at hlive

theorem freed_iff (h : A.Owns own B) : A.Freed B ↔ own = 0 := by
  rw [h.zero_iff]
  constructor
  · exact fun hsame i hle => (hsame i).trans (A.fresh i hle)
  · intro hnone i
    by_cases hle : A.next ≤ i
    · rw [hnone i hle,A.fresh i hle]
    · exact h.old i (by omega)

theorem alloc_none {x : α} (h : A.Owns own B) (halloc : B.alloc x = (none,C)) : A.Owns own C := by
  cases hg : B.grant B.next with
  | true => simp [alloc,hg] at halloc
  | false =>
    obtain ⟨_,rfl⟩ := Prod.mk.inj halloc
    have hobj : ∀ i, (B.alloc x).2.obj i = B.obj i := by
      intro i
      simp only [alloc,hg,Bool.false_eq_true,if_false]
      split
      · rename_i heq
        rw [heq,B.fresh _ (Nat.le_refl _)]
      · rfl
    refine ⟨Nat.le_succ_of_le h.le,h.grant,fun i hi => ?_,h.nodup,fun i => ?_⟩
    · exact (hobj i).trans (h.old i hi)
    · exact (h.mem_iff i).trans (by rw [← hobj i]; rfl)

theorem alloc_some {x : α} (h : A.Owns own B) (halloc : B.alloc x = (some i,C)) :
    A.Owns (i ::ₘ own) C := by
  cases hg : B.grant B.next with
  | false => simp [alloc,hg] at halloc
  | true =>
    simp only [alloc,hg,if_true,Prod.mk.injEq,Option.some.injEq] at halloc
    obtain ⟨rfl,rfl⟩ := halloc
    have hle := h.le
    refine ⟨Nat.le_succ_of_le hle,h.grant,fun i hi => ?_,?_,fun i => ?_⟩
    · dsimp only
      rw [if_neg (by omega)]
      exact h.old i hi
    · refine Multiset.nodup_cons.mpr ⟨fun hmem => ?_,h.nodup⟩
      have hlive := ((h.mem_iff _).mp hmem).2
      simp [B.fresh _ (Nat.le_refl _)] at hlive
    · rw [Multiset.mem_cons,h.mem_iff]
      dsimp only
      split
      · rename_i heq
        simp [heq,hle]
      · rename_i hne
        simp [hne]

theorem update {f : α → α} (h : A.Owns own B) (hi : i ∈ own) : A.Owns own (B.update i f) := by
  have hle := ((h.mem_iff i).mp hi).1
  refine ⟨h.le,h.grant,fun j hj => ?_,h.nodup,fun j => ?_⟩
  · rw [update_of_ne B f (by omega),h.old j hj]
  · rw [h.mem_iff]
    by_cases hj : j = i
    · simp [Arena.update,hj]
    · rw [update_of_ne B f hj]

theorem free (h : A.Owns (i ::ₘ own) B) : ∃ C, B.free i = some C ∧ A.Owns own C := by
  obtain ⟨hle,hlive⟩ := (h.mem_iff i).mp (Multiset.mem_cons_self i own)
  obtain ⟨hnotin,hnodup⟩ := Multiset.nodup_cons.mp h.nodup
  refine ⟨_,if_pos hlive,h.le,h.grant,fun j hj => ?_,hnodup,fun j => ?_⟩
  · dsimp only
    rw [if_neg (by omega),h.old j hj]
  · dsimp only
    by_cases hj : j = i
    · simp [hj,hnotin]
    · rw [if_neg hj,← h.mem_iff,Multiset.mem_cons,or_iff_right hj]

theorem freePtr {p : Option Nat} (h : A.Owns ((p.toList : Multiset Nat) + own) B) :
    ∃ C, B.freePtr p = some C ∧ A.Owns own C := by
  cases p with
  | none => exact ⟨B,rfl,by simpa using h⟩
  | some i => exact free h

end Owns

end Arena
