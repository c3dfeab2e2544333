import Mathlib.Data.List.Basic
set_option autoImplicit false

/-! Objects numbered by the call that allocated them, and what a call leaves alone. -/

/-- The live objects. The call with number `i` succeeds if `grant i`. -/
structure Arena (α : Type) where
  next : Nat
  obj : Nat → Option α
  grant : Nat → Bool
  fresh : ∀ i, next ≤ i → obj i = none

namespace Arena
variable {α : Type}

def empty (grant : Nat → Bool) : Arena α := ⟨0,fun _ => none,grant,fun _ _ => rfl⟩

def alloc (A : Arena α) (x : α) : Option Nat × Arena α :=
  (if A.grant A.next then some A.next else none,
    { next := A.next + 1
      obj := fun i => if i = A.next then if A.grant A.next then some x else none else A.obj i
      grant := A.grant
      fresh := fun i h => by rw [if_neg (by omega)]; exact A.fresh i (by omega) })

/-- Changes an object that is live. -/
def update (A : Arena α) (i : Nat) (f : α → α) : Arena α :=
  { A with
    obj := fun j => if j = i then (A.obj i).map f else A.obj j
    fresh := fun j h => by
      by_cases hj : j = i
      · rw [if_pos hj,← hj,A.fresh j h]
        rfl
      · rw [if_neg hj,A.fresh j h] }

theorem lt_next {A : Arena α} {i : Nat} {x : α} (h : A.obj i = some x) : i < A.next := by
  by_contra hi
  rw [A.fresh i (by omega)] at h
  cases h

@[simp] theorem update_next (A : Arena α) (i : Nat) (f : α → α) : (A.update i f).next = A.next :=
  rfl

theorem update_self {A : Arena α} {i : Nat} {x : α} (f : α → α) (h : A.obj i = some x) :
    (A.update i f).obj i = some (f x) := by
  simp [update,h]

theorem update_of_ne (A : Arena α) {i j : Nat} (f : α → α) (h : j ≠ i) :
    (A.update i f).obj j = A.obj j := if_neg h

/-- From one arena to a later one only the objects in `own` change. -/
structure Frame (own : List Nat) (A B : Arena α) : Prop where
  le : A.next ≤ B.next
  grant : B.grant = A.grant
  same : ∀ i, i < A.next → i ∉ own → B.obj i = A.obj i

theorem Frame.refl (own : List Nat) (A : Arena α) : Frame own A A :=
  ⟨Nat.le_refl _,rfl,fun _ _ _ => rfl⟩

/-- What the second part owns it has from the first part or allocated since. -/
theorem Frame.trans {own own' : List Nat} {A B C : Arena α} (h : Frame own A B)
    (h' : Frame own' B C) (hown : ∀ i ∈ own', i < A.next → i ∈ own) : Frame own A C where
  le := Nat.le_trans h.le h'.le
  grant := h'.grant.trans h.grant
  same i hi hi' := by
    rw [h'.same i (Nat.lt_of_lt_of_le hi h.le) fun hmem => hi' (hown i hmem hi)]
    exact h.same i hi hi'

theorem Frame.obj_eq {own : List Nat} {A B : Arena α} (h : Frame own A B) {i : Nat} {x : α}
    (hi : A.obj i = some x) (hown : i ∉ own) : B.obj i = some x :=
  (h.same i (lt_next hi) hown).trans hi

theorem alloc_none {A B : Arena α} {x : α} (h : A.alloc x = (none,B)) :
    ∃ i, A.grant i = false := by
  cases hg : A.grant A.next with
  | false => exact ⟨_,hg⟩
  | true => simp [alloc,hg] at h

theorem alloc_some {A B : Arena α} {x : α} {i : Nat} (h : A.alloc x = (some i,B)) :
    i = A.next ∧ B.obj i = some x ∧ Frame [] A B := by
  cases hg : A.grant A.next with
  | false => simp [alloc,hg] at h
  | true =>
    simp only [alloc,hg,if_true,Prod.mk.injEq,Option.some.injEq] at h
    obtain ⟨rfl,rfl⟩ := h
    exact ⟨rfl,if_pos rfl,Nat.le_succ _,rfl,fun i hi _ => if_neg (Nat.ne_of_lt hi)⟩

theorem update_frame (A : Arena α) (i : Nat) (f : α → α) : Frame [i] A (A.update i f) where
  le := Nat.le_refl _
  grant := rfl
  same j _ hj := update_of_ne A f (by simpa using hj)

/-! ## Owners -/

def Has (P : α → Prop) (A : Arena α) (i : Nat) : Prop := ∃ x, A.obj i = some x ∧ P x

theorem Has.lt {P : α → Prop} {A : Arena α} {i : Nat} (h : A.Has P i) : i < A.next := by
  obtain ⟨x,hx,-⟩ := h
  exact lt_next hx

theorem Has.frame {P : α → Prop} {own : List Nat} {A B : Arena α} {i : Nat} (h : A.Has P i)
    (hf : Frame own A B) (hown : i ∉ own) : B.Has P i := by
  obtain ⟨x,hx,hP⟩ := h
  exact ⟨x,hf.obj_eq hx hown,hP⟩

theorem Has.back {P : α → Prop} {own : List Nat} {A B : Arena α} {i : Nat} (h : B.Has P i)
    (hf : Frame own A B) (hi : i < A.next) (hown : i ∉ own) : A.Has P i := by
  obtain ⟨x,hx,hP⟩ := h
  exact ⟨x,(hf.same i hi hown).symm.trans hx,hP⟩

/-- `own'` has, each one once, what `own` has and the objects with `P` allocated since. -/
structure Grown (P : α → Prop) (own : List Nat) (A : Arena α) (own' : List Nat) (B : Arena α) :
    Prop where
  frame : Frame own A B
  has : ∀ i ∈ own', B.Has P i
  nodup : own'.Nodup
  mem_iff : ∀ i, i ∈ own' ↔ i ∈ own ∨ A.next ≤ i ∧ B.Has P i

variable {P : α → Prop} {A B C : Arena α}

theorem Grown.refl {own : List Nat} (h : ∀ i ∈ own, A.Has P i) (hnd : own.Nodup) :
    Grown P own A own A := by
  refine ⟨.refl _ _,h,hnd,fun i => ⟨.inl,fun hi => ?_⟩⟩
  rcases hi with hi | ⟨hle,hi⟩
  · exact hi
  · exact absurd hi.lt (by omega)

theorem Grown.trans {own own' own'' : List Nat} (h : Grown P own A own' B)
    (h' : Grown P own' B own'' C) : Grown P own A own'' C := by
  have hold : ∀ i ∈ own', i < A.next → i ∈ own := by
    intro i hi hlt
    rcases (h.mem_iff i).mp hi with hi | ⟨hle,-⟩
    · exact hi
    · omega
  refine ⟨h.frame.trans h'.frame hold,h'.has,h'.nodup,fun i => ?_⟩
  rw [h'.mem_iff,h.mem_iff]
  constructor
  · rintro ((hi | ⟨hle,hi⟩) | ⟨hle,hi⟩)
    · exact .inl hi
    · have hmem := (h'.mem_iff i).mpr (.inl ((h.mem_iff i).mpr (.inr ⟨hle,hi⟩)))
      exact .inr ⟨hle,h'.has i hmem⟩
    · exact .inr ⟨Nat.le_trans h.frame.le hle,hi⟩
  · rintro (hi | ⟨hle,hi⟩)
    · exact .inl (.inl hi)
    · by_cases hlt : i < B.next
      · by_cases hmem : i ∈ own'
        · exact .inl ((h.mem_iff i).mp hmem)
        · exact .inl (.inr ⟨hle,hi.back h'.frame hlt hmem⟩)
      · exact .inr ⟨by omega,hi⟩

/-- First for one part of the owners, then for the rest. -/
theorem Grown.append {as as' bs bs' : List Nat} (h : Grown P as A as' B) (h' : Grown P bs B bs' C)
    (hbs : ∀ i ∈ bs, i ∉ as ∧ i < A.next) : Grown P (as ++ bs) A (as' ++ bs') C := by
  have hsep : ∀ i ∈ as', i ∉ bs := by
    intro i hi hmem
    rcases (h.mem_iff i).mp hi with hi | ⟨hle,-⟩
    · exact (hbs i hmem).1 hi
    · exact absurd (hbs i hmem).2 (by omega)
  refine ⟨?_,?_,?_,fun i => ?_⟩
  · refine ⟨Nat.le_trans h.frame.le h'.frame.le,h'.frame.grant.trans h.frame.grant,?_⟩
    intro i hi hmem
    rw [List.mem_append,not_or] at hmem
    rw [h'.frame.same i (Nat.lt_of_lt_of_le hi h.frame.le) hmem.2,h.frame.same i hi hmem.1]
  · intro i hi
    rcases List.mem_append.mp hi with hi | hi
    · exact (h.has i hi).frame h'.frame (hsep i hi)
    · exact h'.has i hi
  · refine List.nodup_append.mpr ⟨h.nodup,h'.nodup,fun i hi j hj heq => ?_⟩
    subst heq
    rcases (h'.mem_iff i).mp hj with hj | ⟨hle,-⟩
    · exact hsep i hi hj
    · exact absurd (h.has i hi).lt (by omega)
  · rw [List.mem_append,List.mem_append,h'.mem_iff,h.mem_iff]
    constructor
    · rintro ((hi | ⟨hle,hi⟩) | hi | ⟨hle,hi⟩)
      · exact .inl (.inl hi)
      · have hmem := (h.mem_iff i).mpr (.inr ⟨hle,hi⟩)
        exact .inr ⟨hle,hi.frame h'.frame (hsep i hmem)⟩
      · exact .inl (.inr hi)
      · exact .inr ⟨Nat.le_trans h.frame.le hle,hi⟩
    · rintro ((hi | hi) | ⟨hle,hi⟩)
      · exact .inl (.inl hi)
      · exact .inr (.inl hi)
      · by_cases hlt : i < B.next
        · by_cases hmem : i ∈ bs
          · exact .inr (.inl hmem)
          · exact .inl (.inr ⟨hle,hi.back h'.frame hlt hmem⟩)
        · exact .inr (.inr ⟨by omega,hi⟩)

theorem Grown.alloc {x : α} {i : Nat} (h : A.alloc x = (some i,B)) (hP : P x) :
    Grown P [] A [i] B := by
  obtain ⟨rfl,hx,hf⟩ := alloc_some h
  have hlast : ∀ j, A.next ≤ j → B.Has P j → j = A.next := by
    intro j hj hB
    have hlt := hB.lt
    rw [← (Prod.mk.inj h).2] at hlt
    exact Nat.le_antisymm (Nat.le_of_lt_succ hlt) hj
  refine ⟨hf,fun j hj => ?_,by simp,fun j => ?_⟩
  · rw [List.mem_singleton.mp hj]
    exact ⟨x,hx,hP⟩
  · rw [List.mem_singleton]
    constructor
    · rintro rfl
      exact .inr ⟨Nat.le_refl _,x,hx,hP⟩
    · rintro (hj | ⟨hle,hB⟩)
      · cases hj
      · exact hlast j hle hB

theorem Grown.alloc_other {x : α} {i : Nat} (h : A.alloc x = (some i,B)) (hP : ¬ P x) :
    Grown P [] A [] B := by
  obtain ⟨rfl,hx,hf⟩ := alloc_some h
  refine ⟨hf,by simp,List.nodup_nil,fun j => ⟨.inl,?_⟩⟩
  rintro (hj | ⟨hle,y,hy,hPy⟩)
  · exact hj
  · have hlt := lt_next hy
    rw [← (Prod.mk.inj h).2] at hlt
    cases Nat.le_antisymm (Nat.le_of_lt_succ hlt) hle
    cases hx.symm.trans hy
    exact absurd hPy hP

theorem Grown.update {i : Nat} {f : α → α} (h : A.Has P i) (hf : ∀ x, P x → P (f x)) :
    Grown P [i] A [i] (A.update i f) := by
  refine ⟨update_frame A i f,fun j hj => ?_,by simp,fun j => ⟨.inl,?_⟩⟩
  · obtain ⟨x,hx,hP⟩ := h
    rw [List.mem_singleton.mp hj]
    exact ⟨f x,update_self f hx,hf x hP⟩
  · rintro (hj | ⟨hle,hB⟩)
    · exact hj
    · exact absurd hB.lt (by rw [update_next]; omega)

end Arena
