import Mathlib.Data.List.Basic
import UnixNet.Library.Family
import UnixNet.Library.Machine
set_option autoImplicit false

/-! `Accept` under the file lock: `model_serv02_with_lock` and the two loops that a
child of it could run. -/

namespace UnixNet

/-- Where a child is. `accepting` is between entering and leaving `Accept`. -/
inductive ChildPc where
  | starting | lockWait | accepting | lockRelease | serving | closing | gone
  deriving DecidableEq, Repr

inductive ChildBody where
  | childMain | childMainWithLock
  deriving DecidableEq, Repr

/-- The body that `child_make` calls in the child. -/
def childMake : ChildBody := .childMain

/-- The first statement of the `for` loop, and the one after `Accept`. -/
def ChildBody.loop : ChildBody → ChildPc
  | .childMain => .accepting
  | .childMainWithLock => .lockWait

def ChildBody.accepted : ChildBody → ChildPc
  | .childMain => .serving
  | .childMainWithLock => .lockRelease

/-- `lockFd` tells whether `my_lock_init` opened the lock file, `holder` which child
has the write lock on it, `clients` how many connections wait to be accepted. -/
structure LockedServer where
  lockFd : Bool
  children : List ChildPc
  holder : Option Nat
  clients : Nat
  deriving DecidableEq, Repr

/-- A child moves on (`ok`), or the call it is in makes it exit. -/
inductive LockAct where
  | lockInit : LockAct
  | fork : LockAct
  | connect : LockAct
  | child (i : Nat) (ok : Bool) : LockAct
  deriving DecidableEq, Repr

def LockedServer.at (s : LockedServer) (i : Nat) (pc : ChildPc) : LockedServer :=
  { s with children := s.children.set i pc }

/-- The kernel drops the record lock of a process that unlocks or exits. -/
def LockedServer.release (s : LockedServer) (i : Nat) : LockedServer :=
  { s with holder := if s.holder = some i then none else s.holder }

def LockedServer.exit (s : LockedServer) (i : Nat) : LockedServer := (s.release i).at i .gone

/-- `fcntl(lock_fd, F_SETLKW, &lock_it)`: waits while another child holds the lock. -/
def LockedServer.myLockWait (s : LockedServer) (i : Nat) : Option LockedServer :=
  if s.lockFd = false then some (s.exit i)
  else if s.holder = none ∨ s.holder = some i then
    some ({ s with holder := some i }.at i .accepting)
  else none

def LockedServer.childStep (body : ChildBody) (s : LockedServer) (i : Nat) :
    ChildPc → Option LockedServer
  | .starting => some (s.at i body.loop)
  | .lockWait => s.myLockWait i
  | .accepting => if 0 < s.clients then some ({ s with clients := s.clients - 1 }.at i body.accepted)
    else none
  | .lockRelease => some ((s.release i).at i .serving)
  | .serving => some (s.at i .closing)
  | .closing => some (s.at i body.loop)
  | .gone => none

def LockedServer.step (body : ChildBody) (childrenNum : Int) (s : LockedServer) :
    LockAct → Option LockedServer
  | .lockInit => if s.lockFd then none else some { s with lockFd := true }
  | .fork =>
    if s.lockFd ∧ (s.children.length : Int) < childrenNum then
      some { s with children := s.children ++ [.starting] }
    else none
  | .connect => some { s with clients := s.clients + 1 }
  | .child i ok =>
    match s.children[i]? with
    | none | some .gone => none
    | some pc => if ok then s.childStep body i pc else some (s.exit i)

/-- The parent and its children, each child running `body`. -/
def lockedServer (body : ChildBody) (childrenNum : Int) : Machine LockedServer LockAct :=
  ⟨⟨false,[],none,0⟩,LockedServer.step body childrenNum⟩

def modelServ02WithLock (childrenNum : Int) : Machine LockedServer LockAct :=
  lockedServer childMake childrenNum

def LockedServer.InAccept (s : LockedServer) (i : Nat) : Prop :=
  s.children[i]? = some .accepting

/-- At most one child is in `Accept`, and only one that holds the file lock. -/
structure LockedServer.Exclusive (s : LockedServer) : Prop where
  atMostOne : ∀ i j, s.InAccept i → s.InAccept j → i = j
  locked : ∀ i, s.InAccept i → s.holder = some i

/-- Two children of one server are in `Accept` together, and nobody holds the lock. -/
theorem accept_not_exclusive : ¬ ∀ (n : Int) (s : LockedServer),
    (modelServ02WithLock n).Reachable s → s.Exclusive := by
  intro h
  have hs : (modelServ02WithLock 2).Reachable ⟨true,[.accepting,.accepting],none,0⟩ :=
    ⟨[.lockInit,.fork,.fork,.child 0 true,.child 1 true],by decide⟩
  have h01 := (h 2 _ hs).atMostOne 0 1 rfl rfl
  omega

@[simp] theorem at_holder (s : LockedServer) (i : Nat) (pc : ChildPc) :
    (s.at i pc).holder = s.holder := rfl

theorem at_getElem {s : LockedServer} {i : Nat} {old : ChildPc} (hi : s.children[i]? = some old)
    (pc : ChildPc) (j : Nat) :
    (s.at i pc).children[j]? = if i = j then some pc else s.children[j]? :=
  Family.getElem?_set hi pc j

theorem step_child {body : ChildBody} {n : Int} {s t : LockedServer} {i : Nat} {ok : Bool}
    (h : s.step body n (.child i ok) = some t) : ∃ pc, s.children[i]? = some pc ∧
      (t = s.exit i ∨ s.childStep body i pc = some t) := by
  simp only [LockedServer.step] at h
  split at h
  · cases h
  · cases h
  · rename_i pc hpc hi
    refine ⟨pc,hi,?_⟩
    cases ok with
    | false => exact .inl (Option.some.inj h).symm
    | true => exact .inr h

theorem childStep_children {body : ChildBody} {s t : LockedServer} {i : Nat} {pc : ChildPc}
    (h : s.childStep body i pc = some t) : ∃ pc', t.children = s.children.set i pc' := by
  cases pc with
  | starting | lockRelease | serving | closing => cases h; exact ⟨_,rfl⟩
  | lockWait =>
    simp only [LockedServer.childStep,LockedServer.myLockWait] at h
    split at h
    · cases h; exact ⟨_,rfl⟩
    · split at h
      · cases h; exact ⟨_,rfl⟩
      · cases h
  | accepting =>
    simp only [LockedServer.childStep] at h
    split at h
    · cases h; exact ⟨_,rfl⟩
    · cases h
  | gone => cases h

theorem length_step {body : ChildBody} {n : Int} (s : LockedServer) (a : LockAct)
    (t : LockedServer) (hs : (s.children.length : Int) ≤ max n 0)
    (h : s.step body n a = some t) : (t.children.length : Int) ≤ max n 0 := by
  cases a with
  | lockInit =>
    simp only [LockedServer.step] at h
    split at h <;> cases h
    exact hs
  | fork =>
    simp only [LockedServer.step] at h
    split at h <;> cases h
    simp only [List.length_append,List.length_singleton]
    omega
  | connect => cases h; exact hs
  | child i ok =>
    obtain ⟨pc,_,rfl | hmove⟩ := step_child h
    · simpa [LockedServer.exit,LockedServer.at,LockedServer.release] using hs
    · obtain ⟨pc',hpc'⟩ := childStep_children hmove
      simpa [hpc'] using hs

theorem children_length_le {body : ChildBody} {n : Int} {s : LockedServer}
    (h : (lockedServer body n).Reachable s) : (s.children.length : Int) ≤ max n 0 :=
  h.invariant (by simp only [lockedServer,List.length_nil]; omega) length_step

/-- The children run `child_main`, which never takes the lock, so the first child
that enters `Accept` already breaks the property. -/
theorem accept_exclusive_iff (n : Int) :
    (∀ s, (modelServ02WithLock n).Reachable s → s.Exclusive) ↔ n ≤ 0 := by
  constructor
  · intro h
    by_contra hn
    have hfork : (0 : Int) < n := by omega
    have hs : (modelServ02WithLock n).Reachable ⟨true,[.accepting],none,0⟩ := by
      refine ⟨[.lockInit,.fork,.child 0 true],?_⟩
      simp [modelServ02WithLock,lockedServer,Machine.run,LockedServer.step,hfork,
        LockedServer.childStep,LockedServer.at,childMake,ChildBody.loop]
    have hlock := (h _ hs).locked 0 rfl
    cases hlock
  · intro hn s hs
    have hlen := children_length_le hs
    have hnone : ∀ i, ¬ s.InAccept i := by
      intro i hi
      have hlt := (List.getElem?_eq_some_iff.mp hi).1
      omega
    exact ⟨fun i _ hi => absurd hi (hnone i),fun i hi => absurd hi (hnone i)⟩

/-- The lock belongs to the child between `my_lock_wait` and `my_lock_release`. -/
def LockedServer.Owned (s : LockedServer) : Prop :=
  ∀ i, s.holder = some i ↔
    s.children[i]? = some .accepting ∨ s.children[i]? = some .lockRelease

theorem owned_move {s t : LockedServer} {i : Nat} (pc : ChildPc) (hs : s.Owned)
    (ht : ∀ j, t.children[j]? = if i = j then some pc else s.children[j]?)
    (hself : t.holder = some i ↔ pc = .accepting ∨ pc = .lockRelease)
    (hother : ∀ j, j ≠ i → (t.holder = some j ↔ s.holder = some j)) : t.Owned := by
  intro j
  rw [ht]
  by_cases hj : i = j
  · subst hj
    simpa using hself
  · rw [if_neg hj,hother j (Ne.symm hj)]
    exact hs j

theorem release_holder (s : LockedServer) (i : Nat) : (s.release i).holder ≠ some i ∧
    ∀ j, j ≠ i → ((s.release i).holder = some j ↔ s.holder = some j) := by
  unfold LockedServer.release
  split
  · rename_i hi
    refine ⟨by simp,fun j hj => ?_⟩
    simp [hi,Ne.symm hj]
  · rename_i hi
    exact ⟨hi,fun _ _ => Iff.rfl⟩

theorem owned_exit {s : LockedServer} {i : Nat} {pc : ChildPc} (hs : s.Owned)
    (hi : s.children[i]? = some pc) : (s.exit i).Owned := by
  obtain ⟨hself,hother⟩ := release_holder s i
  refine owned_move .gone hs (at_getElem (s := s.release i) hi .gone) ?_ hother
  exact iff_of_false hself (by simp)

theorem owned_childStep {s t : LockedServer} {i : Nat} {pc : ChildPc} (hs : s.Owned)
    (hi : s.children[i]? = some pc)
    (h : s.childStep .childMainWithLock i pc = some t) : t.Owned := by
  have hholds : s.holder = some i ↔ pc = .accepting ∨ pc = .lockRelease := by simpa [hi] using hs i
  cases pc with
  | starting | serving | closing =>
    cases h
    exact owned_move _ hs (at_getElem hi _) (by simpa [ChildBody.loop] using hholds)
      fun _ _ => Iff.rfl
  | lockWait =>
    simp only [LockedServer.childStep,LockedServer.myLockWait] at h
    split at h
    · cases h
      exact owned_exit hs hi
    · split at h
      · rename_i hfree
        cases h
        refine owned_move .accepting hs
          (at_getElem (s := { s with holder := some i }) hi _) (by simp) ?_
        intro j hj
        have hi' : s.holder ≠ some i := by simpa using hholds
        have hn : s.holder = none := hfree.resolve_right hi'
        simp [hn,Ne.symm hj]
      · cases h
  | accepting =>
    simp only [LockedServer.childStep] at h
    split at h
    · cases h
      exact owned_move .lockRelease hs
        (at_getElem (s := { s with clients := s.clients - 1 }) hi _)
        (by simpa using hholds) fun _ _ => Iff.rfl
    · cases h
  | lockRelease =>
    cases h
    obtain ⟨hself,hother⟩ := release_holder s i
    exact owned_move .serving hs (at_getElem (s := s.release i) hi _)
      (iff_of_false hself (by simp)) hother
  | gone => cases h

theorem owned_step {n : Int} (s : LockedServer) (a : LockAct) (t : LockedServer) (hs : s.Owned)
    (h : s.step .childMainWithLock n a = some t) : t.Owned := by
  cases a with
  | lockInit =>
    simp only [LockedServer.step] at h
    split at h <;> cases h
    exact hs
  | fork =>
    simp only [LockedServer.step] at h
    split at h <;> cases h
    intro j
    rw [hs j]
    simp only [List.getElem?_append]
    split
    · rfl
    · rename_i hj
      rw [List.getElem?_eq_none (by omega)]
      cases hk : j - s.children.length <;> simp
  | connect => cases h; exact hs
  | child i ok =>
    obtain ⟨pc,hi,rfl | hmove⟩ := step_child h
    · exact owned_exit hs hi
    · exact owned_childStep hs hi hmove

/-- Had `child_make` called `child_main_with_lock`, the property would hold. -/
theorem childMainWithLock_exclusive {n : Int} {s : LockedServer}
    (h : (lockedServer .childMainWithLock n).Reachable s) : s.Exclusive := by
  have hs : s.Owned := h.invariant (fun i => by simp [lockedServer]) owned_step
  have hlock : ∀ i, s.InAccept i → s.holder = some i := fun i hi => (hs i).mpr (.inl hi)
  refine ⟨fun i j hi hj => ?_,hlock⟩
  exact Option.some.inj ((hlock i hi).symm.trans (hlock j hj))

end UnixNet
