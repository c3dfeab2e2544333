import UnixNet.Library.Machine
set_option autoImplicit false

/-! The forking `servopen`: `TELL_WAIT` once, then `WAIT_CHILD` for each connection. -/

namespace UnixNet

/-- `test` to `restore` are `WAIT_CHILD`: `call` is after the test has found `sigflag` 0, and
`suspend` inside `sigsuspend`. -/
inductive ServopenPc where
  | tellWait : ServopenPc
  | accept : ServopenPc
  | fork : ServopenPc
  | test : ServopenPc
  | call : ServopenPc
  | suspend : ServopenPc
  | clear : ServopenPc
  | restore : ServopenPc
  /-- After err_sys. -/
  | exited : ServopenPc
  deriving DecidableEq, Repr

/-- The child of the current connection, before and after `TELL_PARENT`. -/
inductive ServopenChild where
  | absent : ServopenChild
  | running : ServopenChild
  | told : ServopenChild
  deriving DecidableEq, Repr

/-- `mask` and `oldmask` say whether SIGUSR2 is blocked, `left` how many connections are still
to come. -/
structure Servopen where
  pc : ServopenPc
  mask : Bool
  oldmask : Bool
  sigflag : Nat
  pending : Bool
  child : ServopenChild
  left : Nat
  deriving DecidableEq, Repr

/-- The parent goes on; accept or fork fails; the child calls `TELL_PARENT`; the signal is
delivered. -/
inductive ServopenAct where
  | parent : ServopenAct
  | fail : ServopenAct
  | tellParent : ServopenAct
  | deliver : ServopenAct
  deriving DecidableEq, Repr

namespace Servopen

def parentStep (s : Servopen) : Option Servopen :=
  match s.pc with
  | .tellWait => some { s with pc := .accept, oldmask := s.mask, mask := true }
  | .accept => if s.left = 0 then none else some { s with pc := .fork, left := s.left - 1 }
  | .fork => some { s with pc := .test, child := .running }
  | .test => some { s with pc := if s.sigflag = 0 then .call else .clear }
  | .call => some { s with pc := .suspend }
  | .suspend => none
  | .clear => some { s with pc := .restore, sigflag := 0 }
  | .restore => some { s with pc := .accept, mask := s.oldmask }
  | .exited => none

/-- `sig_usr` runs, and `sigsuspend` returns. -/
def sigUsr (s : Servopen) : Servopen :=
  { s with pc := if s.pc = .suspend then .test else s.pc, sigflag := 1, pending := false }

def step (s : Servopen) : ServopenAct → Option Servopen
  | .parent => s.parentStep
  | .fail => if s.pc = .accept ∨ s.pc = .fork then some { s with pc := .exited } else none
  | .tellParent =>
    if s.child = .running then some { s with child := .told, pending := true } else none
  | .deliver =>
    -- `sigsuspend` has installed `zeromask`.
    if s.pending ∧ (s.pc = .suspend ∨ s.mask = false) ∧ s.pc ≠ .exited then some s.sigUsr else none

end Servopen

/-- `servopen` with `dofork` set, for `n` connections, where SIGUSR2 is blocked at first or not. -/
def servopen (n : Nat) (mask : Bool) : Machine Servopen ServopenAct :=
  ⟨⟨.tellWait,mask,false,0,false,.absent,n⟩,Servopen.step⟩

namespace Servopen

/-- The parent sleeps in `WAIT_CHILD` after the signal that it waits for was delivered. -/
def Lost (s : Servopen) : Prop := s.pc = .suspend ∧ s.child = .told ∧ s.pending = false

/-- The signal is delivered between the test of `sigflag` and `sigsuspend`. -/
def Late (s : Servopen) (a : ServopenAct) : Prop := s.pc = .call ∧ a = .deliver

/-- The parent waits for the child, or does not look at `sigflag`. -/
def Waits (s : Servopen) : Prop := s.pc = .test ∨ s.pc = .call ∨ s.pc = .suspend

def Between (s : Servopen) : Prop :=
  s.pc = .tellWait ∨ s.pc = .accept ∨ s.pc = .fork ∨ s.pc = .restore

/-- Where the signal of the current child is. -/
structure Accounted (s : Servopen) : Prop where
  quiet : s.child ≠ .told → s.sigflag = 0 ∧ s.pending = false
  once : s.pending = true → s.sigflag = 0
  between : s.Between → s.child ≠ .running ∧ s.sigflag = 0 ∧ s.pending = false
  clear : s.pc = .clear → s.sigflag ≠ 0
  waits : s.Waits → s.child ≠ .absent ∧ (s.child = .told → s.pending = true ∨ s.sigflag ≠ 0)

variable {s t : Servopen} {a : ServopenAct} {n : Nat} {mask : Bool}

theorem init_accounted : Accounted (servopen n mask).init := by
  refine ⟨fun _ => ⟨rfl,rfl⟩,by simp [servopen],fun _ => ⟨by simp [servopen],rfl,rfl⟩,
    by simp [servopen],by simp [servopen,Waits]⟩

theorem parent_accounted (h : s.Accounted) (ht : s.parentStep = some t) : t.Accounted := by
  obtain ⟨hquiet,honce,hbetween,hclear,hwaits⟩ := h
  cases hpc : s.pc
  all_goals
    simp only [parentStep,hpc] at ht
    simp only [Between,Waits,hpc,reduceCtorEq,or_self,or_true,true_or,forall_const,
      false_imp_iff] at hbetween hclear hwaits
  case tellWait =>
    cases ht
    exact ⟨hquiet,honce,fun _ => hbetween,by simp,by simp [Waits]⟩
  case accept =>
    obtain ⟨-,ht⟩ := Option.ite_none_left_eq_some.mp ht
    cases ht
    exact ⟨hquiet,honce,fun _ => hbetween,by simp,by simp [Waits]⟩
  case fork =>
    cases ht
    exact ⟨fun _ => hbetween.2,honce,by simp [Between],by simp,by simp [Waits]⟩
  case test =>
    cases ht
    split
    · exact ⟨hquiet,honce,by simp [Between],by simp,fun _ => hwaits⟩
    · rename_i hset
      exact ⟨hquiet,honce,by simp [Between],fun _ => hset,by simp [Waits]⟩
  case call =>
    cases ht
    exact ⟨hquiet,honce,by simp [Between],by simp,fun _ => hwaits⟩
  case suspend => cases ht
  case clear =>
    cases ht
    have htold : s.child = .told := by
      by_contra hne
      exact hclear (hquiet hne).1
    have hlanded : s.pending = false := by simpa using mt honce hclear
    exact ⟨fun hne => absurd htold hne,fun _ => rfl,fun _ => ⟨by simp [htold],rfl,hlanded⟩,
      by simp,by simp [Waits]⟩
  case restore =>
    cases ht
    exact ⟨hquiet,honce,fun _ => hbetween,by simp,by simp [Waits]⟩
  case exited => cases ht

theorem deliver_accounted (h : s.Accounted) (hpending : s.pending = true) : s.sigUsr.Accounted := by
  obtain ⟨hquiet,honce,hbetween,hclear,hwaits⟩ := h
  have htold : s.child = .told := by
    by_contra hne
    simp [(hquiet hne).2] at hpending
  have hnot : ¬ s.Between := fun hb => by simp [(hbetween hb).2.2] at hpending
  refine ⟨fun hne => absurd htold hne,by simp [sigUsr],fun hb => absurd ?_ hnot,by simp [sigUsr],
    fun _ => ⟨by simp [sigUsr,htold],by simp [sigUsr]⟩⟩
  unfold Between sigUsr at *
  split at hb
  · simp at hb
  · exact hb

theorem step_accounted (h : s.Accounted) (ht : s.step a = some t) : t.Accounted := by
  cases a with
  | parent => exact parent_accounted h ht
  | fail =>
    obtain ⟨-,ht⟩ := Option.ite_none_right_eq_some.mp ht
    cases ht
    exact ⟨h.quiet,h.once,by simp [Between],by simp,by simp [Waits]⟩
  | tellParent =>
    obtain ⟨hrunning,ht⟩ := Option.ite_none_right_eq_some.mp ht
    cases ht
    have hquiet := h.quiet (by simp [hrunning])
    have hnot : ¬ s.Between := fun hb => (h.between hb).1 hrunning
    exact ⟨by simp,fun _ => hquiet.1,fun hb => absurd hb hnot,h.clear,fun _ => ⟨by simp,by simp⟩⟩
  | deliver =>
    obtain ⟨hdue,ht⟩ := Option.ite_none_right_eq_some.mp ht
    cases ht
    exact deliver_accounted h hdue.1

theorem reachable_accounted (h : (servopen n mask).Reachable s) : s.Accounted :=
  h.invariant init_accounted fun _ _ _ hs ht => step_accounted hs ht

/-- The parent goes to sleep with `sigflag` 0. -/
def Careful (s : Servopen) : Prop := s.pc = .call ∨ s.pc = .suspend → s.sigflag = 0

theorem Careful.not_lost (h : s.Careful) (hs : s.Accounted) : ¬ s.Lost := by
  intro ⟨hpc,htold,hpending⟩
  rcases (hs.waits (.inr (.inr hpc))).2 htold with hp | hset
  · simp [hpending] at hp
  · exact hset (h (.inr hpc))

/-- Only a late signal makes the parent careless. -/
theorem step_careful (h : s.Careful) (ht : s.step a = some t) (hlate : ¬ s.Late a) : t.Careful := by
  unfold Careful at h ⊢
  cases a with
  | parent =>
    simp only [step] at ht
    cases hpc : s.pc
    all_goals simp only [parentStep,hpc] at ht
    case test =>
      cases ht
      intro hcall
      simp only at hcall
      split at hcall
      · assumption
      · simp at hcall
    all_goals grind
  | fail =>
    obtain ⟨-,ht⟩ := Option.ite_none_right_eq_some.mp ht
    cases ht
    simp
  | tellParent =>
    obtain ⟨-,ht⟩ := Option.ite_none_right_eq_some.mp ht
    cases ht
    exact h
  | deliver =>
    obtain ⟨hdue,ht⟩ := Option.ite_none_right_eq_some.mp ht
    cases ht
    intro hcall
    simp only [sigUsr] at hcall
    split at hcall
    · simp at hcall
    · rename_i hawake
      exact absurd ⟨hcall.resolve_right hawake,rfl⟩ hlate

/-- A late signal leaves the parent asleep for ever. -/
theorem late_lost (h : s.Accounted) (hlate : s.Late a) (ht : s.step a = some t) :
    ∃ u, t.step .parent = some u ∧ u.Lost ∧ ∀ b, u.step b = none := by
  obtain ⟨hpc,rfl⟩ := hlate
  obtain ⟨hdue,ht⟩ := Option.ite_none_right_eq_some.mp ht
  cases ht
  have htold : s.child = .told := by
    by_contra hne
    simp [(h.quiet hne).2] at hdue
  refine ⟨{ s.sigUsr with pc := .suspend },by simp [step,parentStep,sigUsr,hpc],
    ⟨rfl,htold,rfl⟩,fun b => ?_⟩
  cases b <;> simp [step,parentStep,sigUsr,htold]

/-- SIGUSR2 is blocked outside `sigsuspend` while connections may come. -/
structure Blocked (n : Nat) (mask : Bool) (s : Servopen) : Prop where
  start : s.pc = .tellWait → s.mask = mask
  saved : s.pc ≠ .tellWait → s.pc ≠ .exited →
    s.oldmask = mask ∧ (s.mask = true ∨ s.pc = .accept ∧ s.left = 0)
  left : s.left ≤ n
  taken : s.pc ≠ .tellWait → s.pc ≠ .exited → s.pc ≠ .accept → s.left < n

theorem step_blocked (hsafe : n ≤ 1 ∨ mask = true) (h : s.Blocked n mask)
    (ht : s.step a = some t) : t.Blocked n mask := by
  obtain ⟨hstart,hsaved,hleft,htaken⟩ := h
  cases a with
  | parent =>
    simp only [step] at ht
    cases hpc : s.pc
    all_goals
      simp only [parentStep,hpc] at ht
      simp only [hpc,ne_eq,reduceCtorEq,not_false_eq_true,not_true_eq_false,forall_const,
        false_imp_iff,true_and,false_and,or_false] at hstart hsaved htaken
    case restore =>
      cases ht
      have hmask : s.oldmask = true ∨ s.left = 0 := by
        rcases hsafe with hfew | hmask
        · exact .inr (by omega)
        · exact .inl (hsaved.1.trans hmask)
      exact ⟨by simp,fun _ _ => ⟨hsaved.1,hmask.imp id fun h => ⟨rfl,h⟩⟩,hleft,by simp⟩
    case tellWait =>
      cases ht
      exact ⟨by simp,fun _ _ => ⟨hstart,.inl rfl⟩,hleft,by simp⟩
    case accept =>
      obtain ⟨hmore,ht⟩ := Option.ite_none_left_eq_some.mp ht
      cases ht
      refine ⟨by simp,fun _ _ => ⟨hsaved.1,.inl (hsaved.2.resolve_right hmore)⟩,?_,fun _ _ _ => ?_⟩
      all_goals
        simp only
        omega
    case suspend => cases ht
    case exited => cases ht
    case test =>
      cases ht
      refine ⟨?_,fun _ _ => ⟨hsaved.1,.inl hsaved.2⟩,hleft,fun _ _ _ => htaken⟩
      split <;> simp
    all_goals
      cases ht
      exact ⟨by simp,fun _ _ => ⟨hsaved.1,.inl hsaved.2⟩,hleft,fun _ _ _ => htaken⟩
  | fail =>
    obtain ⟨-,ht⟩ := Option.ite_none_right_eq_some.mp ht
    cases ht
    exact ⟨by simp,by simp,hleft,by simp⟩
  | tellParent =>
    obtain ⟨-,ht⟩ := Option.ite_none_right_eq_some.mp ht
    cases ht
    exact ⟨hstart,hsaved,hleft,htaken⟩
  | deliver =>
    obtain ⟨hdue,ht⟩ := Option.ite_none_right_eq_some.mp ht
    cases ht
    simp only [sigUsr]
    split
    · rename_i hpc
      simp only [hpc,ne_eq,reduceCtorEq,not_false_eq_true,forall_const,false_and,or_false]
        at hsaved htaken
      exact ⟨by simp,fun _ _ => ⟨hsaved.1,.inl hsaved.2⟩,hleft,fun _ _ _ => htaken⟩
    · exact ⟨hstart,hsaved,hleft,htaken⟩

theorem Blocked.not_late (h : s.Blocked n mask) (ht : s.step a = some t) : ¬ s.Late a := by
  rintro ⟨hpc,rfl⟩
  obtain ⟨⟨-,hopen,-⟩,-⟩ := Option.ite_none_right_eq_some.mp ht
  have hsaved := h.saved (by simp [hpc]) (by simp [hpc])
  simp only [hpc,reduceCtorEq,false_and,or_false,false_or] at hsaved hopen
  simp [hsaved.2] at hopen

end Servopen

theorem Servopen.init_blocked (n : Nat) (mask : Bool) :
    Servopen.Blocked n mask (servopen n mask).init :=
  ⟨fun _ => rfl,fun h => absurd rfl h,Nat.le_refl n,fun h => absurd rfl h⟩

/-- In the second round the signal comes after the test. -/
theorem servopen_second_lost (m : Nat) :
    ∃ s, (servopen (m + 2) false).Reachable s ∧ s.Lost := by
  let first : List ServopenAct := List.replicate 5 .parent ++ [.tellParent,.deliver] ++
    List.replicate 3 .parent
  let second : List ServopenAct := List.replicate 3 .parent ++ [.tellParent,.deliver,.parent]
  exact ⟨_,⟨first ++ second,rfl⟩,rfl,rfl,rfl⟩

/-- The parent sleeps for ever only after a signal that came between its test and `sigsuspend`,
which can happen exactly when SIGUSR2 is not blocked at first and there is a second connection. -/
theorem servopen_lost (n : Nat) (mask : Bool) :
    (∀ as s, (servopen n mask).run (servopen n mask).init as = some s →
      (∀ q a, (q,a) ∈ (servopen n mask).trace (servopen n mask).init as → ¬ q.Late a) →
      ¬ s.Lost) ∧
    (∀ q a t, (servopen n mask).Reachable q → (servopen n mask).step q a = some t → q.Late a →
      ∃ u, (servopen n mask).step t .parent = some u ∧ u.Lost) ∧
    ((∀ s, (servopen n mask).Reachable s → ¬ s.Lost) ↔ n ≤ 1 ∨ mask = true) := by
  refine ⟨fun as s hs hnone => ?_,fun q a t hq ht hlate => ?_,fun hsafe => ?_,
    fun hsafe s hs => ?_⟩
  · have hinit : (servopen n mask).init.Careful := by simp [servopen,Servopen.Careful]
    have hcareful := Machine.avoiding_invariant hinit
      (fun s a t _ hinv hlate ht => Servopen.step_careful hinv ht hlate) hs hnone
    exact hcareful.not_lost (Servopen.reachable_accounted ⟨as,hs⟩)
  · obtain ⟨u,hu,hlost,-⟩ := Servopen.late_lost (Servopen.reachable_accounted hq) hlate ht
    exact ⟨u,hu,hlost⟩
  · by_contra hno
    obtain ⟨m,rfl⟩ : ∃ m, n = m + 2 := Nat.exists_eq_add_of_le' (by omega)
    obtain rfl : mask = false := by simpa using fun hmask => hno (.inr hmask)
    obtain ⟨s,hs,hlost⟩ := servopen_second_lost m
    exact hsafe s hs hlost
  · have hinv := hs.invariant (I := fun s => s.Accounted ∧ s.Careful ∧ s.Blocked n mask)
      ⟨Servopen.init_accounted,by simp [servopen,Servopen.Careful],
        Servopen.init_blocked n mask⟩
      fun s a t ⟨hacc,hcare,hblocked⟩ ht => ⟨Servopen.step_accounted hacc ht,
        Servopen.step_careful hcare ht (hblocked.not_late ht),
        Servopen.step_blocked hsafe hblocked ht⟩
    exact hinv.2.1.not_lost hinv.1

/-- Two connections are enough. -/
theorem servopen_lost_second : ¬ ∀ (n : Nat) (s : Servopen),
    (servopen n false).Reachable s → ¬ s.Lost := by
  intro h
  obtain ⟨s,hs,hlost⟩ := servopen_second_lost 0
  exact h 2 s hs hlost

end UnixNet
