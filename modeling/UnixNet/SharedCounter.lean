import UnixNet.Library.Machine
set_option autoImplicit false

/-!
The counter that two threads increment, without a lock in threads/example01.c and with one in
threads/example02.c: the values that it can end with, and those that are printed.
-/

namespace UnixNet.SharedCounter

inductive Tid
  | A | B
  deriving DecidableEq, Repr

def Tid.other : Tid → Tid
  | .A => .B
  | .B => .A

/-- Where a thread is in the loop of `doit`. -/
inductive Pc
  | top | locked
  | fetched (val : Nat)
  | printed (val : Nat)
  | stored
  deriving DecidableEq, Repr

structure Thread where
  i : Nat
  pc : Pc
  deriving DecidableEq, Repr

structure St where
  counter : Nat
  a : Thread
  b : Thread
  counter_mutex : Option Tid
  printed : List (Tid × Nat)
  deriving DecidableEq, Repr

namespace St

def thread (s : St) : Tid → Thread
  | .A => s.a
  | .B => s.b

def set (s : St) (t : Thread) : Tid → St
  | .A => { s with a := t }
  | .B => { s with b := t }

variable (s : St) (t : Thread) (k : Tid)

@[simp] theorem set_thread : (s.set t k).thread k = t := by cases k <;> rfl
@[simp] theorem set_other : (s.set t k).thread k.other = s.thread k.other := by cases k <;> rfl
@[simp] theorem set_counter : (s.set t k).counter = s.counter := by cases k <;> rfl
@[simp] theorem set_mutex : (s.set t k).counter_mutex = s.counter_mutex := by cases k <;> rfl
@[simp] theorem set_printed : (s.set t k).printed = s.printed := by cases k <;> rfl

end St

@[simp] theorem St.thread_fields (s : St) (counter : Nat) (counter_mutex : Option Tid)
    (printed : List (Tid × Nat)) (k : Tid) :
    St.thread ⟨counter,s.a,s.b,counter_mutex,printed⟩ k = s.thread k := by cases k <;> rfl

/-- The next thing that thread `k` does; `mutex` is whether `doit` takes `counter_mutex`. A
thread waits for a lock that is held, and has returned when `i` is `NLOOP`. -/
def step (mutex : Bool) (NLOOP : Nat) (s : St) (k : Tid) : Option St :=
  let t := s.thread k
  match t.pc with
  | .top =>
    if t.i < NLOOP then
      if mutex = true then
        if s.counter_mutex = none then
          some ({ s with counter_mutex := some k }.set { t with pc := .locked } k)
        else none
      else some (s.set { t with pc := .fetched s.counter } k)
    else none
  | .locked => some (s.set { t with pc := .fetched s.counter } k)
  | .fetched val =>
    some ({ s with printed := s.printed ++ [(k,val+1)] }.set { t with pc := .printed val } k)
  | .printed val =>
    some ({ s with counter := val+1 }.set
      (if mutex = true then { t with pc := .stored } else ⟨t.i+1,.top⟩) k)
  | .stored => some ({ s with counter_mutex := none }.set ⟨t.i+1,.top⟩ k)

def start : St := ⟨0,⟨0,.top⟩,⟨0,.top⟩,none,[]⟩

def example01 (NLOOP : Nat) : Machine St Tid := ⟨start,step false NLOOP⟩

def example02 (NLOOP : Nat) : Machine St Tid := ⟨start,step true NLOOP⟩

/-- Both calls of `pthread_join` have returned. -/
def Joined (NLOOP : Nat) (s : St) : Prop := ∀ k, s.thread k = ⟨NLOOP,.top⟩

/-! ## Without the lock -/

section Unlocked
variable {NLOOP : Nat} {s t : St} {k : Tid}

/-- What `k` has read of the counter. -/
def Pc.val : Pc → Option Nat
  | .fetched val | .printed val => some val
  | _ => none

theorem step_unlocked (h : (example01 NLOOP).step s k = some t) (hlock : (s.thread k).pc ≠ .locked)
    (hstored : (s.thread k).pc ≠ .stored) : t.thread k.other = s.thread k.other ∧
    (((s.thread k).pc = .top ∧ (s.thread k).i < NLOOP ∧ t.counter = s.counter ∧
        t.thread k = ⟨(s.thread k).i,.fetched s.counter⟩) ∨
      (∃ val, (s.thread k).pc = .fetched val ∧ t.counter = s.counter ∧
        t.thread k = ⟨(s.thread k).i,.printed val⟩) ∨
      ∃ val, (s.thread k).pc = .printed val ∧ t.counter = val+1 ∧
        t.thread k = ⟨(s.thread k).i+1,.top⟩) := by
  have hstep : step false NLOOP s k = some t := h
  unfold step at hstep
  cases hpc : (s.thread k).pc with
  | top =>
    simp only [hpc,Bool.false_eq_true,if_false] at hstep
    obtain ⟨hlt,hstep⟩ := Option.ite_none_right_eq_some.mp hstep
    cases hstep
    exact ⟨by simp,.inl ⟨rfl,hlt,by simp,by simp⟩⟩
  | fetched val =>
    simp only [hpc] at hstep
    cases hstep
    exact ⟨by simp,.inr (.inl ⟨val,rfl,by simp,by simp⟩)⟩
  | printed val =>
    simp only [hpc,Bool.false_eq_true,if_false] at hstep
    cases hstep
    exact ⟨by simp,.inr (.inr ⟨val,rfl,by simp,by simp⟩)⟩
  | locked => exact absurd hpc hlock
  | stored => exact absurd hpc hstored

def St.total (s : St) : Nat := s.a.i + s.b.i

theorem St.total_eq (s : St) (k : Tid) : s.total = (s.thread k).i + (s.thread k.other).i := by
  cases k
  · rfl
  · exact Nat.add_comm _ _

theorem forall_tid {P : Tid → Prop} (k : Tid) : (∀ l, P l) ↔ P k ∧ P k.other := by
  constructor
  · exact fun h => ⟨h k,h k.other⟩
  · rintro ⟨h,ho⟩ l
    cases k <;> cases l <;> assumption

/-- The first store leaves the counter positive; the last one of a thread comes after another of
the same thread. -/
structure Bounded (NLOOP : Nat) (s : St) : Prop where
  pcs : ∀ k, (s.thread k).pc ≠ .locked ∧ (s.thread k).pc ≠ .stored
  le : ∀ k, (s.thread k).i ≤ NLOOP
  held : ∀ k val, (s.thread k).pc.val = some val →
    (s.thread k).i < NLOOP ∧ val ≤ s.total ∧ (1 ≤ (s.thread k).i → 1 ≤ val)
  counter_le : s.counter ≤ s.total
  pos : ∀ k, 1 ≤ (s.thread k).i → 1 ≤ s.counter
  last : 2 ≤ NLOOP → (∀ k, (s.thread k).i = NLOOP) → 2 ≤ s.counter

theorem bounded_start : Bounded NLOOP start := by
  have hthread : ∀ k, start.thread k = ⟨0,.top⟩ := fun k => by cases k <;> rfl
  refine ⟨fun k => ?_,fun k => ?_,fun k val h => ?_,Nat.le_refl 0,fun k h => ?_,fun h2 h => ?_⟩
  · rw [hthread]
    exact ⟨nofun,nofun⟩
  · rw [hthread]
    exact Nat.zero_le _
  · rw [hthread] at h
    cases h
  · rw [hthread] at h
    cases h
  · have hzero := h .A
    rw [hthread] at hzero
    cases hzero
    cases h2

/-- A step that stores nothing. -/
theorem Bounded.same (h : Bounded NLOOP s) {pc : Pc} (hother : t.thread k.other = s.thread k.other)
    (hc : t.counter = s.counter) (hk : t.thread k = ⟨(s.thread k).i,pc⟩)
    (hpc : pc ≠ .locked ∧ pc ≠ .stored)
    (hval : ∀ val, pc.val = some val →
      (s.thread k).i < NLOOP ∧ val ≤ s.total ∧ (1 ≤ (s.thread k).i → 1 ≤ val)) :
    Bounded NLOOP t := by
  have hi : ∀ l, (t.thread l).i = (s.thread l).i := by
    rw [forall_tid k,hk,hother]
    exact ⟨rfl,rfl⟩
  have hsame : t.total = s.total := by rw [t.total_eq k,s.total_eq k,hi,hi]
  refine ⟨(forall_tid k).mpr ?_,fun l => ?_,(forall_tid k).mpr ?_,?_,fun l hl => ?_,
    fun h2 hall => ?_⟩
  · rw [hk,hother]
    exact ⟨hpc,h.pcs _⟩
  · rw [hi]
    exact h.le l
  · rw [hk,hother,hsame]
    exact ⟨hval,h.held _⟩
  · rw [hc,hsame]
    exact h.counter_le
  · rw [hc]
    exact h.pos l (hi l ▸ hl)
  · rw [hc]
    exact h.last h2 fun l => (hi l).symm.trans (hall l)

theorem Bounded.step (h : Bounded NLOOP s) (hstep : (example01 NLOOP).step s k = some t) :
    Bounded NLOOP t := by
  obtain ⟨hother,hcases⟩ := step_unlocked hstep (h.pcs k).1 (h.pcs k).2
  rcases hcases with ⟨hpc,hlt,hc,hk⟩ | ⟨val,hpc,hc,hk⟩ | ⟨val,hpc,hc,hk⟩
  · refine h.same hother hc hk ⟨nofun,nofun⟩ fun val hval => ?_
    cases hval
    exact ⟨hlt,h.counter_le,h.pos k⟩
  · refine h.same hother hc hk ⟨nofun,nofun⟩ fun val' hval => ?_
    cases hval
    exact h.held k val (by rw [hpc]; rfl)
  · obtain ⟨hlt,hval,hone⟩ := h.held k val (by rw [hpc]; rfl)
    have hmore : t.total = s.total + 1 := by
      rw [t.total_eq k,s.total_eq k,hk,hother]
      exact Nat.add_right_comm _ _ _
    refine ⟨(forall_tid k).mpr ?_,(forall_tid k).mpr ?_,(forall_tid k).mpr ?_,?_,
      fun l _ => ?_,?_⟩
    · rw [hk,hother]
      exact ⟨⟨nofun,nofun⟩,h.pcs _⟩
    · rw [hk,hother]
      exact ⟨hlt,h.le _⟩
    · rw [hk,hother,hmore]
      refine ⟨fun _ => nofun,fun val' hval' => ?_⟩
      obtain ⟨hlt',hle',hone'⟩ := h.held _ val' hval'
      exact ⟨hlt',Nat.le_succ_of_le hle',hone'⟩
    · omega
    · rw [hc]
      exact Nat.le_add_left 1 val
    · rw [forall_tid k,hk,hother,hc]
      rintro h2 ⟨hi,-⟩
      have hi : (s.thread k).i + 1 = NLOOP := hi
      have hpos := hone (by omega)
      omega

theorem reachable_bounded (h : (example01 NLOOP).Reachable s) : Bounded NLOOP s :=
  h.invariant bounded_start fun _ _ _ hs hstep => hs.step hstep

/-! Runs of one thread while the other stands still. -/

theorem fetch_reaches (h : (example01 NLOOP).Reachable s) {i : Nat} (hk : s.thread k = ⟨i,.top⟩)
    (hi : i < NLOOP) : ∃ t, (example01 NLOOP).Reachable t ∧ t.counter = s.counter ∧
      t.thread k = ⟨i,.fetched s.counter⟩ ∧ t.thread k.other = s.thread k.other := by
  refine ⟨s.set ⟨i,.fetched s.counter⟩ k,h.step (a := k) ?_,by simp,by simp,by simp⟩
  simp [example01,step,hk,hi]

theorem store_reaches (h : (example01 NLOOP).Reachable s) {i val : Nat}
    (hk : s.thread k = ⟨i,.fetched val⟩) : ∃ t, (example01 NLOOP).Reachable t ∧
      t.counter = val+1 ∧ t.thread k = ⟨i+1,.top⟩ ∧ t.thread k.other = s.thread k.other := by
  have hprint : (example01 NLOOP).step s k = some
      ({ s with printed := s.printed ++ [(k,val+1)] }.set ⟨i,.printed val⟩ k) := by
    simp [example01,step,hk]
  obtain ⟨p,hp,hkp,hop⟩ : ∃ p, (example01 NLOOP).Reachable p ∧
      p.thread k = ⟨i,.printed val⟩ ∧ p.thread k.other = s.thread k.other :=
    ⟨_,h.step hprint,by simp,by simp⟩
  refine ⟨{ p with counter := val+1 }.set ⟨i+1,.top⟩ k,hp.step (a := k) ?_,by simp,by simp,
    by simp [hop]⟩
  simp [example01,step,hkp]

theorem loop_reaches (h : (example01 NLOOP).Reachable s) {i : Nat} (m : Nat)
    (hk : s.thread k = ⟨i,.top⟩) (hm : i + m ≤ NLOOP) : ∃ t, (example01 NLOOP).Reachable t ∧
      t.counter = s.counter + m ∧ t.thread k = ⟨i+m,.top⟩ ∧
      t.thread k.other = s.thread k.other := by
  induction m with
  | zero => exact ⟨s,h,rfl,hk,rfl⟩
  | succ m ih =>
    obtain ⟨t,ht,hc,hkt,hot⟩ := ih (by omega)
    obtain ⟨u,hu,-,hku,hou⟩ := fetch_reaches ht hkt (by omega)
    obtain ⟨v,hv,hcv,hkv,hov⟩ := store_reaches hu hku
    exact ⟨v,hv,by rw [hcv,hc]; rfl,hkv,hov.trans (hou.trans hot)⟩

theorem joined_of {s : St} (ha : s.thread .A = ⟨NLOOP,.top⟩) (hb : s.thread .B = ⟨NLOOP,.top⟩) :
    Joined NLOOP s := (forall_tid .A).mpr ⟨ha,hb⟩

/-- `A` increments `x` times and fetches; `B` loses all its stores but the last to `A`, and `A`
all that are left to the last one of `B`. -/
theorem low_reaches {x : Nat} (hx : x + 1 ≤ NLOOP) :
    ∃ s, (example01 NLOOP).Reachable s ∧ Joined NLOOP s ∧ s.counter = x + 2 := by
  have h0 := (example01 NLOOP).reachable_init
  obtain ⟨s₁,h₁,c₁,a₁,b₁⟩ := loop_reaches (k := .A) h0 x rfl (by omega)
  obtain ⟨s₂,h₂,-,a₂,b₂⟩ := fetch_reaches h₁ a₁ (by omega)
  obtain ⟨s₃,h₃,-,b₃,a₃⟩ := loop_reaches (k := .B) h₂ (NLOOP-1) (b₂.trans b₁) (by omega)
  obtain ⟨s₄,h₄,c₄,a₄,b₄⟩ := store_reaches h₃ (a₃.trans a₂)
  obtain ⟨s₅,h₅,-,b₅,a₅⟩ := fetch_reaches h₄ (b₄.trans b₃) (by omega)
  obtain ⟨s₆,h₆,-,a₆,b₆⟩ := loop_reaches (k := .A) h₅ (NLOOP-(0+x+1)) (a₅.trans a₄) (by omega)
  obtain ⟨s₇,h₇,c₇,b₇,a₇⟩ := store_reaches h₆ (b₆.trans b₅)
  have hzero : (example01 NLOOP).init.counter = 0 := rfl
  refine ⟨s₇,h₇,joined_of (Eq.trans a₇ (Eq.trans a₆ ?_)) (Eq.trans b₇ ?_),by omega⟩
  · simp only [Thread.mk.injEq,and_true]
    omega
  · simp only [Thread.mk.injEq,and_true]
    omega

/-- `A` fetches first and loses `z` stores of `B`. -/
theorem high_reaches {z : Nat} (hz : z ≤ NLOOP) (hpos : 0 < NLOOP) :
    ∃ s, (example01 NLOOP).Reachable s ∧ Joined NLOOP s ∧ s.counter = 2 * NLOOP - z := by
  have h0 := (example01 NLOOP).reachable_init
  obtain ⟨s₁,h₁,-,a₁,b₁⟩ := fetch_reaches (k := .A) h0 rfl hpos
  obtain ⟨s₂,h₂,-,b₂,a₂⟩ := loop_reaches (k := .B) h₁ z b₁ (by omega)
  obtain ⟨s₃,h₃,c₃,a₃,b₃⟩ := store_reaches h₂ (a₂.trans a₁)
  obtain ⟨s₄,h₄,c₄,a₄,b₄⟩ := loop_reaches h₃ (NLOOP-1) a₃ (by omega)
  obtain ⟨s₅,h₅,c₅,b₅,a₅⟩ := loop_reaches (k := .B) h₄ (NLOOP-z) (b₄.trans (b₃.trans b₂)) (by omega)
  have hzero : (example01 NLOOP).init.counter = 0 := rfl
  refine ⟨s₅,h₅,joined_of (Eq.trans a₅ (Eq.trans a₄ ?_)) (Eq.trans b₅ ?_),by omega⟩
  · simp only [Thread.mk.injEq,and_true]
    omega
  · simp only [Thread.mk.injEq,and_true]
    omega

/-- The values that the counter can end with. -/
theorem example01_final_iff (h : 2 ≤ NLOOP) (v : Nat) :
    (∃ s, (example01 NLOOP).Reachable s ∧ Joined NLOOP s ∧ s.counter = v) ↔
      2 ≤ v ∧ v ≤ 2 * NLOOP := by
  constructor
  · rintro ⟨s,hs,hjoined,rfl⟩
    have hbounded := reachable_bounded hs
    have hi : ∀ k, (s.thread k).i = NLOOP := fun k => by rw [hjoined k]
    have htotal : s.total = NLOOP + NLOOP := by rw [s.total_eq .A,hi,hi]
    have hle := hbounded.counter_le
    exact ⟨hbounded.last h hi,by omega⟩
  · rintro ⟨hlow,hhigh⟩
    by_cases hv : v ≤ NLOOP
    · obtain ⟨s,hs,hjoined,hc⟩ := low_reaches (show v - 2 + 1 ≤ NLOOP by omega)
      exact ⟨s,hs,hjoined,by omega⟩
    · obtain ⟨s,hs,hjoined,hc⟩ := high_reaches (show 2 * NLOOP - v ≤ NLOOP by omega) (by omega)
      exact ⟨s,hs,hjoined,by omega⟩

theorem example01_final_iff_5000 :
    (∃ s, (example01 5000).Reachable s ∧ Joined 5000 s ∧ s.counter = 2) ↔
      2 ≤ 2 ∧ 2 ≤ 2 * 5000 :=
  example01_final_iff (by decide) 2

end Unlocked

/-! ## With the lock -/

section Locked
variable {NLOOP : Nat} {s t : St} {k : Tid}

/-- The counter, the increments that are over and the lines that are printed while the owner of
the lock is at `pc`. -/
def Critical (counter total lines : Nat) : Pc → Prop
  | .top => False
  | .locked => counter = total ∧ lines = counter
  | .fetched val => val = counter ∧ counter = total ∧ lines = counter
  | .printed val => val = counter ∧ counter = total ∧ lines = counter+1
  | .stored => counter = total+1 ∧ lines = counter

def Turn (NLOOP : Nat) (s : St) : Option Tid → Prop
  | none => (∀ k, (s.thread k).pc = .top) ∧ s.counter = s.total ∧ s.printed.length = s.counter
  | some k => (s.thread k.other).pc = .top ∧ (s.thread k).i < NLOOP ∧
      Critical s.counter s.total s.printed.length (s.thread k).pc

structure Guarded (NLOOP : Nat) (s : St) : Prop where
  le : ∀ k, (s.thread k).i ≤ NLOOP
  turn : Turn NLOOP s s.counter_mutex
  values : s.printed.map Prod.snd = List.range' 1 s.printed.length

theorem guarded_start : Guarded NLOOP start :=
  ⟨fun k => by cases k <;> exact Nat.zero_le _,⟨fun k => by cases k <;> rfl,rfl,rfl⟩,rfl⟩

theorem guarded_owned {i : Nat} {pc : Pc} (hmutex : s.counter_mutex = some k)
    (hi : (s.thread k).i = i) (hlt : i < NLOOP)
    (hother : (s.thread k.other).pc = .top ∧ (s.thread k.other).i ≤ NLOOP)
    (hcritical : Critical s.counter s.total s.printed.length pc)
    (hvalues : s.printed.map Prod.snd = List.range' 1 s.printed.length) :
    Guarded NLOOP (s.set ⟨i,pc⟩ k) := by
  have htotal : (s.set ⟨i,pc⟩ k).total = s.total := by
    rw [St.total_eq _ k,s.total_eq k,St.set_thread,St.set_other,hi]
  refine ⟨(forall_tid k).mpr ⟨?_,?_⟩,?_,by simpa using hvalues⟩
  · simpa using Nat.le_of_lt hlt
  · simpa using hother.2
  · rw [St.set_mutex,hmutex]
    refine ⟨by simpa using hother.1,by simpa using hlt,?_⟩
    rw [St.set_thread,htotal,St.set_counter,St.set_printed]
    exact hcritical

/-- The owner of the lock goes on. -/
theorem Guarded.owner_step (h : Guarded NLOOP s) (hmutex : s.counter_mutex = some k)
    (hstep : step true NLOOP s k = some t) : Guarded NLOOP t := by
  obtain ⟨hle,hturn,hvalues⟩ := h
  rw [hmutex] at hturn
  obtain ⟨hother,hlt,hcritical⟩ := hturn
  have hrest := And.intro hother (hle k.other)
  unfold step at hstep
  cases hpc : (s.thread k).pc with
  | top =>
    rw [hpc] at hcritical
    exact hcritical.elim
  | locked =>
    rw [hpc] at hcritical
    obtain ⟨hc,hp⟩ := hcritical
    simp only [hpc] at hstep
    cases hstep
    exact guarded_owned hmutex rfl hlt hrest ⟨rfl,hc,hp⟩ hvalues
  | fetched val =>
    rw [hpc] at hcritical
    obtain ⟨rfl,hc,hp⟩ := hcritical
    simp only [hpc] at hstep
    cases hstep
    refine guarded_owned (by exact hmutex) (by simp) hlt (by simpa using hrest)
      ⟨rfl,hc,by simpa using hp⟩ ?_
    simp [List.range'_1_concat,hvalues,hp,Nat.add_comm]
  | printed val =>
    rw [hpc] at hcritical
    obtain ⟨rfl,hc,hp⟩ := hcritical
    simp only [hpc,if_true] at hstep
    cases hstep
    exact guarded_owned (by exact hmutex) (by simp) hlt (by simpa using hrest)
      ⟨congrArg Nat.succ hc,hp⟩ hvalues
  | stored =>
    rw [hpc] at hcritical
    obtain ⟨hc,hp⟩ := hcritical
    simp only [hpc] at hstep
    cases hstep
    have htotal := St.total_eq ({ s with counter_mutex := none }.set ⟨(s.thread k).i+1,.top⟩ k) k
    have hbefore := s.total_eq k
    simp only [St.set_thread,St.set_other,St.thread_fields] at htotal
    have hthread : ({ s with counter_mutex := none }.set ⟨(s.thread k).i+1,.top⟩ k).thread k =
        ⟨(s.thread k).i+1,.top⟩ := St.set_thread _ _ _
    refine ⟨(forall_tid k).mpr ⟨?_,by simpa using hle k.other⟩,?_,by simpa using hvalues⟩
    · rw [hthread]
      exact hlt
    rw [St.set_mutex]
    refine ⟨(forall_tid k).mpr ⟨by simp,by simpa using hother⟩,?_,by simpa using hp⟩
    rw [htotal,St.set_counter]
    simp only
    omega

theorem Guarded.step (h : Guarded NLOOP s) (hstep : (example02 NLOOP).step s k = some t) :
    Guarded NLOOP t := by
  have hnext : SharedCounter.step true NLOOP s k = some t := hstep
  cases hmutex : s.counter_mutex with
  | none =>
    obtain ⟨hle,hturn,hvalues⟩ := h
    rw [hmutex] at hturn
    obtain ⟨htop,hc,hp⟩ := hturn
    simp only [SharedCounter.step,htop k,hmutex,if_true] at hnext
    obtain ⟨hlt,hnext⟩ := Option.ite_none_right_eq_some.mp hnext
    cases hnext
    exact guarded_owned rfl (by simp) hlt (by simpa using ⟨htop k.other,hle k.other⟩) ⟨hc,hp⟩
      hvalues
  | some l =>
    by_cases hkl : k = l
    · subst hkl
      exact h.owner_step hmutex hnext
    · have hturn := h.turn
      rw [hmutex] at hturn
      have hother : k = l.other := by cases k <;> cases l <;> first | rfl | exact absurd rfl hkl
      have htop : (s.thread k).pc = .top := by rw [hother]; exact hturn.1
      simp [SharedCounter.step,htop,hmutex] at hnext

theorem reachable_guarded (h : (example02 NLOOP).Reachable s) : Guarded NLOOP s :=
  h.invariant guarded_start fun _ _ _ hs hstep => hs.step hstep

theorem Guarded.goes (h : Guarded NLOOP s) (hjoined : ¬ Joined NLOOP s) :
    ∃ k t, (example02 NLOOP).step s k = some t := by
  have hturn := h.turn
  cases hmutex : s.counter_mutex with
  | none =>
    rw [hmutex] at hturn
    obtain ⟨k,hk⟩ : ∃ k, s.thread k ≠ ⟨NLOOP,.top⟩ := by
      simpa [Joined] using hjoined
    have hlt : (s.thread k).i < NLOOP := by
      refine Nat.lt_of_le_of_ne (h.le k) fun heq => hk ?_
      rw [← heq,← hturn.1 k]
    exact ⟨k,_,by simp only [example02,SharedCounter.step,hturn.1 k,hmutex,if_true,if_pos hlt]; rfl⟩
  | some k =>
    rw [hmutex] at hturn
    refine ⟨k,?_⟩
    cases hpc : (s.thread k).pc with
    | top =>
      obtain ⟨-,-,hcritical⟩ := hturn
      rw [hpc] at hcritical
      exact hcritical.elim
    | _ => exact ⟨_,by simp only [example02,SharedCounter.step,hpc]; rfl⟩

end Locked

end UnixNet.SharedCounter
