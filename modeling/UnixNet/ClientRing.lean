import UnixNet.Library.Family
import UnixNet.Library.Machine
import UnixNet.Library.RingBuffer
set_option autoImplicit false

/-! serv08 and the threads of pthread08, with the ring of accepted connections between them. -/

namespace UnixNet

def MAXNCLI : Nat := 32

inductive AcceptorPc where
  | accept : AcceptorPc
  | put (connfd : Int) : AcceptorPc
  /-- After `err_quit("iput = iget = %d", iput)`. -/
  | exited : AcceptorPc
  deriving DecidableEq, Repr

/-- `lock` is before the locked section, `wait` in `pthread_cond_wait`, and `woken` where
that call has been woken and has yet to lock the mutex again. -/
inductive ThreadPc where
  | lock : ThreadPc
  | wait : ThreadPc
  | woken : ThreadPc
  | count (connfd : Int) : ThreadPc
  | webChild (connfd : Int) : ThreadPc
  | close (connfd : Int) : ThreadPc
  deriving DecidableEq, Repr

structure QueueThread where
  pc : ThreadPc
  thread_count : Nat
  deriving DecidableEq, Repr

/-- `accepted` are the descriptors that Accept returned, `taken` those that a thread took,
each with the thread. -/
structure QueueServer where
  main : AcceptorPc
  ring : RingBuffer Int MAXNCLI
  threads : List QueueThread
  accepted : List Int
  taken : List (Int × Nat)

/-- Accept returns; the main thread's locked section, whose signal wakes thread `woken` if any
thread waits; a thread goes on; a thread is woken without a signal. -/
inductive QueueAct where
  | accept (connfd : Int) : QueueAct
  | put (woken : Nat) : QueueAct
  | thread (i : Nat) : QueueAct
  | spurious (i : Nat) : QueueAct
  deriving DecidableEq, Repr

namespace QueueServer

/-- A thread that waits gets `woken`. -/
def wake (threads : List QueueThread) (i : Nat) : Option (List QueueThread) :=
  match threads[i]? with
  | none => none
  | some th => if th.pc = .wait then some (threads.set i { th with pc := .woken }) else none

def pthreadCondSignal (threads : List QueueThread) (i : Nat) : Option (List QueueThread) :=
  if ∀ th ∈ threads, th.pc ≠ .wait then some threads else wake threads i

/-- The main thread's section between the lock and the unlock. -/
def put (s : QueueServer) (connfd : Int) (woken : Nat) : Option QueueServer :=
  let ring := s.ring.put connfd
  if ring.iput = ring.iget then some { s with main := .exited, ring := ring }
  else
    (pthreadCondSignal s.threads woken).map fun threads =>
      { s with main := .accept, ring := ring, threads := threads }

/-- A thread's section between the lock and the unlock, or the call that waits. -/
def get (s : QueueServer) (i : Nat) (th : QueueThread) : QueueServer :=
  if s.ring.iget = s.ring.iput then
    { s with threads := s.threads.set i { th with pc := .wait } }
  else
    let connfd := s.ring.slots s.ring.iget
    { s with
      ring := s.ring.take
      threads := s.threads.set i { th with pc := .count connfd }
      taken := s.taken ++ [(connfd,i)] }

def threadMain (s : QueueServer) (i : Nat) (th : QueueThread) : Option QueueServer :=
  match th.pc with
  | .lock | .woken => some (s.get i th)
  | .wait => none
  | .count connfd => some { s with
      threads := s.threads.set i ⟨.webChild connfd,th.thread_count + 1⟩ }
  | .webChild connfd => some { s with threads := s.threads.set i { th with pc := .close connfd } }
  | .close _ => some { s with threads := s.threads.set i { th with pc := .lock } }

def step (s : QueueServer) (a : QueueAct) : Option QueueServer :=
  match s.main, a with
  | .exited, _ => none
  | .accept, .accept connfd =>
    some { s with main := .put connfd, accepted := s.accepted ++ [connfd] }
  | .put connfd, .put woken => s.put connfd woken
  | _, .thread i => s.threads[i]?.bind (s.threadMain i)
  | _, .spurious i => (wake s.threads i).map fun threads => { s with threads := threads }
  | _, _ => none

end QueueServer

/-- serv08 with its threads created. `clifd` and the indexes start as zeros. -/
def serv08 (nthreads : Nat) : Machine QueueServer QueueAct :=
  ⟨⟨.accept,⟨fun _ => 0,⟨0,by decide⟩,⟨0,by decide⟩⟩,List.replicate nthreads ⟨.lock,0⟩,[],[]⟩,
    QueueServer.step⟩

/-- The connection that the main thread has accepted and not yet put into the ring. -/
def AcceptorPc.held : AcceptorPc → List Int
  | .put connfd => [connfd]
  | _ => []

/-- The connection that a thread is busy with. -/
def ThreadPc.connfd : ThreadPc → Option Int
  | .lock | .wait | .woken => none
  | .count connfd | .webChild connfd | .close connfd => some connfd

/-- How many connections a thread has taken. -/
def QueueThread.total (th : QueueThread) : Nat :=
  th.thread_count + match th.pc with
    | .count _ => 1
    | _ => 0

/-- The thread goes on without taking a connection. -/
structure QueueThread.Same (th th' : QueueThread) : Prop where
  total : th'.total = th.total
  connfd : th'.pc.connfd = th.pc.connfd ∨ th'.pc.connfd = none

/-- What a thread has taken and is busy with is in the log under its number. -/
structure QueueThread.Logged (taken : List (Int × Nat)) (i : Nat) (th : QueueThread) : Prop where
  total : taken.countP (fun x => x.2 = i) = th.total
  connfd : ∀ c, th.pc.connfd = some c →
    (taken.filter fun x => x.2 = i).getLast? = some (c,i)

theorem QueueThread.Logged.same {taken : List (Int × Nat)} {i : Nat} {th th' : QueueThread}
    (h : th.Logged taken i) (hsame : th.Same th') : th'.Logged taken i := by
  refine ⟨h.total.trans hsame.total.symm,fun c hc => ?_⟩
  rcases hsame.connfd with heq | hnone
  · exact h.connfd c (heq ▸ hc)
  · rw [hnone] at hc
    cases hc

theorem QueueThread.Logged.append {taken : List (Int × Nat)} {i j : Nat} {th : QueueThread}
    {connfd : Int} (h : th.Logged taken j) (hij : i ≠ j) :
    th.Logged (taken ++ [(connfd,i)]) j := by
  refine ⟨?_,fun c hc => ?_⟩
  · simpa [hij] using h.total
  · simpa [hij] using h.connfd c hc

theorem QueueThread.Logged.take {taken : List (Int × Nat)} {i : Nat} {th : QueueThread}
    {connfd : Int} (h : th.Logged taken i) (hpc : th.pc.connfd = none) :
    QueueThread.Logged (taken ++ [(connfd,i)]) i { th with pc := .count connfd } := by
  have htotal : th.total = th.thread_count := by
    unfold QueueThread.total
    split
    · rename_i hcount
      rw [hcount] at hpc
      cases hpc
    · rfl
  have hcount : (taken ++ [(connfd,i)]).countP (fun x => x.2 = i) = th.total + 1 := by
    simp [h.total]
  refine ⟨?_,fun c hc => ?_⟩
  · rw [hcount,htotal]
    rfl
  · cases hc
    simp

namespace QueueServer
variable {s t : QueueServer}

/-- The steps of the server, with what each of them finds and changes. -/
inductive Move (s : QueueServer) : QueueAct → QueueServer → Prop where
  | accept {connfd : Int} (hmain : s.main = .accept) : Move s (.accept connfd)
      { s with main := .put connfd, accepted := s.accepted ++ [connfd] }
  | full {connfd : Int} {woken : Nat} (hmain : s.main = .put connfd)
      (hfull : s.ring.used + 1 = MAXNCLI) : Move s (.put woken)
      { s with main := .exited, ring := s.ring.put connfd }
  | put {connfd : Int} {woken : Nat} {threads : List QueueThread} (hmain : s.main = .put connfd)
      (hroom : s.ring.used + 1 ≠ MAXNCLI)
      (hsignal : pthreadCondSignal s.threads woken = some threads) : Move s (.put woken)
      { s with main := .accept, ring := s.ring.put connfd, threads := threads }
  | thread {a : QueueAct} {i : Nat} {th th' : QueueThread} (ha : ∀ woken, a ≠ .put woken)
      (hmain : s.main ≠ .exited) (hi : s.threads[i]? = some th) (hsame : th.Same th')
      (hwait : th'.pc = .wait → s.ring.content = []) : Move s a
      { s with threads := s.threads.set i th' }
  | take {i : Nat} {th : QueueThread} (hmain : s.main ≠ .exited)
      (hi : s.threads[i]? = some th) (hpc : th.pc.connfd = none)
      (hring : s.ring.iget ≠ s.ring.iput) : Move s (.thread i)
      { s with
        ring := s.ring.take
        threads := s.threads.set i { th with pc := .count (s.ring.slots s.ring.iget) }
        taken := s.taken ++ [(s.ring.slots s.ring.iget,i)] }

theorem wake_cases {l l' : List QueueThread} {i : Nat} (h : wake l i = some l') :
    ∃ th, l[i]? = some th ∧ th.pc = .wait ∧ l' = l.set i { th with pc := .woken } := by
  unfold wake at h
  split at h
  · cases h
  · rename_i th hi
    split at h
    · rename_i hpc
      cases h
      exact ⟨th,hi,hpc,rfl⟩
    · cases h

theorem same_of_waiting {th : QueueThread} (h : th.pc = .wait) :
    th.Same { th with pc := .woken } :=
  ⟨by simp [QueueThread.total,h],.inr rfl⟩

theorem get_move {i : Nat} {th : QueueThread} (hmain : s.main ≠ .exited)
    (hi : s.threads[i]? = some th) (hpc : th.pc = .lock ∨ th.pc = .woken) :
    Move s (.thread i) (s.get i th) := by
  have hnone : th.pc.connfd = none := by rcases hpc with hpc | hpc <;> rw [hpc] <;> rfl
  unfold get
  split
  · rename_i hempty
    refine .thread nofun hmain hi ⟨?_,.inr rfl⟩ fun _ => RingBuffer.content_eq_nil.mpr hempty
    rcases hpc with hpc | hpc <;> simp [QueueThread.total,hpc]
  · rename_i hring
    exact .take hmain hi hnone hring

theorem thread_move {i : Nat} {th : QueueThread} (hmain : s.main ≠ .exited)
    (hi : s.threads[i]? = some th) (h : s.threadMain i th = some t) : Move s (.thread i) t := by
  unfold threadMain at h
  split at h
  · rename_i hpc
    cases h
    exact get_move hmain hi (.inl hpc)
  · rename_i hpc
    cases h
    exact get_move hmain hi (.inr hpc)
  · cases h
  all_goals
    rename_i connfd hpc
    cases h
    exact .thread nofun hmain hi ⟨by simp [QueueThread.total,hpc],by simp [ThreadPc.connfd,hpc]⟩ nofun

theorem put_move {connfd : Int} {woken : Nat} (hmain : s.main = .put connfd)
    (h : s.put connfd woken = some t) : Move s (.put woken) t := by
  simp only [put,RingBuffer.put_meets] at h
  split at h
  · rename_i hfull
    cases h
    exact .full hmain hfull
  · rename_i hroom
    obtain ⟨threads,hsignal,rfl⟩ := Option.map_eq_some_iff.mp h
    exact .put hmain hroom hsignal

theorem step_move {a : QueueAct} (h : s.step a = some t) : Move s a t := by
  unfold step at h
  split at h
  · cases h
  · rename_i hmain
    cases h
    exact .accept hmain
  · rename_i hmain
    exact put_move hmain h
  · rename_i hmain
    obtain ⟨th,hi,hth⟩ := Option.bind_eq_some_iff.mp h
    exact thread_move hmain hi hth
  · rename_i hmain
    obtain ⟨threads,hwake,rfl⟩ := Option.map_eq_some_iff.mp h
    obtain ⟨th,hi,hpc,rfl⟩ := wake_cases hwake
    exact .thread nofun hmain hi (same_of_waiting hpc) nofun
  · cases h

/-- Connections are taken in the order of their accepts, by one thread each, and where there
are threads, one of them is awake while a connection waits. -/
structure Inv (s : QueueServer) : Prop where
  fifo : s.main ≠ .exited → s.taken.map Prod.fst ++ s.ring.content ++ s.main.held = s.accepted
  taken : s.taken.map Prod.fst <+: s.accepted
  takers : ∀ x ∈ s.taken, x.2 < s.threads.length
  logged : ∀ (i : Nat) (th : QueueThread), s.threads[i]? = some th → th.Logged s.taken i
  awake : s.main ≠ .exited → s.ring.content ≠ [] → s.threads ≠ [] →
    ∃ th ∈ s.threads, th.pc ≠ .wait

theorem init_inv (n : Nat) : Inv (serv08 n).init := by
  refine ⟨fun _ => rfl,List.prefix_rfl,nofun,fun i th hi => ?_,fun _ hne => absurd rfl hne⟩
  obtain rfl := (List.mem_replicate.mp (List.mem_of_getElem? hi)).2
  exact ⟨rfl,nofun⟩

theorem logged_set {i : Nat} {th th' : QueueThread} (h : Inv s) (hi : s.threads[i]? = some th)
    (hsame : th.Same th') (j : Nat) (x : QueueThread)
    (hx : (s.threads.set i th')[j]? = some x) : x.Logged s.taken j := by
  rw [Family.getElem?_set hi] at hx
  split at hx
  · rename_i hij
    cases hx
    exact hij ▸ (h.logged i th hi).same hsame
  · exact h.logged j x hx

theorem thread_inv {i : Nat} {th th' : QueueThread} (h : Inv s)
    (hi : s.threads[i]? = some th) (hsame : th.Same th')
    (hwait : th'.pc = .wait → s.ring.content = []) :
    Inv { s with threads := s.threads.set i th' } := by
  have hlt := (List.getElem?_eq_some_iff.mp hi).1
  refine ⟨h.fifo,h.taken,?_,logged_set h hi hsame,fun _ hcontent _ => ?_⟩
  · simpa using h.takers
  · exact ⟨th',List.mem_set hlt th',fun hpc => hcontent (hwait hpc)⟩

theorem take_inv {i : Nat} {th : QueueThread} (h : Inv s) (hmain : s.main ≠ .exited)
    (hi : s.threads[i]? = some th) (hpc : th.pc.connfd = none)
    (hring : s.ring.iget ≠ s.ring.iput) : Inv { s with
      ring := s.ring.take
      threads := s.threads.set i { th with pc := .count (s.ring.slots s.ring.iget) }
      taken := s.taken ++ [(s.ring.slots s.ring.iget,i)] } := by
  have hlt := (List.getElem?_eq_some_iff.mp hi).1
  have hfifo := h.fifo hmain
  rw [RingBuffer.content_take hring] at hfifo
  have hnext : (s.taken ++ [(s.ring.slots s.ring.iget,i)]).map Prod.fst ++ s.ring.take.content ++
      s.main.held = s.accepted := by
    rw [← hfifo]
    simp
  refine ⟨fun _ => hnext,⟨_,(List.append_assoc _ _ _).symm.trans hnext⟩,fun x hx => ?_,
    fun j x hx => ?_,fun _ _ _ => ⟨_,List.mem_set hlt _,nofun⟩⟩
  · rw [List.length_set]
    rcases List.mem_append.mp hx with hx | hx
    · exact h.takers x hx
    · rw [List.mem_singleton.mp hx]
      exact hlt
  · rw [Family.getElem?_set hi] at hx
    split at hx
    · rename_i hij
      cases hx
      exact hij ▸ (h.logged i th hi).take hpc
    · rename_i hij
      exact (h.logged j x hx).append hij

/-- The signal leaves the threads as they are when one of them is awake, and wakes one when
all of them wait. -/
theorem signal_cases {l l' : List QueueThread} {i : Nat} (h : pthreadCondSignal l i = some l') :
    l' = l ∧ (∀ th ∈ l, th.pc ≠ .wait) ∨
      ∃ th, l[i]? = some th ∧ th.pc = .wait ∧ l' = l.set i { th with pc := .woken } := by
  unfold pthreadCondSignal at h
  split at h
  · rename_i hawake
    cases h
    exact .inl ⟨rfl,hawake⟩
  · exact .inr (wake_cases h)

theorem put_inv {connfd : Int} {woken : Nat} {threads : List QueueThread} (h : Inv s)
    (hmain : s.main = .put connfd) (hroom : s.ring.used + 1 ≠ MAXNCLI)
    (hsignal : pthreadCondSignal s.threads woken = some threads) :
    Inv { s with main := .accept, ring := s.ring.put connfd, threads := threads } := by
  have hfifo : s.taken.map Prod.fst ++ (s.ring.put connfd).content ++ [] = s.accepted := by
    rw [← h.fifo (by simp [hmain]),RingBuffer.content_put hroom,hmain]
    simp [AcceptorPc.held]
  rcases signal_cases hsignal with ⟨rfl,hawake⟩ | ⟨th,hi,hpc,rfl⟩
  · refine ⟨fun _ => hfifo,h.taken,h.takers,h.logged,fun _ _ hne => ?_⟩
    obtain ⟨th,hth⟩ := List.exists_mem_of_ne_nil _ hne
    exact ⟨th,hth,hawake th hth⟩
  · have hlt := (List.getElem?_eq_some_iff.mp hi).1
    refine ⟨fun _ => hfifo,h.taken,?_,logged_set h hi (same_of_waiting hpc),fun _ _ _ => ?_⟩
    · simpa using h.takers
    · exact ⟨_,List.mem_set hlt _,nofun⟩

theorem step_inv (s : QueueServer) (a : QueueAct) (t : QueueServer) (h : Inv s)
    (ht : s.step a = some t) : Inv t := by
  cases step_move ht with
  | accept hmain =>
    have hfifo := h.fifo (by simp [hmain])
    rw [hmain] at hfifo
    refine ⟨fun _ => ?_,h.taken.trans (List.prefix_append _ _),h.takers,h.logged,fun _ => ?_⟩
    · rw [← hfifo]
      simp [AcceptorPc.held]
    · exact h.awake (by simp [hmain])
  | full => exact ⟨fun hmain => absurd rfl hmain,h.taken,h.takers,h.logged,
      fun hmain => absurd rfl hmain⟩
  | put hmain hroom hsignal => exact put_inv h hmain hroom hsignal
  | thread _ _ hi hsame hwait => exact thread_inv h hi hsame hwait
  | take hmain hi hpc hring => exact take_inv h hmain hi hpc hring

theorem reachable_inv {n : Nat} (h : (serv08 n).Reachable s) : Inv s :=
  h.invariant (init_inv n) step_inv

end QueueServer

/-- Moreover the slot that is written next holds no connection that waits, and the main thread
exits when it stores a connection while `MAXNCLI - 1` wait. -/
structure QueueServer.Sound (s : QueueServer) : Prop extends Inv s where
  kept : ∀ k < s.ring.content.length, s.ring.slot k ≠ s.ring.iput
  exits : ∀ a t, s.step a = some t → (t.main = .exited ↔
    (∃ connfd woken, s.main = .put connfd ∧ a = .put woken) ∧
      s.ring.content.length = MAXNCLI - 1)

theorem QueueServer.exits_iff {s t : QueueServer} {a : QueueAct} (h : s.step a = some t) :
    t.main = .exited ↔ (∃ connfd woken, s.main = .put connfd ∧ a = .put woken) ∧
      s.ring.content.length = MAXNCLI - 1 := by
  have hlen : s.ring.content.length = MAXNCLI - 1 ↔ s.ring.used + 1 = MAXNCLI := by
    rw [RingBuffer.content_length]
    simp [MAXNCLI]
  rw [hlen]
  cases step_move h with
  | accept hmain => simp [hmain]
  | full hmain hfull => simp [hmain,hfull]
  | put hmain hroom hsignal => simp [hroom]
  | thread ha hmain hi hsame hwait => simp [hmain,ha]
  | take hmain hi hpc hring => simp [hmain]

theorem serv08_sound (nthreads : Nat) (s : QueueServer) (h : (serv08 nthreads).Reachable s) :
    s.Sound := by
  have hinv := QueueServer.reachable_inv h
  refine ⟨hinv,fun k hk => ?_,fun a t ht => QueueServer.exits_iff ht⟩
  exact RingBuffer.slot_ne_iput (RingBuffer.content_length s.ring ▸ hk)

/-- Thread 1, which never waited, overtakes the thread that the signal woke. -/
theorem serv08_sound_overtaken :
    let acts := [.thread 0,.accept 5,.put 0,.thread 1,.thread 0]
    ∃ s, (serv08 2).run (serv08 2).init acts = some s ∧ s.taken = [(5,1)] ∧
      s.threads.map QueueThread.pc = [.wait,.count 5] ∧ s.Sound := by
  intro acts
  exact ⟨_,rfl,rfl,rfl,serv08_sound 2 _ ⟨acts,rfl⟩⟩

/-- Without threads a connection waits for ever. -/
theorem serv08_no_threads : ¬ ∀ (nthreads : Nat) (s : QueueServer), (serv08 nthreads).Reachable s →
    s.main ≠ .exited → s.ring.content ≠ [] → ∃ th ∈ s.threads, th.pc ≠ .wait := by
  intro h
  obtain ⟨th,hth,_⟩ := h 0 _ ⟨[.accept 5,.put 0],rfl⟩ (by decide) (by decide)
  cases hth

end UnixNet
