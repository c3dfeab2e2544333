import UnixNet.Descriptor
import UnixNet.Library.CyclicBuffer
import UnixNet.Library.Machine
set_option autoImplicit false

/-! The signal-driven `dg_echo`, its handler `sig_io` and the queue of datagrams between them. -/

namespace UnixNet

def QSIZE : Nat := 8
def MAXDG : Nat := 4096

structure DG where
  dg_data : List Byte
  dg_len : Nat
  dg_sa : List Byte
  dg_salen : Nat
  deriving DecidableEq, Repr

/-- The data and the address that `Sendto` is given. -/
def DG.datagram (d : DG) : List Byte × List Byte :=
  (d.dg_data.take d.dg_len,d.dg_sa.take d.dg_salen)

/-- What recvfrom stores at `ptr`. -/
def DG.fill (ptr : DG) (bytes addr : List Byte) : DG :=
  ⟨bytes ++ ptr.dg_data.drop bytes.length,bytes.length,addr ++ ptr.dg_sa.drop addr.length,
    addr.length⟩

theorem DG.datagram_fill (ptr : DG) (bytes addr : List Byte) :
    (ptr.fill bytes addr).datagram = (bytes,addr) := by
  simp [datagram,fill]

/-- `start` is after the handlers are set up. `test` is the loop's test of `nqueue`, `call` after
it has found 0, and `suspend` inside `sigsuspend`, which returns once a handler has run.
`incr` and `wrap` are `++iget` and the reset to 0; `store` has yet to write `nqueue` back. -/
inductive EchoPc where
  | start : EchoPc
  | test : EchoPc
  | call : EchoPc
  | suspend (woken : Bool) : EchoPc
  | unblock : EchoPc
  | sendto : EchoPc
  | incr : EchoPc
  | wrap : EchoPc
  | block : EchoPc
  | dec : EchoPc
  | store (nqueue : Int) : EchoPc
  /-- After err_quit or err_sys. -/
  | exited : EchoPc
  deriving DecidableEq, Repr

/-- A handler that returns lets `sigsuspend` return. -/
def EchoPc.wake : EchoPc → EchoPc
  | .suspend _ => .suspend true
  | pc => pc

/-- `mask` and `oldmask` say whether SIGIO is blocked. `handler` is the `nread` of a `sig_io`
that runs. The logs are what recvfrom returned and what Sendto sent. -/
structure DgEcho where
  pc : EchoPc
  mask : Bool
  oldmask : Bool
  handler : Option Nat
  dg : Nat → DG
  iget : Nat
  iput : Nat
  nqueue : Int
  cntread : Nat → Nat
  received : List (List Byte × List Byte)
  echoed : List (List Byte × List Byte)

inductive Recvfrom where
  | datagram (data addr : List Byte) : Recvfrom
  | fail (e : Errno) : Recvfrom
  deriving DecidableEq, Repr

/-- The main loop goes on; its Sendto fails; SIGIO is delivered; the handler goes once
round its loop; SIGHUP is delivered and its handler prints the histogram. -/
inductive DgEchoAct where
  | main : DgEchoAct
  | sendtoFails : DgEchoAct
  | sigio : DgEchoAct
  | recvfrom (r : Recvfrom) : DgEchoAct
  | sighup : DgEchoAct
  deriving DecidableEq, Repr

namespace DgEcho

/-- Whether SIGIO is blocked. `sigsuspend` installs `zeromask` while it waits. -/
def blocked (s : DgEcho) : Bool :=
  match s.pc with
  | .suspend _ => false
  | _ => s.mask

/-- The body of the loop in `sig_io`. The addresses of the socket have at most `clilen` bytes. -/
def sigIo (clilen : Nat) (s : DgEcho) (nread : Nat) (r : Recvfrom) : Option DgEcho :=
  if s.nqueue ≥ QSIZE then some { s with pc := .exited }
  else
    let ptr := { s.dg s.iput with dg_salen := clilen }
    match r with
    | .datagram data addr =>
      if addr.length > clilen then none
      else
        let bytes := data.take MAXDG
        some { s with
          dg := Function.update s.dg s.iput (ptr.fill bytes addr)
          nqueue := s.nqueue + 1
          iput := CyclicBuffer.next QSIZE s.iput
          handler := some (nread + 1)
          received := s.received ++ [(bytes,addr)] }
    | .fail .ewouldblock =>
      some { s with
        pc := s.pc.wake
        dg := Function.update s.dg s.iput ptr
        cntread := Function.update s.cntread nread (s.cntread nread + 1)
        handler := none }
    | .fail _ => some { s with pc := .exited }

/-- A step of `dg_echo` outside the handlers. -/
def dgEchoStep (s : DgEcho) : Option DgEcho :=
  match s.pc with
  | .start => some { s with pc := .test, oldmask := s.mask, mask := true }
  | .test => some { s with pc := if s.nqueue = 0 then .call else .unblock }
  | .call => some { s with pc := .suspend false }
  | .suspend woken => if woken then some { s with pc := .test } else none
  | .unblock => some { s with pc := .sendto, mask := s.oldmask }
  | .sendto => some { s with pc := .incr, echoed := s.echoed ++ [(s.dg s.iget).datagram] }
  | .incr => some { s with pc := .wrap, iget := s.iget + 1 }
  | .wrap => some { s with pc := .block, iget := if s.iget ≥ QSIZE then 0 else s.iget }
  | .block => some { s with pc := .dec, mask := true }
  | .dec => some { s with pc := .store s.nqueue }
  | .store nqueue => some { s with pc := .test, nqueue := nqueue - 1 }
  | .exited => none

def step (clilen : Nat) (s : DgEcho) : DgEchoAct → Option DgEcho
  | .main => if s.handler = none then s.dgEchoStep else none
  | .sendtoFails =>
    if s.handler = none ∧ s.pc = .sendto then some { s with pc := .exited } else none
  | .sigio =>
    if s.pc = .exited ∨ s.blocked ∨ s.handler ≠ none then none
    else some { s with handler := some 0 }
  | .recvfrom r =>
    if s.pc = .exited then none else s.handler.bind fun nread => s.sigIo clilen nread r
  | .sighup => if s.pc = .exited then none else some { s with pc := s.pc.wake }

end DgEcho

/-- `dg_echo` with the slots as Malloc left them, called with SIGIO blocked or not. -/
def dgEcho01 (clilen : Nat) (mask : Bool) (malloced : Nat → DG) : Machine DgEcho DgEchoAct :=
  ⟨⟨.start,mask,false,none,fun i => { malloced i with dg_salen := clilen },0,0,0,fun _ => 0,[],[]⟩,
    DgEcho.step clilen⟩

/-- 1 where `nqueue` counts a datagram that is echoed already. -/
def EchoPc.sent : EchoPc → Nat
  | .incr | .wrap | .block | .dec | .store _ => 1
  | _ => 0

/-- 1 where `iget` has advanced and `nqueue` still counts the datagram that was echoed. -/
def EchoPc.advanced : EchoPc → Nat
  | .wrap | .block | .dec | .store _ => 1
  | _ => 0

/-- 1 where `iget` has yet to advance past the datagram that was echoed. -/
def EchoPc.lag : EchoPc → Nat
  | .incr => 1
  | _ => 0

/-- How many steps the main loop is from the Sendto of a datagram that waits, at most. -/
def EchoPc.rank : EchoPc → Nat
  | .sendto | .exited => 1
  | .unblock => 2
  | .test => 3
  | .start | .suspend _ | .store _ => 4
  | .call | .dec => 5
  | .block => 6
  | .wrap => 7
  | .incr => 8

theorem EchoPc.rank_pos (pc : EchoPc) : 0 < pc.rank := by
  cases pc <;> exact Nat.succ_pos _

namespace DgEcho

/-- The slot that is passed to Sendto, until `nqueue` is decremented for it. -/
def sending (s : DgEcho) : Option Nat :=
  match s.pc with
  | .unblock | .sendto | .incr => some s.iget
  | .wrap => some (s.iget - 1)
  | .block | .dec | .store _ => some ((s.iget + QSIZE - 1) % QSIZE)
  | _ => none

/-- The datagrams in the queue that are not echoed yet. -/
def waiting (s : DgEcho) : List (List Byte × List Byte) :=
  (CyclicBuffer.slice s.dg QSIZE (s.iget + s.pc.lag) (s.nqueue - s.pc.sent).toNat).map DG.datagram

/-- The process sleeps in `sigsuspend`. -/
def Asleep (s : DgEcho) : Prop := s.pc = .suspend false ∧ s.handler = none

/-- Where the main loop relies on a blocked SIGIO. -/
def Masked (s : DgEcho) : Prop :=
  match s.pc with
  | .test | .call | .suspend _ | .unblock | .dec | .store _ => s.mask = true
  | _ => True

/-- What the main loop knows of `nqueue` at its program point. -/
def Knows (s : DgEcho) : Prop :=
  match s.pc with
  | .call => s.nqueue = 0
  | .suspend false => s.handler = none → s.nqueue = 0
  | .unblock | .sendto => 0 < s.nqueue
  | .store n => n = s.nqueue
  | _ => True

/-- Where `iget` is: up to `QSIZE` between `++iget` and its reset. -/
def InRange (s : DgEcho) : Prop :=
  match s.pc with
  | .wrap => 0 < s.iget ∧ s.iget ≤ QSIZE
  | _ => s.iget < QSIZE

/-- `count` datagrams wait to be echoed. -/
structure Inv (s : DgEcho) (count : Nat) : Prop where
  nqueue : s.nqueue = count + s.pc.sent
  room : count + s.pc.sent ≤ QSIZE
  iget : s.InRange
  iput : s.iput = (s.iget + s.pc.lag + count) % QSIZE
  echoed : s.echoed ++ (CyclicBuffer.slice s.dg QSIZE (s.iget + s.pc.lag) count).map DG.datagram =
    s.received
  masked : s.Masked
  knows : s.Knows
  alone : s.handler ≠ none → s.blocked = false
  nread : ∀ n, s.handler = some n → n ≤ s.nqueue

variable {s t : DgEcho} {clilen count : Nat}

theorem init_inv (mask : Bool) (malloced : Nat → DG) : Inv (dgEcho01 clilen mask malloced).init 0 :=
  ⟨rfl,Nat.zero_le _,Nat.zero_lt_succ _,rfl,rfl,trivial,trivial,absurd rfl,by simp [dgEcho01]⟩

/-- Sendto echoes the first of the datagrams that wait. -/
theorem sendto_inv (h : Inv s count) (hpc : s.pc = .sendto) (halone : s.handler = none) :
    ∃ count',
      Inv { s with pc := .incr, echoed := s.echoed ++ [(s.dg s.iget).datagram] } count' := by
  obtain ⟨hnqueue,hroom,higet,hiput,hechoed,-,hknows,-,-⟩ := h
  simp only [hpc,EchoPc.sent,EchoPc.lag,Knows,InRange] at hnqueue hroom hiput hechoed hknows higet
  cases count with
  | zero => omega
  | succ count =>
    rw [CyclicBuffer.slice_take,Nat.add_zero,Nat.mod_eq_of_lt higet] at hechoed
    refine ⟨count,?_,hroom,higet,?_,?_,trivial,trivial,by simp [halone],by simp [halone]⟩
    · simpa [EchoPc.sent] using hnqueue
    · simpa [EchoPc.lag,Nat.add_comm,Nat.add_left_comm] using hiput
    · simpa [EchoPc.lag] using hechoed

/-- The index that has reached the end starts again. -/
theorem wrap_inv (h : Inv s count) (hpc : s.pc = .wrap) (halone : s.handler = none) :
    Inv { s with pc := .block, iget := if s.iget ≥ QSIZE then 0 else s.iget } count := by
  obtain ⟨hnqueue,hroom,higet,hiput,hechoed,-,-,-,-⟩ := h
  simp only [hpc,EchoPc.sent,EchoPc.lag,InRange,Nat.add_zero] at hnqueue hroom hiput hechoed higet
  have hmod : (if s.iget ≥ QSIZE then 0 else s.iget) = s.iget % QSIZE := by
    split
    · rw [show s.iget = QSIZE by omega,Nat.mod_self]
    · rw [Nat.mod_eq_of_lt (by omega)]
  rw [hmod]
  refine ⟨hnqueue,hroom,Nat.mod_lt _ (by decide),?_,?_,trivial,trivial,by simp [halone],
    by simp [halone]⟩
  · simpa [EchoPc.lag] using hiput
  · simpa [EchoPc.lag] using hechoed

theorem main_inv (h : Inv s count) (halone : s.handler = none) (ht : s.dgEchoStep = some t) :
    ∃ count', Inv t count' := by
  have hquiet : ∀ {P : Prop}, s.handler ≠ none → P := fun hne => absurd halone hne
  have hnone : ∀ n, s.handler = some n → (n : Int) ≤ s.nqueue := by simp [halone]
  have hs := h
  obtain ⟨hnqueue,hroom,higet,hiput,hechoed,hmasked,hknows,-,-⟩ := hs
  cases hpc : s.pc
  all_goals
    simp only [dgEchoStep,hpc] at ht
    simp only [hpc,EchoPc.sent,EchoPc.lag,InRange,Masked,Knows]
      at hnqueue hroom hiput hechoed higet hmasked hknows
  case start =>
    cases ht
    exact ⟨count,hnqueue,hroom,higet,hiput,hechoed,rfl,trivial,hquiet,hnone⟩
  case test =>
    cases ht
    split
    · rename_i hzero
      exact ⟨count,hnqueue,hroom,higet,hiput,hechoed,hmasked,hzero,hquiet,hnone⟩
    · have hpos : 0 < s.nqueue := by omega
      exact ⟨count,hnqueue,hroom,higet,hiput,hechoed,hmasked,hpos,hquiet,hnone⟩
  case call =>
    cases ht
    exact ⟨count,hnqueue,hroom,higet,hiput,hechoed,hmasked,fun _ => hknows,hquiet,hnone⟩
  case suspend =>
    split at ht
    · cases ht
      exact ⟨count,hnqueue,hroom,higet,hiput,hechoed,hmasked,trivial,hquiet,hnone⟩
    · cases ht
  case unblock =>
    cases ht
    exact ⟨count,hnqueue,hroom,higet,hiput,hechoed,trivial,hknows,hquiet,hnone⟩
  case sendto =>
    cases ht
    exact sendto_inv h hpc halone
  case incr =>
    cases ht
    exact ⟨count,hnqueue,hroom,⟨Nat.succ_pos _,higet⟩,hiput,hechoed,trivial,trivial,hquiet,hnone⟩
  case wrap =>
    cases ht
    exact ⟨count,wrap_inv h hpc halone⟩
  case block =>
    cases ht
    exact ⟨count,hnqueue,hroom,higet,hiput,hechoed,rfl,trivial,hquiet,hnone⟩
  case dec =>
    cases ht
    exact ⟨count,hnqueue,hroom,higet,hiput,hechoed,hmasked,rfl,hquiet,hnone⟩
  case store n =>
    cases ht
    refine ⟨count,?_,Nat.le_of_succ_le hroom,higet,hiput,hechoed,hmasked,trivial,hquiet,?_⟩
    · simp only [EchoPc.sent]
      omega
    · simp [halone]
  case exited => cases ht

theorem wake_eq {pc : EchoPc} (h : ∀ woken, pc ≠ .suspend woken) : pc.wake = pc := by
  unfold EchoPc.wake
  split
  · rename_i woken
    exact absurd rfl (h woken)
  · rfl

theorem wake_inv (h : Inv s count) : Inv { s with pc := s.pc.wake } count := by
  by_cases hsuspend : ∃ woken, s.pc = .suspend woken
  · obtain ⟨woken,hpc⟩ := hsuspend
    obtain ⟨hnqueue,hroom,higet,hiput,hechoed,hmasked,-,-,hnread⟩ := h
    simp only [hpc,EchoPc.sent,EchoPc.lag,InRange,Masked]
      at hnqueue hroom hiput hechoed higet hmasked
    simp only [hpc]
    exact ⟨hnqueue,hroom,higet,hiput,hechoed,hmasked,trivial,fun _ => rfl,hnread⟩
  · rw [wake_eq fun woken hpc => hsuspend ⟨woken,hpc⟩]
    exact h

/-- The slot that the handler fills lies past the datagrams that wait. -/
theorem iput_free (h : Inv s count) (hlt : s.nqueue < QSIZE) :
    ∀ k < count, (s.iget + s.pc.lag + k) % QSIZE ≠ s.iput := by
  intro k hk
  have hcount : count < QSIZE := by
    have := h.nqueue
    omega
  rw [h.iput]
  exact CyclicBuffer.slot_ne hk hcount

theorem knows_open (hmasked : s.Masked) (hopen : s.blocked = false)
    (hasleep : ¬ s.Asleep) (hsendto : s.pc = .sendto → 0 < s.nqueue) : s.Knows := by
  unfold Masked at hmasked
  unfold blocked at hopen
  unfold Knows
  cases hpc : s.pc
  case sendto => exact hsendto hpc
  case suspend woken =>
    cases woken with
    | false => exact fun hnone => absurd ⟨hpc,hnone⟩ hasleep
    | true => trivial
  all_goals simp_all

/-- The handler stores a datagram at `iput`. -/
theorem fill_inv {n : Nat} {d : DG} {x : List Byte × List Byte} (h : Inv s count)
    (hn : s.handler = some n) (hlt : s.nqueue < QSIZE) (hd : d.datagram = x) : Inv { s with
      dg := Function.update s.dg s.iput d
      nqueue := s.nqueue + 1
      iput := CyclicBuffer.next QSIZE s.iput
      handler := some (n + 1)
      received := s.received ++ [x] } (count + 1) := by
  have hopen := h.alone (by simp [hn])
  obtain ⟨hnqueue,hroom,higet,hiput,hechoed,hmasked,hknows,-,hnread⟩ := h
  have hput : s.iput < QSIZE := hiput ▸ Nat.mod_lt _ (by decide)
  refine ⟨?_,?_,higet,?_,?_,hmasked,knows_open hmasked hopen (fun hs => by cases hs.2) ?_,
    fun _ => hopen,?_⟩
  · simp only
    omega
  · simp only
    omega
  · rw [CyclicBuffer.next_eq hput,hiput,Nat.mod_add_mod]
    rfl
  · simp only [hiput]
    rw [CyclicBuffer.slice_put (by omega),← hechoed]
    simp [hd]
  · intro
    simp only
    omega
  · intro m hm
    cases hm
    have := hnread n hn
    simp only
    omega

/-- A failed `recvfrom` has written to the slot at `iput` all the same. -/
theorem touch_inv {d : DG} {cntread : Nat → Nat} (h : Inv s count) (hlt : s.nqueue < QSIZE) :
    Inv { s with dg := Function.update s.dg s.iput d, cntread := cntread } count := by
  have hfree := iput_free h hlt
  obtain ⟨hnqueue,hroom,higet,hiput,hechoed,hmasked,hknows,halone,hnread⟩ := h
  refine ⟨hnqueue,hroom,higet,hiput,?_,hmasked,hknows,halone,hnread⟩
  rw [CyclicBuffer.slice_update_of_ne hfree]
  exact hechoed

theorem return_inv (h : Inv s count) (hpc : s.pc ≠ .suspend false) :
    Inv { s with handler := none } count := by
  obtain ⟨hnqueue,hroom,higet,hiput,hechoed,hmasked,hknows,-,-⟩ := h
  refine ⟨hnqueue,hroom,higet,hiput,hechoed,hmasked,?_,absurd rfl,nofun⟩
  unfold Knows at hknows ⊢
  cases hs : s.pc
  case suspend woken =>
    cases woken with
    | false => exact absurd hs hpc
    | true => trivial
  all_goals
    simp only [hs] at hknows ⊢
    try exact hknows

theorem wake_ne (pc : EchoPc) : pc.wake ≠ .suspend false := by
  cases pc <;> simp [EchoPc.wake]

/-- What a step can do. -/
inductive Moves (s : DgEcho) : DgEchoAct → DgEcho → Prop where
  | main {t : DgEcho} (alone : s.handler = none) (step : s.dgEchoStep = some t) : Moves s .main t
  | exits {a : DgEchoAct} (other : a ≠ .main) : Moves s a { s with pc := .exited }
  | delivered (unblocked : s.blocked = false) : Moves s .sigio { s with handler := some 0 }
  | stored {n : Nat} {d : DG} {data addr : List Byte} (handler : s.handler = some n)
      (room : s.nqueue < QSIZE) (datagram : d.datagram = (data.take MAXDG,addr)) :
      Moves s (.recvfrom (.datagram data addr)) { s with
        dg := Function.update s.dg s.iput d
        nqueue := s.nqueue + 1
        iput := CyclicBuffer.next QSIZE s.iput
        handler := some (n + 1)
        received := s.received ++ [(data.take MAXDG,addr)] }
  | returned {d : DG} {cntread : Nat → Nat} (room : s.nqueue < QSIZE) :
      Moves s (.recvfrom (.fail .ewouldblock)) { s with
        pc := s.pc.wake
        dg := Function.update s.dg s.iput d
        cntread := cntread
        handler := none }
  | hup : Moves s .sighup { s with pc := s.pc.wake }

theorem sigIo_moves {n : Nat} {r : Recvfrom} (hn : s.handler = some n)
    (ht : s.sigIo clilen n r = some t) : s.Moves (.recvfrom r) t := by
  unfold sigIo at ht
  split at ht
  · cases ht
    exact .exits DgEchoAct.noConfusion
  · rename_i hge
    simp only at ht
    split at ht
    · split at ht
      · cases ht
      · cases ht
        exact .stored hn (Int.not_le.mp hge) (DG.datagram_fill _ _ _)
    · cases ht
      exact .returned (Int.not_le.mp hge)
    · cases ht
      exact .exits DgEchoAct.noConfusion

theorem step_moves {a : DgEchoAct} (ht : s.step clilen a = some t) : s.Moves a t := by
  cases a with
  | main =>
    obtain ⟨halone,ht⟩ := Option.ite_none_right_eq_some.mp ht
    exact .main halone ht
  | sendtoFails =>
    obtain ⟨-,ht⟩ := Option.ite_none_right_eq_some.mp ht
    cases ht
    exact .exits DgEchoAct.noConfusion
  | sigio =>
    obtain ⟨hfree,ht⟩ := Option.ite_none_left_eq_some.mp ht
    cases ht
    exact .delivered (by simpa using fun hb => hfree (.inr (.inl hb)))
  | recvfrom r =>
    obtain ⟨-,ht⟩ := Option.ite_none_left_eq_some.mp ht
    obtain ⟨n,hn,ht⟩ := Option.bind_eq_some_iff.mp ht
    exact sigIo_moves hn ht
  | sighup =>
    obtain ⟨-,ht⟩ := Option.ite_none_left_eq_some.mp ht
    cases ht
    exact .hup

/-- SIGIO is delivered where it is not blocked. -/
theorem deliver_inv (h : Inv s count) (hopen : s.blocked = false) :
    Inv { s with handler := some 0 } count := by
  obtain ⟨hnqueue,hroom,higet,hiput,hechoed,hmasked,hknows,-,-⟩ := h
  refine ⟨hnqueue,hroom,higet,hiput,hechoed,hmasked,
    knows_open hmasked hopen (fun hs => by cases hs.2) fun hpc => ?_,fun _ => hopen,?_⟩
  · simpa only [Knows,show s.pc = .sendto from hpc] using hknows
  · intro n hn
    cases hn
    simp only
    omega

theorem step_inv {a : DgEchoAct} (h : Inv s count) (ht : s.step clilen a = some t) :
    t.pc = .exited ∨ ∃ count', Inv t count' := by
  cases step_moves ht with
  | main alone step => exact .inr (main_inv h alone step)
  | exits other => exact .inl rfl
  | delivered unblocked => exact .inr ⟨count,deliver_inv h unblocked⟩
  | stored handler room datagram => exact .inr ⟨_,fill_inv h handler room datagram⟩
  | returned room => exact .inr ⟨count,return_inv (wake_inv (touch_inv h room)) (wake_ne s.pc)⟩
  | hup => exact .inr ⟨count,wake_inv h⟩

theorem exited_stays {a : DgEchoAct} (h : s.pc = .exited) : s.step clilen a = none := by
  cases a <;> simp [step,dgEchoStep,h]

theorem reachable_inv {mask : Bool} {malloced : Nat → DG}
    (h : (dgEcho01 clilen mask malloced).Reachable s) : s.pc = .exited ∨ ∃ count, Inv s count := by
  refine h.invariant (I := fun s => s.pc = .exited ∨ ∃ count, Inv s count)
    (.inr ⟨0,init_inv mask malloced⟩) fun s a t hs ht => ?_
  rcases hs with hexit | ⟨count,hs⟩
  · exact absurd ht (by simp [dgEcho01,exited_stays hexit])
  · exact step_inv hs ht

/-- The main loop only adds to what is echoed. -/
theorem main_echoed (ht : s.dgEchoStep = some t) :
    t.dg = s.dg ∧ t.received = s.received ∧ s.echoed.length ≤ t.echoed.length := by
  cases hpc : s.pc
  all_goals simp only [dgEchoStep,hpc] at ht
  case suspend =>
    split at ht <;> cases ht
    exact ⟨rfl,rfl,Nat.le_refl _⟩
  case exited => cases ht
  all_goals
    cases ht
    exact ⟨rfl,rfl,by simp⟩

/-- Only a handler that finds room in the queue writes to a slot, the one at `iput`. -/
theorem dg_step {a : DgEchoAct} (ht : s.step clilen a = some t) :
    t.dg = s.dg ∨ s.nqueue < QSIZE ∧ ∃ d, t.dg = Function.update s.dg s.iput d := by
  cases step_moves ht with
  | main alone step => exact .inl (main_echoed step).1
  | exits other => exact .inl rfl
  | delivered unblocked => exact .inl rfl
  | stored handler room datagram => exact .inr ⟨room,_,rfl⟩
  | returned room => exact .inr ⟨room,_,rfl⟩
  | hup => exact .inl rfl

/-- While there is room, the slot that is sent is not the one that is filled next. -/
theorem sending_ne (h : Inv s count) (hlt : s.nqueue < QSIZE) {i : Nat}
    (hi : s.sending = some i) : i ≠ s.iput := by
  obtain ⟨hnqueue,hroom,higet,hiput,-,-,hknows,-,-⟩ := h
  unfold sending at hi
  unfold Knows at hknows
  unfold InRange at higet
  cases hpc : s.pc
  all_goals
    simp only [hpc,EchoPc.sent,EchoPc.lag,QSIZE,Option.some.injEq,reduceCtorEq] at *
    try omega

/-- How many steps the main loop is from having echoed `m` datagrams, at most. -/
def todo (m : Nat) (s : DgEcho) : Nat :=
  if s.echoed.length < m then 8 * (m - s.echoed.length - 1) + s.pc.rank else 0

theorem main_rank (h : Inv s count) (hcount : 0 < count) (ht : s.dgEchoStep = some t) :
    t.echoed = s.echoed ∧ t.pc.rank < s.pc.rank ∨
      t.echoed.length = s.echoed.length + 1 ∧ t.pc.rank = 8 := by
  obtain ⟨hnqueue,-,-,-,-,-,hknows,-,-⟩ := h
  unfold Knows at hknows
  cases hpc : s.pc
  all_goals simp only [dgEchoStep,hpc] at ht hknows
  case test =>
    have hne : s.nqueue ≠ 0 := by omega
    cases ht
    exact .inl ⟨rfl,by simp [hne,EchoPc.rank]⟩
  case call => omega
  case suspend =>
    split at ht <;> cases ht
    exact .inl ⟨rfl,by simp [EchoPc.rank]⟩
  case sendto =>
    cases ht
    exact .inr ⟨by simp,rfl⟩
  case exited => cases ht
  all_goals
    cases ht
    exact .inl ⟨rfl,by simp [EchoPc.rank]⟩

theorem wake_rank (pc : EchoPc) : pc.wake.rank = pc.rank := by
  cases pc <;> rfl

/-- The handlers only add to what is received. -/
theorem handler_step {a : DgEchoAct} (ha : a ≠ .main) (ht : s.step clilen a = some t) :
    t.pc = .exited ∨ s.received <+: t.received ∧ t.echoed = s.echoed ∧
      t.pc.rank = s.pc.rank := by
  cases step_moves ht with
  | main alone step => exact absurd rfl ha
  | exits other => exact .inl rfl
  | delivered unblocked => exact .inr ⟨List.prefix_rfl,rfl,rfl⟩
  | stored handler room datagram => exact .inr ⟨List.prefix_append _ _,rfl,rfl⟩
  | returned room => exact .inr ⟨List.prefix_rfl,rfl,wake_rank s.pc⟩
  | hup => exact .inr ⟨List.prefix_rfl,rfl,wake_rank s.pc⟩

theorem received_length (h : Inv s count) : s.received.length = s.echoed.length + count := by
  rw [← h.echoed]
  simp

/-- Each step of the main loop brings the `m`-th datagram nearer to its echo. -/
theorem todo_step {a : DgEchoAct} {m : Nat} (h : Inv s count) (hm : m ≤ s.received.length)
    (ht : s.step clilen a = some t) (hexit : t.pc ≠ .exited) :
    s.received <+: t.received ∧ t.todo m ≤ s.todo m - [a].count .main := by
  by_cases ha : a = .main
  · subst ha
    obtain ⟨-,ht⟩ := Option.ite_none_right_eq_some.mp ht
    obtain ⟨-,hreceived,hechoed⟩ := main_echoed ht
    refine ⟨hreceived ▸ List.prefix_rfl,?_⟩
    have hlength := received_length h
    simp only [todo,List.count_singleton_self]
    by_cases hcount : 0 < count
    · rcases main_rank h hcount ht with ⟨hsame,hrank⟩ | ⟨hnext,hrank⟩
      · rw [hsame]
        split <;> omega
      · have hpos := s.pc.rank_pos
        split <;> split <;> omega
    · rw [if_neg (by omega)]
      exact Nat.zero_le _
  · obtain ⟨hreceived,hechoed,hrank⟩ := (handler_step ha ht).resolve_left hexit
    refine ⟨hreceived,?_⟩
    simp [todo,hechoed,hrank,ha]

theorem todo_run {as : List DgEchoAct} {mask : Bool} {malloced : Nat → DG} {m : Nat}
    (hs : (dgEcho01 clilen mask malloced).Reachable s) (hm : m ≤ s.received.length)
    (ht : (dgEcho01 clilen mask malloced).run s as = some t) (hexit : t.pc ≠ .exited) :
    s.received <+: t.received ∧ t.todo m ≤ s.todo m - as.count .main := by
  induction as generalizing s with
  | nil =>
    cases ht
    exact ⟨List.prefix_rfl,Nat.le_refl _⟩
  | cons a as ih =>
    obtain ⟨u,hu,hrest⟩ := Option.bind_eq_some_iff.mp ht
    have hgoes : ∀ q a, (dgEcho01 clilen mask malloced).step q a ≠ none → q.pc ≠ .exited :=
      fun q a hq hpc => hq (exited_stays hpc)
    have hunext : u.pc ≠ .exited := by
      cases as with
      | nil =>
        cases hrest
        exact hexit
      | cons b bs =>
        obtain ⟨v,hv,-⟩ := Option.bind_eq_some_iff.mp hrest
        exact hgoes u b (by simp [hv])
    obtain ⟨count,hinv⟩ := (reachable_inv hs).resolve_left (hgoes s a (by simp [hu]))
    obtain ⟨hreceived,hstep⟩ := todo_step hinv hm hu hunext
    obtain ⟨htail,hlast⟩ := ih (hs.step hu) (Nat.le_trans hm hreceived.length_le) hrest
    refine ⟨hreceived.trans htail,Nat.le_trans hlast ?_⟩
    simp only [List.count_cons,List.count_nil] at hstep ⊢
    omega

theorem todo_le (m : Nat) (s : DgEcho) : s.todo m ≤ 8 * (m - s.echoed.length) := by
  have hrank : s.pc.rank ≤ 8 := by cases s.pc <;> simp [EchoPc.rank]
  unfold todo
  split <;> omega

/-- The queue of datagrams while the process has not quit. -/
structure Sound (clilen : Nat) (s : DgEcho) : Prop where
  nqueue : 0 ≤ s.nqueue ∧ s.nqueue ≤ QSIZE
  iput : (s.iput : Int) = (s.iget + s.nqueue - s.pc.advanced) % QSIZE
  inside : s.iput < QSIZE ∧ (∀ i, s.sending = some i → i < QSIZE) ∧
    ∀ n, s.handler = some n → n ≤ QSIZE
  kept : ∀ a t i, s.step clilen a = some t → s.sending = some i → t.dg i = s.dg i
  echoed : s.echoed ++ s.waiting = s.received
  awake : s.Asleep → ¬ 0 < s.nqueue

/-- The distance from `iget` to `iput`, also where `iget` is ahead of `nqueue`. -/
theorem Inv.iput_eq (h : Inv s count) :
    (s.iput : Int) = (s.iget + s.nqueue - s.pc.advanced) % QSIZE := by
  obtain ⟨hnqueue,-,-,hiput,-,-,-,-,-⟩ := h
  rw [hnqueue,hiput]
  cases s.pc
  all_goals
    simp only [EchoPc.sent,EchoPc.lag,EchoPc.advanced,QSIZE]
    omega

theorem Inv.sending_lt (h : Inv s count) {i : Nat} (hi : s.sending = some i) : i < QSIZE := by
  have higet := h.iget
  unfold InRange at higet
  unfold sending at hi
  cases hpc : s.pc
  all_goals
    simp only [hpc,Option.some.injEq,reduceCtorEq] at hi higet
    try omega
  all_goals
    rw [← hi]
    exact Nat.mod_lt _ (by decide)

theorem Inv.sound (h : Inv s count) : s.Sound clilen := by
  have hnqueue := h.nqueue
  have hroom := h.room
  have hsent : (s.nqueue - s.pc.sent).toNat = count := by omega
  have hput : s.iput < QSIZE := h.iput ▸ Nat.mod_lt _ (by decide)
  refine ⟨by omega,h.iput_eq,⟨hput,fun i hi => h.sending_lt hi,fun n hn => ?_⟩,?_,?_,?_⟩
  · have := h.nread n hn
    omega
  · intro a t i ht hi
    rcases dg_step ht with hsame | ⟨hlt,d,hd⟩
    · rw [hsame]
    · rw [hd]
      exact Function.update_of_ne (sending_ne h hlt hi) _ _
  · rw [waiting,hsent]
    exact h.echoed
  · intro ⟨hpc,hnone⟩
    have hknows := h.knows
    simp only [Knows,hpc] at hknows
    have := hknows hnone
    omega

end DgEcho

/-- Whatever the handler meets, the queue is sound, and once the main loop has taken eight steps
for each datagram received and not yet echoed, all of them are echoed. -/
theorem dgEcho01_sound (clilen : Nat) (mask : Bool) (malloced : Nat → DG) (s : DgEcho)
    (h : (dgEcho01 clilen mask malloced).Reachable s) (hrun : s.pc ≠ .exited) :
    s.Sound clilen ∧ ∀ as t, (dgEcho01 clilen mask malloced).run s as = some t → t.pc ≠ .exited →
      8 * (s.received.length - s.echoed.length) ≤ as.count .main → s.received <+: t.echoed := by
  obtain ⟨count,hinv⟩ := (DgEcho.reachable_inv h).resolve_left hrun
  refine ⟨hinv.sound,fun as t ht hexit hcount => ?_⟩
  obtain ⟨hreceived,htodo⟩ := DgEcho.todo_run h (Nat.le_refl _) ht hexit
  obtain ⟨count',hinv'⟩ := (DgEcho.reachable_inv (h.run ht)).resolve_left hexit
  have hechoed : t.echoed <+: t.received := ⟨_,hinv'.echoed⟩
  refine List.prefix_of_prefix_length_le hreceived hechoed ?_
  have hle := DgEcho.todo_le s.received.length s
  have hzero : t.todo s.received.length = 0 := by omega
  unfold DgEcho.todo at hzero
  split at hzero
  · have hpos := t.pc.rank_pos
    omega
  · omega

/-- A third datagram arrives between the advance of `iget` and the decrement of `nqueue`. -/
theorem dgEcho01_sound_window :
    let acts := [.main,.main,.main,.sigio,.recvfrom (.datagram [1] [7]),
      .recvfrom (.datagram [2] [8]),.recvfrom (.fail .ewouldblock),.main,.main,.main,.main,.main,
      .sigio,.recvfrom (.datagram [3] [9]),.recvfrom (.fail .ewouldblock)]
    let m := dgEcho01 16 false fun _ => ⟨[],0,[],0⟩
    ∃ s, m.run m.init acts = some s ∧ s.pc = .wrap ∧ (s.iget,s.nqueue,s.iput) = (1,3,3) ∧
      s.echoed = [([1],[7])] ∧ s.waiting = [([2],[8]),([3],[9])] ∧ s.Sound 16 := by
  intro acts m
  exact ⟨_,rfl,rfl,rfl,rfl,rfl,(dgEcho01_sound 16 false _ _ ⟨acts,rfl⟩ (by decide)).1⟩

end UnixNet
