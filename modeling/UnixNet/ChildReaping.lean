import UnixNet.Descriptor
import UnixNet.Library.Machine
set_option autoImplicit false

/-! The SIGCHLD handler `sig_chld_wait_pid` under the two servers that install it. -/

namespace UnixNet

inductive Child where
  | running | terminated | waited
  deriving DecidableEq, Repr

/-- The handler, statement by statement; `idle` when it is not running. -/
inductive HandlerPc where
  | idle | waitpid | printf | ret
  deriving DecidableEq, Repr

/-- How a call of the main program ends. `select` reports the TCP and the UDP socket. -/
inductive MainAct where
  | ok : MainAct
  | fail (e : Errno) : MainAct
  | ready (tcp udp : Bool) : MainAct
  deriving DecidableEq, Repr

/-- A server's main program: from its place, `errno` and the end of its current call
to the next place, the new `errno` and whether a child was forked. -/
structure MainLoop where
  Pc : Type
  start : Pc
  step : Pc → Errno → MainAct → Option (Pc × Errno × Bool)

inductive TcpServ04Pc where
  | accept | testErrno | fork | close | exited
  deriving DecidableEq, Repr

/-- The loop of `tcp_serv04`; SIGCHLD was set up before it. -/
def tcpServ04 : MainLoop where
  Pc := TcpServ04Pc
  start := .accept
  step
    | .accept, errno, .ok => some (.fork,errno,false)
    | .accept, _, .fail e => some (.testErrno,e,false)
    | .testErrno, errno, .ok =>
      if errno = .eintr then some (.accept,errno,false) else some (.exited,errno,false)
    | .fork, errno, .ok => some (.close,errno,true)
    | .fork, _, .fail e => some (.exited,e,false)
    | .close, errno, .ok => some (.accept,errno,false)
    | .close, _, .fail e => some (.exited,e,false)
    | _, _, _ => none

/-- `udp` tells whether the pass of the loop still has to serve the UDP socket. -/
inductive UdpServSelect01Pc where
  | select | testErrno | accept (udp : Bool) | acceptErrno (udp : Bool)
  | fork (udp : Bool) | close (udp : Bool) | recvfrom | sendto | exited
  deriving DecidableEq, Repr

def udpNext (udp : Bool) : UdpServSelect01Pc := if udp then .recvfrom else .select

/-- The loop of `udp_serv_select01`; the errno test inside `Accept` is `acceptErrno`. -/
def udpServSelect01 : MainLoop where
  Pc := UdpServSelect01Pc
  start := .select
  step
    | .select, errno, .ready tcp udp =>
      some (if tcp then .accept udp else udpNext udp,errno,false)
    | .select, _, .fail e => some (.testErrno,e,false)
    | .testErrno, errno, .ok =>
      if errno = .eintr then some (.select,errno,false) else some (.exited,errno,false)
    | .accept udp, errno, .ok => some (.fork udp,errno,false)
    | .accept udp, _, .fail e => some (.acceptErrno udp,e,false)
    | .acceptErrno udp, errno, .ok =>
      if errno = .eproto ∨ errno = .econnaborted then some (.accept udp,errno,false)
      else some (.exited,errno,false)
    | .fork udp, errno, .ok => some (.close udp,errno,true)
    | .close udp, errno, .ok => some (udpNext udp,errno,false)
    | .recvfrom, errno, .ok => some (.sendto,errno,false)
    | .sendto, errno, .ok => some (.select,errno,false)
    | .fork _, _, .fail e | .close _, _, .fail e | .recvfrom, _, .fail e | .sendto, _, .fail e =>
      some (.exited,e,false)
    | _, _, _ => none

/-- The server process: its children in fork order, SIGCHLD as one pending flag. -/
structure Process (m : MainLoop) where
  main : m.Pc
  errno : Errno
  children : List Child
  pending : Bool
  handler : HandlerPc

inductive ProcAct where
  | main (a : MainAct) : ProcAct
  | terminate (i : Nat) : ProcAct
  | deliver : ProcAct
  | handler (i : Nat) : ProcAct
  deriving DecidableEq, Repr

variable {m : MainLoop}

/-- `sig_chld_wait_pid`. `waitpid(-1, &stat, WNOHANG)` waits for some terminated child,
here the child `i`; without one it returns 0, or fails when no child is left at all. -/
def Process.sigChldWaitPid (p : Process m) (i : Nat) : Option (Process m) :=
  match p.handler with
  | .idle => none
  | .waitpid =>
    if p.children[i]? = some .terminated then
      some { p with children := p.children.set i .waited, handler := .printf }
    else if .terminated ∈ p.children then none
    else if .running ∈ p.children then some { p with handler := .ret }
    else some { p with handler := .ret, errno := .echild }
  | .printf => some { p with handler := .waitpid }
  | .ret => some { p with handler := .idle }

def Process.step (p : Process m) : ProcAct → Option (Process m)
  | .main a =>
    if p.handler = .idle then
      (m.step p.main p.errno a).map fun (main,errno,forked) =>
        { p with main, errno, children := if forked then p.children ++ [.running] else p.children }
    else none
  | .terminate i =>
    if p.children[i]? = some .running then
      some { p with children := p.children.set i .terminated, pending := true }
    else none
  | .deliver =>
    -- SIGCHLD stays blocked while its handler runs
    if p.pending ∧ p.handler = .idle then some { p with pending := false, handler := .waitpid }
    else none
  | .handler i => p.sigChldWaitPid i

def process (m : MainLoop) : Machine (Process m) ProcAct :=
  ⟨⟨m.start,.other 0,[],false,.idle⟩,Process.step⟩

/-- Nobody is left behind once SIGCHLD is neither pending nor being handled. -/
def Process.NoZombie (p : Process m) : Prop :=
  p.pending = false → p.handler = .idle → .terminated ∉ p.children

/-- A terminated child is announced by the flag, or the handler is not yet past the
`waitpid` that ends its loop. -/
def Process.Announced (p : Process m) : Prop :=
  .terminated ∈ p.children → p.pending = true ∨ p.handler = .waitpid ∨ p.handler = .printf

theorem announced_handler {p q : Process m} {i : Nat} (hp : p.Announced)
    (h : p.sigChldWaitPid i = some q) : q.Announced := by
  unfold Process.sigChldWaitPid at h
  split at h
  · cases h
  · split at h
    · cases h
      exact fun _ => .inr (.inr rfl)
    · rename_i hw hi
      split at h
      · cases h
      · rename_i hnone
        split at h <;> cases h <;> exact fun hz => absurd hz hnone
  · cases h
    exact fun _ => .inr (.inl rfl)
  · rename_i hret
    cases h
    intro hz
    have hpend := hp hz
    simpa [hret] using hpend

theorem announced_step (p : Process m) (a : ProcAct) (q : Process m) (hp : p.Announced)
    (h : p.step a = some q) : q.Announced := by
  cases a with
  | main a =>
    simp only [Process.step] at h
    split at h
    · obtain ⟨⟨main,errno,forked⟩,_,rfl⟩ := Option.map_eq_some_iff.mp h
      intro hz
      cases forked with
      | false => exact hp hz
      | true => exact hp (by simpa using hz)
    · cases h
  | terminate i =>
    simp only [Process.step] at h
    split at h <;> cases h
    exact fun _ => .inl rfl
  | deliver =>
    simp only [Process.step] at h
    split at h <;> cases h
    exact fun _ => .inr (.inl rfl)
  | handler i => exact announced_handler hp h

theorem process_announced {p : Process m} (h : (process m).Reachable p) : p.Announced :=
  h.invariant (by simp [process,Process.Announced]) announced_step

theorem no_zombie {p : Process m} (h : (process m).Reachable p) : p.NoZombie := by
  intro hpend hidle hz
  rcases process_announced h hz with h | h | h
  · rw [hpend] at h
    cases h
  · rw [hidle] at h
    cases h
  · rw [hidle] at h
    cases h

/-- Both servers that install the handler reap all their children. -/
theorem servers_leave_no_zombie :
    (∀ p, (process tcpServ04).Reachable p → p.NoZombie) ∧
      ∀ p, (process udpServSelect01).Reachable p → p.NoZombie :=
  ⟨fun _ h => no_zombie h,fun _ h => no_zombie h⟩

/-- Two children end before the first delivery, which finds both. -/
theorem servers_leave_no_zombie_two :
    let fork := [.main .ok,.main .ok,.main .ok]
    let acts := fork ++ fork ++ [.terminate 1,.terminate 0,.deliver,.handler 0,.handler 0,
      .handler 1,.handler 0,.handler 0,.handler 0]
    ∃ p, (process tcpServ04).run (process tcpServ04).init acts = some p ∧
      p.children = [.waited,.waited] ∧ p.NoZombie := by
  intro fork acts
  exact ⟨_,rfl,rfl,servers_leave_no_zombie.1 _ ⟨acts,rfl⟩⟩

end UnixNet
