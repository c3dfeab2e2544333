import Mathlib.Data.Finset.Card
import UnixNet.EventLoop
import UnixNet.Library.Machine
import UnixNet.Library.Slots
import UnixNet.Library.Worklist
import UnixNet.PacketFields
set_option autoImplicit false

/-! icmpd: the loop, its clients, and the ICMP messages that it passes on to them. -/

namespace UnixNet

def AF_INET : Int := 2
def AF_INET6 : Int := 10

inductive IcmpErrno where
  | ehostunreach | econnrefused | emsgsize
  deriving DecidableEq, Repr

/-- `struct icmpd_err`, with the fields of `icmpd_dest` that are set. -/
structure IcmpdErr where
  errno : IcmpErrno
  type : Byte
  code : Byte
  len : Nat
  family : Int
  addr : List Byte
  port : List Byte
  deriving DecidableEq, Repr

/-- What `Recvfrom` stores in `buf`, of which `n` bytes are the packet. -/
structure IcmpPacket where
  buf : Nat → Byte
  n : Int

/-- What a packet is: too short, of no interest, or about a UDP datagram from `sport`. -/
inductive IcmpMessage where
  | quit (text : String) : IcmpMessage
  | ignore : IcmpMessage
  | report (family sport : Int) (err : IcmpdErr) : IcmpMessage
  deriving DecidableEq, Repr

namespace IcmpPacket

def bytes (p : IcmpPacket) (i k : Nat) : List Byte := (List.range k).map fun j => p.buf (i + j)

/-- A `uint16_t` of a header as the machine reads it. -/
def port (p : IcmpPacket) (i : Nat) : Int := ByteOrder.value (p.bytes i 2)

/-- `ip_hl << 2` of the header at `i`. -/
def hlen (p : IcmpPacket) (i : Nat) : Nat := (p.buf i).toNat % 16 * 4

def errno4 (type code : Byte) : IcmpErrno :=
  if type = ICMP_UNREACH then
    if code = ICMP_UNREACH_PORT then .econnrefused
    else if code = ICMP_UNREACH_NEEDFRAG then .emsgsize
    else .ehostunreach
  else .ehostunreach

/-- `readable_v4` up to its loop over the clients. The UDP header may lie behind the packet. -/
def parse4 (p : IcmpPacket) : IcmpMessage :=
  let icmp := p.hlen 0
  let icmplen := p.n - icmp
  if icmplen < 8 then .quit "icmplen (%d) < 8"
  else
    let type := p.buf icmp
    let code := p.buf (icmp + 1)
    if type = ICMP_UNREACH ∨ type = ICMP_TIMXCEED ∨ type = ICMP_SOURCEQUENCH then
      if icmplen < 8 + 20 + 8 then .quit "icmplen (%d) < 8 + 20 + 8"
      else
        let hip := icmp + 8
        if p.buf (hip + 9) = IPPROTO_UDP then
          let udp := hip + p.hlen hip
          .report AF_INET (p.port udp)
            ⟨errno4 type code,type,code,16,AF_INET,p.bytes (hip + 16) 4,p.bytes (udp + 2) 2⟩
        else .ignore
    else .ignore

def errno6 (type code : Byte) : IcmpErrno :=
  if type = ICMP6_PACKET_TOO_BIG then .emsgsize
  else if type = ICMP6_DST_UNREACH ∧ code = ICMP6_DST_UNREACH_NOPORT then .econnrefused
  else .ehostunreach

/-- `readable_v6` up to its loop over the clients. -/
def parse6 (p : IcmpPacket) : IcmpMessage :=
  if p.n < 8 then .quit "icmp6len (%d) < 8"
  else
    let type := p.buf 0
    let code := p.buf 1
    if type = ICMP6_DST_UNREACH ∨ type = ICMP6_PACKET_TOO_BIG ∨ type = ICMP6_TIME_EXCEEDED then
      if p.n < 8 + 8 then .quit "icmp6len (%d) < 8 + 8"
      else
        let hip6 := 8
        if p.buf (hip6 + 6) = IPPROTO_UDP then
          let udp := hip6 + 40
          .report AF_INET6 (p.port udp)
            ⟨errno6 type code,type,code,28,AF_INET6,p.bytes (hip6 + 24) 16,p.bytes (udp + 2) 2⟩
        else .ignore
    else .ignore

end IcmpPacket

/-- A descriptor passed by a client: whether it is a UDP socket, what `getsockname` gives (the
family and the port), and the port after a `bind` to an ephemeral one. -/
structure PassedFd where
  fd : Int
  udp : Bool
  name : Option (Int × Nat)
  bound : Option Nat
  deriving DecidableEq, Repr

def sockGetPort (family : Int) (port : Nat) : Int :=
  if family = AF_INET ∨ family = AF_INET6 then port else -1

def sockBindWild (family : Int) (bound : Option Nat) : Int :=
  if family = AF_INET ∨ family = AF_INET6 then bound.elim (-1) Nat.cast else -1

/-- How `Read_fd` ends: with an error of `recvmsg` or in the control data, with 0, or with a
byte and perhaps a descriptor. -/
inductive ConnMessage where
  | fail : ConnMessage
  | badControl (text : String) : ConnMessage
  | closed : ConnMessage
  | byte (passed : Option PassedFd) : ConnMessage
  deriving DecidableEq, Repr

/-- A passed descriptor gets a number that is not in use. -/
def ConnMessage.Fresh (fds : Finset Int) : ConnMessage → Prop
  | .byte (some p) => 0 ≤ p.fd ∧ p.fd ∉ fds
  | _ => True

instance ConnMessage.decidableFresh (fds : Finset Int) (msg : ConnMessage) :
    Decidable (msg.Fresh fds) := by
  unfold ConnMessage.Fresh
  split <;> infer_instance

/-- The members of `client[i]`. -/
structure IcmpClient where
  connfd : Int
  family : Int
  lport : Int
  deriving DecidableEq, Repr

/-- What a client is told to have registered. -/
structure Registration where
  family : Int
  lport : Int
  udp : Bool
  deriving DecidableEq, Repr

/-- `registered` and `refused` are the answers "1" and "0" of `readable_conn`. -/
inductive IcmpEvent where
  | accept (connfd : Int) : IcmpEvent
  | close (fd : Int) : IcmpEvent
  | registered (unixfd : Int) (r : Registration) : IcmpEvent
  | refused (unixfd : Int) : IcmpEvent
  | record (connfd family sport : Int) (err : IcmpdErr) : IcmpEvent
  deriving DecidableEq, Repr

/-- Before `Select`, before the tests of the three sockets, before pass `i` of the loop. -/
inductive IcmpPc where
  | select : IcmpPc
  | listen : IcmpPc
  | v4 : IcmpPc
  | v6 : IcmpPc
  | clients (i : Nat) : IcmpPc
  | exited (why : Exit) : IcmpPc
  deriving DecidableEq, Repr

/-- The three sockets of the daemon itself. -/
structure IcmpFds where
  fd4 : Int
  fd6 : Int
  listenfd : Int
  distinct : fd4 ≠ fd6 ∧ fd4 ≠ listenfd ∧ fd6 ≠ listenfd
  small : ∀ fd ∈ [fd4,fd6,listenfd], 0 ≤ fd ∧ fd < FD_SETSIZE

def IcmpFds.own (k : IcmpFds) : Finset Int := {k.fd4,k.fd6,k.listenfd}

/-- `fds` are the open descriptors; `handled` are those that were handled since `Select`. -/
structure Icmpd where
  pc : IcmpPc
  client : Nat → IcmpClient
  maxi : Int
  maxfd : Int
  rset : Finset Int
  allset : Finset Int
  nready : Int
  fds : Finset Int
  handled : List Int
  log : List IcmpEvent

/-- `Select` returns; a test finds its descriptor not ready; `readable_listen` with the result
of `Accept`; `readable_v4` and `readable_v6` with that of `Recvfrom`, where `taken` writes do
not fail; `readable_conn`, where the answer can be written if `wrote`. -/
inductive IcmpAct where
  | select (ready : Finset Int) : IcmpAct
  | next : IcmpAct
  | listen (connfd : Option Int) : IcmpAct
  | recv (packet : Option IcmpPacket) (taken : Nat) : IcmpAct
  | conn (msg : ConnMessage) (wrote : Bool) : IcmpAct

namespace Icmpd

/-- `return(--nready);` to a test `<= 0` that leaves for the next `Select`. -/
def ret (s : Icmpd) (pc : IcmpPc) : Icmpd :=
  { s with nready := s.nready - 1, pc := if s.nready - 1 ≤ 0 then .select else pc }

def exit (s : Icmpd) (why : Exit) : Icmpd := { s with pc := .exited why }

def did (s : Icmpd) (es : List IcmpEvent) : Icmpd := { s with log := s.log ++ es }

def setClient (s : Icmpd) (i : Nat) (c : IcmpClient) : Icmpd :=
  { s with client := Function.update s.client i c }

/-- `client[i].connfd = connfd`, with the other members as they are. -/
def setConnfd (s : Icmpd) (i : Nat) (connfd : Int) : Icmpd :=
  s.setClient i { s.client i with connfd := connfd }

/-- Slot `i` and the sets get the new client. -/
def enroll (s : Icmpd) (i : Nat) (connfd : Int) : Icmpd :=
  { (s.setConnfd i connfd).did [.accept connfd] with
    fds := insert connfd s.fds
    allset := insert connfd s.allset
    maxfd := max s.maxfd connfd
    maxi := max s.maxi i }

/-- `readable_listen` after `Accept`. `FD_SET` checks no bound. -/
def readableListen (s : Icmpd) (connfd : Int) : Icmpd :=
  let i := Slots.search (fun i => (s.client i).connfd < 0) 0 FD_SETSIZE
  if i = FD_SETSIZE then (s.did [.accept connfd,.close connfd]).ret .v4
  else if connfd < FD_SETSIZE then (s.enroll i connfd).ret .v4
  else (s.did [.accept connfd]).exit .undefined

/-- The test of the loops in `readable_v4` and `readable_v6`. -/
def wants (s : Icmpd) (family sport : Int) (i : Nat) : Bool :=
  0 ≤ (s.client i).connfd ∧ (s.client i).family = family ∧ (s.client i).lport = sport

/-- The clients that a message is written to. -/
def targets (s : Icmpd) (family sport : Int) : List Nat :=
  (List.range (s.maxi + 1).toNat).filter (s.wants family sport)

def forward (s : Icmpd) (m : IcmpMessage) (taken : Nat) (pc : IcmpPc) : Icmpd :=
  match m with
  | .quit text => s.exit (.errQuit text)
  | .ignore => s.ret pc
  | .report family sport err =>
    let targets := s.targets family sport
    let s := s.did <|
      (targets.take taken).map fun i => .record (s.client i).connfd family sport err
    if taken < targets.length then s.exit (.errSys "write error") else s.ret pc

/-- The label `clientdone`. -/
def clientdone (s : Icmpd) (i : Nat) (recvfd : Option Int) : Icmpd :=
  let unixfd := (s.client i).connfd
  { (s.setConnfd i (-1)).did (.close unixfd :: recvfd.toList.map .close) with
    fds := s.fds.erase unixfd
    allset := s.allset.erase unixfd }.ret (.clients (i + 1))

/-- The label `clienterr`. -/
def clienterr (s : Icmpd) (i : Nat) (recvfd : Option Int) (wrote : Bool) : Icmpd :=
  if wrote then (s.did [.refused (s.client i).connfd]).clientdone i recvfd
  else s.exit (.errSys "write error")

/-- From `client[i].family = ss.ss_family` on. -/
def register (s : Icmpd) (i : Nat) (p : PassedFd) (family : Int) (port : Nat) (wrote : Bool) :
    Icmpd :=
  let lport := sockGetPort family port
  let lport' := if lport = 0 then sockBindWild family p.bound else lport
  let unixfd := (s.client i).connfd
  let s := s.setClient i ⟨unixfd,family,lport'⟩
  if lport = 0 ∧ lport' ≤ 0 then s.clienterr i (some p.fd) wrote
  else if wrote then
    (s.did [.registered unixfd ⟨family,lport',p.udp⟩,.close p.fd]).ret (.clients (i + 1))
  else s.exit (.errSys "write error")

def readableConn (s : Icmpd) (i : Nat) (msg : ConnMessage) (wrote : Bool) : Icmpd :=
  match msg with
  | .fail => s.exit (.errSys "read_fd error")
  | .badControl text => s.exit (.errQuit text)
  | .closed => s.clientdone i none
  | .byte none => s.clienterr i none wrote
  | .byte (some p) =>
    match p.name with
    | none => s.clienterr i (some p.fd) wrote
    | some (family,port) => s.register i p family port wrote

/-- The descriptor is about to be handled. -/
def handle (s : Icmpd) (fd : Int) : Icmpd := { s with handled := s.handled ++ [fd] }

def selectStep (s : Icmpd) (ready : Finset Int) : Option Icmpd :=
  if s.pc = .select ∧ ready ⊆ s.allset ∧ (∀ fd ∈ ready, fd < s.maxfd + 1) then
    some { s with pc := .listen, rset := ready, nready := ready.card, handled := [] }
  else none

/-- What follows a test that fails. -/
def nextStep (k : IcmpFds) (s : Icmpd) : Option Icmpd :=
  match s.pc with
  | .listen => if k.listenfd ∈ s.rset then none else some { s with pc := .v4 }
  | .v4 => if k.fd4 ∈ s.rset then none else some { s with pc := .v6 }
  | .v6 => if k.fd6 ∈ s.rset then none else some { s with pc := .clients 0 }
  | .clients i =>
    if s.maxi < i then some { s with pc := .select }
    else if (s.client i).connfd < 0 ∨ (s.client i).connfd ∉ s.rset then
      some { s with pc := .clients (i + 1) }
    else none
  | _ => none

/-- `Accept` gives a descriptor that is not open. -/
def listenStep (k : IcmpFds) (s : Icmpd) (connfd : Option Int) : Option Icmpd :=
  if s.pc = .listen ∧ k.listenfd ∈ s.rset then
    match connfd with
    | none => some ((s.handle k.listenfd).exit (.errSys "accept error"))
    | some connfd =>
      if 0 ≤ connfd ∧ connfd ∉ s.fds then some ((s.handle k.listenfd).readableListen connfd)
      else none
  else none

/-- `readable_v4` and `readable_v6` alike. -/
def readable (s : Icmpd) (fd : Int) (parse : IcmpPacket → IcmpMessage)
    (packet : Option IcmpPacket) (taken : Nat) (pc : IcmpPc) : Icmpd :=
  match packet with
  | none => (s.handle fd).exit (.errSys "recvfrom error")
  | some p => (s.handle fd).forward (parse p) taken pc

def recvStep (k : IcmpFds) (s : Icmpd) (packet : Option IcmpPacket) (taken : Nat) :
    Option Icmpd :=
  match s.pc with
  | .v4 => if k.fd4 ∈ s.rset then some (s.readable k.fd4 IcmpPacket.parse4 packet taken .v6) else none
  | .v6 => if k.fd6 ∈ s.rset then some (s.readable k.fd6 IcmpPacket.parse6 packet taken (.clients 0))
    else none
  | _ => none

def connStep (s : Icmpd) (msg : ConnMessage) (wrote : Bool) : Option Icmpd :=
  match s.pc with
  | .clients i =>
    if i ≤ s.maxi ∧ 0 ≤ (s.client i).connfd ∧ (s.client i).connfd ∈ s.rset ∧
        msg.Fresh s.fds then
      some ((s.handle (s.client i).connfd).readableConn i msg wrote)
    else none
  | _ => none

def step (k : IcmpFds) (s : Icmpd) : IcmpAct → Option Icmpd
  | .select ready => s.selectStep ready
  | .next => s.nextStep k
  | .listen connfd => s.listenStep k connfd
  | .recv packet taken => s.recvStep k packet taken
  | .conn msg wrote => s.connStep msg wrote

end Icmpd

/-- The members of `client` that `main` does not set start as zeros. -/
def icmpd (k : IcmpFds) : Machine Icmpd IcmpAct :=
  ⟨⟨.select,fun _ => ⟨-1,0,0⟩,-1,max (max k.fd4 k.fd6) k.listenfd,∅,k.own,0,k.own,[],[]⟩,
    Icmpd.step k⟩

namespace Icmpd
variable {k : IcmpFds} {s t : Icmpd}

def connfds (s : Icmpd) (i : Nat) : Int := (s.client i).connfd

/-- Every client has one slot, and `allset` is what the process has open. -/
structure Table (k : IcmpFds) (s : Icmpd) : Prop where
  slots : Slots.Keeps (0 ≤ ·) s.connfds (s.maxi + 1).toNat (s.fds \ k.own)
  own : k.own ⊆ s.fds
  watched : s.allset = s.fds
  bound : ∀ fd ∈ s.fds, 0 ≤ fd ∧ fd < FD_SETSIZE ∧ fd ≤ s.maxfd
  maxi : -1 ≤ s.maxi ∧ s.maxi < FD_SETSIZE

/-- What has been handled, and what has not, when the loop is at `pc`. -/
def Place (k : IcmpFds) (s : Icmpd) : IcmpPc → Prop
  | .select | .exited _ => ∀ fd ∈ s.rset, fd ∈ s.handled
  | .listen => s.handled = []
  | .v4 => (∀ fd ∈ s.handled, fd = k.listenfd) ∧ (k.listenfd ∈ s.rset → k.listenfd ∈ s.handled)
  | .v6 => (∀ fd ∈ s.handled, fd = k.listenfd ∨ fd = k.fd4) ∧
      (k.listenfd ∈ s.rset → k.listenfd ∈ s.handled) ∧ (k.fd4 ∈ s.rset → k.fd4 ∈ s.handled)
  | .clients i => (∀ fd ∈ k.own, fd ∈ s.rset → fd ∈ s.handled) ∧
      (∀ j, i ≤ j → 0 ≤ s.connfds j → s.connfds j ∉ s.handled) ∧
      ∀ j < i, 0 ≤ s.connfds j → s.connfds j ∈ s.rset → s.connfds j ∈ s.handled

/-- The count of the descriptors that are still to be handled in this turn is right. -/
structure Turn (k : IcmpFds) (s : Icmpd) : Prop where
  counts : Worklist.Counts s.rset s.handled s.nready
  opened : ∀ fd ∈ s.rset, fd ∉ s.handled → fd ∈ s.fds
  place : s.Place k s.pc

structure Inv (k : IcmpFds) (s : Icmpd) : Prop where
  table : s.Table k
  turn : s.Turn k

def Gone (s : Icmpd) : Prop := ∃ why, s.pc = .exited why

theorem mem_own (k : IcmpFds) (fd : Int) :
    fd ∈ k.own ↔ fd = k.fd4 ∨ fd = k.fd6 ∨ fd = k.listenfd := by
  simp [IcmpFds.own]

theorem Table.connfd_mem (h : s.Table k) {i : Nat} (hi : 0 ≤ s.connfds i) :
    s.connfds i ∈ s.fds ∧ s.connfds i ∉ k.own := Finset.mem_sdiff.mp (h.slots.mem i hi).2

theorem listen_of_step {connfd : Option Int} (ht : s.listenStep k connfd = some t) :
    s.pc = .listen ∧ k.listenfd ∈ s.rset ∧
      (connfd = none ∧ Gone t ∧ t.log = s.log ∨ ∃ c, connfd = some c ∧ 0 ≤ c ∧ c ∉ s.fds ∧
        t = (s.handle k.listenfd).readableListen c) := by
  obtain ⟨⟨hpc,hr⟩,ht⟩ := Option.ite_none_right_eq_some.mp ht
  refine ⟨hpc,hr,?_⟩
  cases connfd with
  | none =>
    cases ht
    exact .inl ⟨rfl,⟨_,rfl⟩,rfl⟩
  | some c =>
    obtain ⟨⟨h0,hnew⟩,rfl⟩ := Option.ite_some_none_eq_some.mp ht
    exact .inr ⟨c,rfl,h0,hnew,rfl⟩

theorem recv_of_step {packet : Option IcmpPacket} {taken : Nat}
    (ht : s.recvStep k packet taken = some t) :
    s.pc = .v4 ∧ k.fd4 ∈ s.rset ∧
        t = s.readable k.fd4 IcmpPacket.parse4 packet taken .v6 ∨
      s.pc = .v6 ∧ k.fd6 ∈ s.rset ∧
        t = s.readable k.fd6 IcmpPacket.parse6 packet taken (.clients 0) := by
  simp only [recvStep] at ht
  split at ht
  · rename_i hpc
    obtain ⟨hr,rfl⟩ := Option.ite_some_none_eq_some.mp ht
    exact .inl ⟨hpc,hr,rfl⟩
  · rename_i hpc
    obtain ⟨hr,rfl⟩ := Option.ite_some_none_eq_some.mp ht
    exact .inr ⟨hpc,hr,rfl⟩
  · cases ht

theorem conn_of_step {msg : ConnMessage} {wrote : Bool} (ht : s.connStep msg wrote = some t) :
    ∃ i, s.pc = .clients i ∧ 0 ≤ s.connfds i ∧ s.connfds i ∈ s.rset ∧
      (s.handle (s.connfds i)).readableConn i msg wrote = t := by
  simp only [connStep] at ht
  split at ht
  · rename_i i hpc
    obtain ⟨⟨_,hi,hr,_⟩,ht⟩ := Option.ite_some_none_eq_some.mp ht
    exact ⟨i,hpc,hi,hr,ht⟩
  · cases ht

theorem init_inv (k : IcmpFds) : Inv k (icmpd k).init := by
  refine ⟨⟨?_,Finset.Subset.refl _,rfl,fun fd hfd => ?_,by simp [icmpd,FD_SETSIZE]⟩,
    ⟨Worklist.counts_nil ∅,nofun,nofun⟩⟩
  · have hnone : k.own \ k.own = ∅ := Finset.sdiff_self k.own
    simp only [icmpd,hnone]
    exact Slots.keeps_empty fun i => by simp [connfds]
  · have hmem := (mem_own k fd).mp hfd
    have hsmall := k.small fd (by simpa using hmem)
    refine ⟨hsmall.1,hsmall.2,?_⟩
    simp only [icmpd]
    omega

theorem select_inv {ready : Finset Int} (h : Inv k s) (ht : s.selectStep ready = some t) :
    Inv k t := by
  simp only [selectStep] at ht
  split at ht
  · rename_i hguard
    cases ht
    obtain ⟨hslots,hown,hwatched,hbound,hmaxi⟩ := h.table
    refine ⟨⟨hslots,hown,hwatched,hbound,hmaxi⟩,⟨Worklist.counts_nil ready,fun fd hfd _ => ?_,rfl⟩⟩
    exact hwatched ▸ hguard.2.1 hfd
  · cases ht

/-- The three sockets have been handled if they were reported, and no client yet. -/
theorem place_clients (h : s.Table k) (honly : ∀ fd ∈ s.handled, fd ∈ k.own)
    (hall : ∀ fd ∈ k.own, fd ∈ s.rset → fd ∈ s.handled) : s.Place k (.clients 0) :=
  ⟨hall,fun _ _ h0 hmem => (h.connfd_mem h0).2 (honly _ hmem),
    fun j hj => absurd hj (Nat.not_lt_zero j)⟩

/-- At the end of the loop over the clients all that was reported has been handled. -/
theorem all_handled (h : Inv k s) {i : Nat} (hpc : s.pc = .clients i) (hi : s.maxi < i) :
    ∀ fd ∈ s.rset, fd ∈ s.handled := by
  intro fd hfd
  by_contra hnew
  have hplace := h.turn.place
  rw [hpc] at hplace
  obtain ⟨hown,_,hbehind⟩ := hplace
  have hopen := h.turn.opened fd hfd hnew
  by_cases hmine : fd ∈ k.own
  · exact hnew (hown fd hmine hfd)
  · obtain ⟨h0,j,rfl⟩ := h.table.slots.slot fd (Finset.mem_sdiff.mpr ⟨hopen,hmine⟩)
    have hj := (h.table.slots.mem j h0).1
    exact hnew (hbehind j (by omega) h0 hfd)

theorem Table.of_eq (h : s.Table k) (heq : (t.connfds,t.maxi,t.maxfd,t.fds,t.allset) =
    (s.connfds,s.maxi,s.maxfd,s.fds,s.allset)) : t.Table k := by
  simp only [Prod.mk.injEq] at heq
  obtain ⟨hclient,hmaxi,hmaxfd,hfds,hallset⟩ := heq
  refine ⟨?_,?_,?_,?_,?_⟩
  · rw [hclient,hmaxi,hfds]
    exact h.slots
  · rw [hfds]
    exact h.own
  · rw [hallset,hfds]
    exact h.watched
  · rw [hfds,hmaxfd]
    exact h.bound
  · rw [hmaxi]
    exact h.maxi

theorem inv_pc (h : Inv k s) {pc : IcmpPc} (hplace : s.Place k pc) : Inv k { s with pc } :=
  ⟨h.table.of_eq rfl,⟨h.turn.counts,h.turn.opened,hplace⟩⟩

theorem next_inv (h : Inv k s) (ht : s.nextStep k = some t) : Inv k t := by
  have hplace := h.turn.place
  simp only [nextStep] at ht
  split at ht
  · rename_i hpc
    rw [hpc] at hplace
    have hnone : s.handled = [] := hplace
    split at ht <;> cases ht
    rename_i hno
    exact inv_pc h ⟨by simp [hnone],fun hyes => absurd hyes hno⟩
  · rename_i hpc
    rw [hpc] at hplace
    split at ht <;> cases ht
    rename_i hno
    exact inv_pc h ⟨fun fd hfd => .inl (hplace.1 fd hfd),hplace.2,fun hyes => absurd hyes hno⟩
  · rename_i hpc
    rw [hpc] at hplace
    split at ht <;> cases ht
    rename_i hno
    obtain ⟨honly,hlisten,hfd4⟩ := hplace
    refine inv_pc h (place_clients h.table (fun fd hfd => ?_) fun fd hfd hr => ?_)
    · exact (mem_own k fd).mpr ((honly fd hfd).elim (fun heq => .inr (.inr heq)) .inl)
    · rcases (mem_own k fd).mp hfd with rfl | rfl | rfl
      · exact hfd4 hr
      · exact absurd hr hno
      · exact hlisten hr
  · rename_i i hpc
    split at ht
    · rename_i hend
      cases ht
      exact inv_pc h (all_handled h hpc hend)
    · rw [hpc] at hplace
      obtain ⟨hmine,hahead,hbehind⟩ := hplace
      split at ht
      · rename_i hcold
        cases ht
        refine inv_pc h ⟨hmine,fun j hj => hahead j (by omega),fun j hj h0 hr => ?_⟩
        by_cases hji : j = i
        · subst hji
          rcases hcold with hneg | hnot
          · exact absurd h0 (Int.not_le.mpr hneg)
          · exact absurd hr hnot
        · exact hbehind j (by omega) h0 hr
      · cases ht
  · cases ht

theorem ret_inv (htable : s.Table k) (hcounts : Worklist.Counts s.rset s.handled (s.nready - 1))
    (hopened : ∀ fd ∈ s.rset, fd ∉ s.handled → fd ∈ s.fds) {pc : IcmpPc} (hplace : s.Place k pc) :
    Inv k (s.ret pc) := by
  refine ⟨htable.of_eq rfl,⟨hcounts,hopened,?_⟩⟩
  simp only [ret]
  split
  · rename_i hnone
    exact hcounts.all hnone
  · exact hplace

theorem Table.slot_free (h : s.Table k) :
    ∃ i < FD_SETSIZE, decide ((s.client i).connfd < 0) = true :=
  UnixNet.slot_free h.slots (Finset.sdiff_ssubset h.own ⟨k.fd4,(mem_own k _).mpr (.inl rfl)⟩)
    fun fd hfd => ⟨(h.bound fd hfd).1,(h.bound fd hfd).2.1⟩

theorem connfds_setClient (s : Icmpd) (i : Nat) (c : IcmpClient) :
    (s.setClient i c).connfds = Function.update s.connfds i c.connfd := by
  funext j
  by_cases hj : j = i
  · subst hj
    simp [connfds,setClient]
  · simp [connfds,setClient,hj]

theorem connfds_setConnfd (s : Icmpd) (i : Nat) (connfd : Int) :
    (s.setConnfd i connfd).connfds = Function.update s.connfds i connfd :=
  connfds_setClient s i _

theorem enroll_table (h : s.Table k) {i : Nat} {connfd : Int} (hi : i < FD_SETSIZE)
    (hneg : (s.client i).connfd < 0) (h0 : 0 ≤ connfd) (hsmall : connfd < FD_SETSIZE)
    (hnew : connfd ∉ s.fds) : (s.enroll i connfd).Table k := by
  have hown : connfd ∉ k.own := fun hmem => hnew (h.own hmem)
  have hm := h.maxi
  refine ⟨?_,h.own.trans (Finset.subset_insert _ _),?_,?_,?_⟩
  · change Slots.Keeps _ (s.setConnfd i connfd).connfds (max s.maxi i + 1).toNat
      (insert connfd s.fds \ k.own)
    rw [connfds_setConnfd,Finset.insert_sdiff_of_notMem _ hown]
    exact h.slots.insert _ (by simpa [connfds] using hneg) h0
      (fun hmem => hnew (Finset.mem_sdiff.mp hmem).1) (by omega) (by omega)
  · simp [enroll,h.watched]
  · exact bound_insert h.bound h0 hsmall
  · simp only [enroll]
    omega

theorem readableListen_inv {connfd : Int} (h : Inv k s) (hpc : s.pc = .listen)
    (hr : k.listenfd ∈ s.rset) (h0 : 0 ≤ connfd) (hnew : connfd ∉ s.fds) :
    Gone ((s.handle k.listenfd).readableListen connfd) ∨
      Inv k ((s.handle k.listenfd).readableListen connfd) := by
  have hplace := h.turn.place
  rw [hpc] at hplace
  have hnone : s.handled = [] := hplace
  have htable : (s.handle k.listenfd).Table k := h.table.of_eq rfl
  obtain ⟨hlt,hneg,_⟩ := Slots.search_found htable.slot_free
  have hcounts := h.turn.counts.push hr (by simp [hnone])
  simp only [readableListen,if_neg (Nat.ne_of_lt hlt)]
  split
  · rename_i hsmall
    refine .inr (ret_inv (enroll_table htable hlt (by simpa using hneg) h0 hsmall hnew) hcounts
      (fun fd hfd hold => ?_) (show Place k _ .v4 from ⟨?_,?_⟩))
    · exact Finset.mem_insert_of_mem (h.turn.opened fd hfd fun hmem =>
        hold (List.mem_append_left _ hmem))
    · simp [hnone,enroll,did,setConnfd,setClient,handle]
    · simp [enroll,did,setConnfd,setClient,handle]
  · exact .inl ⟨_,rfl⟩

/-- What is written for a message. -/
def records (s : Icmpd) (m : IcmpMessage) (taken : Nat) : List IcmpEvent :=
  match m with
  | .report family sport err =>
    ((s.targets family sport).take taken).map fun i => .record (s.client i).connfd family sport err
  | _ => []

theorem forward_cases (s : Icmpd) (m : IcmpMessage) (taken : Nat) (pc : IcmpPc) :
    (∃ why, s.forward m taken pc = (s.did (s.records m taken)).exit why) ∨
      s.forward m taken pc = (s.did (s.records m taken)).ret pc := by
  have hsame : s.did [] = s := by simp [did]
  cases m with
  | quit text => exact .inl ⟨.errQuit text,by simp only [records,hsame,forward]⟩
  | ignore => exact .inr (by simp only [records,hsame,forward])
  | report family sport err =>
    by_cases hfail : taken < (s.targets family sport).length
    · exact .inl ⟨.errSys "write error",by simp only [records,forward,if_pos hfail]⟩
    · exact .inr (by simp only [records,forward,if_neg hfail])

/-- A message that does not end the process leaves its records. -/
theorem readable_cases (s : Icmpd) (fd : Int) (parse : IcmpPacket → IcmpMessage)
    (packet : Option IcmpPacket) (taken : Nat) (pc : IcmpPc) :
    Gone (s.readable fd parse packet taken pc) ∨ ∃ m, s.readable fd parse packet taken pc =
      ((s.handle fd).did ((s.handle fd).records m taken)).ret pc := by
  cases packet with
  | none => exact .inl ⟨_,rfl⟩
  | some p =>
    rcases forward_cases (s.handle fd) (parse p) taken pc with ⟨why,heq⟩ | heq
    · simp only [readable,heq]
      exact .inl ⟨why,rfl⟩
    · exact .inr ⟨parse p,by simp only [readable,heq]⟩

theorem readable_inv {fd : Int} (h : Inv k s) (hr : fd ∈ s.rset) (hnew : fd ∉ s.handled)
    {pc : IcmpPc} (hplace : (s.handle fd).Place k pc) (parse : IcmpPacket → IcmpMessage)
    (packet : Option IcmpPacket) (taken : Nat) :
    Gone (s.readable fd parse packet taken pc) ∨ Inv k (s.readable fd parse packet taken pc) := by
  rcases readable_cases s fd parse packet taken pc with hgone | ⟨m,heq⟩
  · exact .inl hgone
  · have htable : ((s.handle fd).did ((s.handle fd).records m taken)).Table k :=
      h.table.of_eq rfl
    rw [heq]
    refine .inr (ret_inv htable (h.turn.counts.push hr hnew) (fun x hx hold => ?_) hplace)
    exact h.turn.opened x hx fun hmem => hold (List.mem_append_left _ hmem)

theorem recv_inv {packet : Option IcmpPacket} {taken : Nat} (h : Inv k s)
    (ht : s.recvStep k packet taken = some t) : Gone t ∨ Inv k t := by
  have hplace := h.turn.place
  obtain ⟨_,hfd4,hfd6⟩ := k.distinct
  rcases recv_of_step ht with ⟨hpc,hr,rfl⟩ | ⟨hpc,hr,rfl⟩
  · rw [hpc] at hplace
    obtain ⟨honly,hlisten⟩ := hplace
    refine readable_inv h hr (fun hmem => hfd4 (honly _ hmem))
      (show Place k _ .v6 from ⟨fun fd hfd => ?_,?_,?_⟩) _ _ _
    · rcases List.mem_append.mp hfd with hfd | hfd
      · exact .inl (honly fd hfd)
      · exact .inr (List.mem_singleton.mp hfd)
    · exact fun hl => List.mem_append_left _ (hlisten hl)
    · exact fun _ => List.mem_append_right _ (List.mem_singleton_self _)
  · rw [hpc] at hplace
    obtain ⟨honly,hlisten,hv4⟩ := hplace
    have hnew : k.fd6 ∉ s.handled := fun hmem =>
      (honly _ hmem).elim hfd6 fun heq => k.distinct.1 heq.symm
    refine readable_inv h hr hnew (place_clients (h.table.of_eq rfl) (fun fd hfd => ?_)
      fun fd hfd hmem => ?_) _ _ _
    · rcases List.mem_append.mp hfd with hfd | hfd
      · exact (mem_own k fd).mpr ((honly fd hfd).elim (fun heq => .inr (.inr heq)) .inl)
      · exact (mem_own k fd).mpr (.inr (.inl (List.mem_singleton.mp hfd)))
    · rcases (mem_own k fd).mp hfd with rfl | rfl | rfl
      · exact List.mem_append_left _ (hv4 hmem)
      · exact List.mem_append_right _ (List.mem_singleton_self _)
      · exact List.mem_append_left _ (hlisten hmem)

/-- The client is dropped, with slot `i` as far as it was filled in. -/
def Drops (s t : Icmpd) (i : Nat) : Prop :=
  ∃ (c : IcmpClient) (es : List IcmpEvent) (recvfd : Option Int), c.connfd = (s.client i).connfd ∧
    (es = [] ∨ es = [.refused c.connfd]) ∧
    t = ((s.setClient i c).did es).clientdone i recvfd

theorem clienterr_cases (s : Icmpd) (i : Nat) {c : IcmpClient}
    (hc : c.connfd = (s.client i).connfd) (recvfd : Option Int) (wrote : Bool) {t : Icmpd}
    (ht : (s.setClient i c).clienterr i recvfd wrote = t) :
    Gone t ∧ t.log = s.log ∨ s.Drops t i := by
  subst ht
  cases wrote with
  | false => exact .inl ⟨⟨_,rfl⟩,rfl⟩
  | true => exact .inr ⟨c,[.refused c.connfd],recvfd,hc,.inr rfl,by simp [clienterr,setClient]⟩

/-- What `readable_conn` can do: end the process, answer "1", or drop the client. -/
theorem readableConn_cases (s : Icmpd) (i : Nat) (msg : ConnMessage) (wrote : Bool) {t : Icmpd}
    (ht : s.readableConn i msg wrote = t) : Gone t ∧ t.log = s.log ∨ s.Drops t i ∨
      ∃ (r : Registration) (fd : Int), t =
        ((s.setClient i ⟨(s.client i).connfd,r.family,r.lport⟩).did
          [.registered (s.client i).connfd r,.close fd]).ret (.clients (i + 1)) := by
  have hsame : s.setClient i (s.client i) = s := by simp [setClient]
  have herr : ∀ recvfd, s.clienterr i recvfd wrote = t → Gone t ∧ t.log = s.log ∨ s.Drops t i :=
    fun recvfd ht => clienterr_cases s i rfl recvfd wrote (by rw [hsame]; exact ht)
  simp only [readableConn] at ht
  split at ht
  · subst ht
    exact .inl ⟨⟨_,rfl⟩,rfl⟩
  · subst ht
    exact .inl ⟨⟨_,rfl⟩,rfl⟩
  · subst ht
    exact .inr (.inl ⟨s.client i,[],none,rfl,.inl rfl,by simp [hsame,did]⟩)
  · exact (herr none ht).imp_right .inl
  · rename_i p
    split at ht
    · exact (herr (some p.fd) ht).imp_right .inl
    · rename_i family port hname
      simp only [register] at ht
      generalize (if sockGetPort family port = 0 then sockBindWild family p.bound
        else sockGetPort family port) = lport at ht
      split at ht
      · exact (clienterr_cases s i (c := ⟨(s.client i).connfd,family,lport⟩) rfl (some p.fd)
          wrote ht).imp_right .inl
      · split at ht
        · exact .inr (.inr ⟨⟨family,lport,p.udp⟩,p.fd,ht.symm⟩)
        · subst ht
          exact .inl ⟨⟨_,rfl⟩,rfl⟩

theorem setClient_connfds {i : Nat} {c : IcmpClient} (hc : c.connfd = s.connfds i) :
    (s.setClient i c).connfds = s.connfds := by
  rw [connfds_setClient,hc,Function.update_eq_self]

theorem clientdone_table (h : s.Table k) {i : Nat} (hi : 0 ≤ s.connfds i) (recvfd : Option Int) :
    (s.clientdone i recvfd).Table k := by
  obtain ⟨hopen,hmine⟩ := h.connfd_mem hi
  refine ⟨?_,fun fd hfd => ?_,?_,fun fd hfd => ?_,h.maxi⟩
  · change Slots.Keeps _ (s.setConnfd i (-1)).connfds _ (s.fds.erase (s.connfds i) \ k.own)
    rw [connfds_setConnfd,Finset.erase_sdiff_comm]
    exact h.slots.erase hi (by decide)
  · refine Finset.mem_erase.mpr ⟨?_,h.own hfd⟩
    rintro rfl
    exact hmine hfd
  · simp only [clientdone,ret,h.watched]
  · exact h.bound fd (Finset.mem_of_mem_erase hfd)

/-- Slot `i` is behind the loop once its client has been handled. -/
theorem place_next (h : Inv k s) {i : Nat} (hpc : s.pc = .clients i) (hi : 0 ≤ s.connfds i)
    (hother : ∀ j, j ≠ i → t.connfds j = s.connfds j)
    (hkept : 0 ≤ t.connfds i → t.connfds i = s.connfds i) (hrset : t.rset = s.rset)
    (hhandled : t.handled = s.handled ++ [s.connfds i]) : t.Place k (.clients (i + 1)) := by
  have hplace := h.turn.place
  rw [hpc] at hplace
  obtain ⟨hmine,hahead,hbehind⟩ := hplace
  refine ⟨fun fd hfd hr => ?_,fun j hj h0 hmem => ?_,fun j hj h0 hr => ?_⟩
  · rw [hhandled]
    exact List.mem_append_left _ (hmine fd hfd (hrset ▸ hr))
  · rw [hother j (by omega)] at h0 hmem
    rw [hhandled] at hmem
    rcases List.mem_append.mp hmem with hmem | hmem
    · exact hahead j (by omega) h0 hmem
    · have hij := h.table.slots.inj j i h0 (List.mem_singleton.mp hmem)
      omega
  · rw [hhandled]
    by_cases hji : j = i
    · subst hji
      rw [hkept h0]
      exact List.mem_append_right _ (List.mem_singleton_self _)
    · rw [hother j hji] at h0 hr ⊢
      exact List.mem_append_left _ (hbehind j (by omega) h0 (hrset ▸ hr))

theorem conn_ret (h : Inv k s) {i : Nat} (hpc : s.pc = .clients i) (hi : 0 ≤ s.connfds i)
    (hr : s.connfds i ∈ s.rset) (htable : t.Table k) (hturn : (t.rset,t.handled,t.nready) =
      (s.rset,s.handled ++ [s.connfds i],s.nready))
    (hfds : ∀ fd ∈ s.fds, fd ≠ s.connfds i → fd ∈ t.fds)
    (hother : ∀ j, j ≠ i → t.connfds j = s.connfds j)
    (hkept : 0 ≤ t.connfds i → t.connfds i = s.connfds i) : Inv k (t.ret (.clients (i + 1))) := by
  simp only [Prod.mk.injEq] at hturn
  obtain ⟨hrset,hhandled,hnready⟩ := hturn
  have hplace := h.turn.place
  rw [hpc] at hplace
  refine ret_inv htable ?_ (fun fd hfd hold => ?_)
    (place_next h hpc hi hother hkept hrset hhandled)
  · rw [hrset,hhandled,hnready]
    exact h.turn.counts.push hr (hplace.2.1 i (Nat.le_refl i) hi)
  · rw [hrset] at hfd
    rw [hhandled] at hold
    refine hfds fd (h.turn.opened fd hfd fun hmem => hold (List.mem_append_left _ hmem)) ?_
    rintro rfl
    exact hold (List.mem_append_right _ (List.mem_singleton_self _))

theorem conn_inv {msg : ConnMessage} {wrote : Bool} (h : Inv k s)
    (ht : s.connStep msg wrote = some t) : Gone t ∨ Inv k t := by
  obtain ⟨i,hpc,hi,hr,ht⟩ := conn_of_step ht
  rcases readableConn_cases _ i msg wrote ht with hgone | ⟨c,es,recvfd,hc,_,rfl⟩ | ⟨r,fd,rfl⟩
  · exact .inl hgone.1
  · have hsame : (s.setClient i c).connfds = s.connfds := setClient_connfds hc
    have htable : (s.setClient i c).Table k := h.table.of_eq (by rw [hsame]; rfl)
    have hdone := clientdone_table (i := i) htable (by rw [hsame]; exact hi) recvfd
    have hconnfds : ((s.setClient i c).setConnfd i (-1)).connfds =
        Function.update s.connfds i (-1) := by rw [connfds_setConnfd,hsame]
    refine .inr (conn_ret h hpc hi hr (hdone.of_eq rfl) rfl (fun fd hfd hne => ?_)
      (fun j hj => ?_) fun h0 => ?_)
    · exact Finset.mem_erase.mpr ⟨fun heq => hne (heq.trans (congrFun hsame i)),hfd⟩
    · exact (congrFun hconnfds j).trans (Function.update_of_ne hj _ _)
    · have hgone : (0 : Int) ≤ -1 :=
        h0.trans_eq ((congrFun hconnfds i).trans (Function.update_self _ _ _))
      exact absurd hgone (by decide)
  · have hsame := setClient_connfds (s := s) (i := i) (c := ⟨s.connfds i,r.family,r.lport⟩) rfl
    have htable : (s.setClient i ⟨s.connfds i,r.family,r.lport⟩).Table k :=
      h.table.of_eq (by rw [hsame]; rfl)
    exact .inr (conn_ret h hpc hi hr (htable.of_eq rfl) rfl (fun fd hfd _ => hfd)
      (fun j _ => congrFun hsame j) fun _ => congrFun hsame i)

theorem listen_inv {connfd : Option Int} (h : Inv k s) (ht : s.listenStep k connfd = some t) :
    Gone t ∨ Inv k t := by
  obtain ⟨hpc,hr,⟨_,hgone,_⟩ | ⟨c,_,h0,hnew,rfl⟩⟩ := listen_of_step ht
  · exact .inl hgone
  · exact readableListen_inv h hpc hr h0 hnew

theorem step_inv (h : Inv k s) {a : IcmpAct} (ht : s.step k a = some t) : Gone t ∨ Inv k t := by
  cases a with
  | select ready => exact .inr (select_inv h ht)
  | next => exact .inr (next_inv h ht)
  | listen connfd => exact listen_inv h ht
  | recv packet taken => exact recv_inv h ht
  | conn msg wrote => exact conn_inv h ht

theorem Gone.step (h : Gone s) (a : IcmpAct) : s.step k a = none := by
  obtain ⟨why,hpc⟩ := h
  cases a <;> simp [Icmpd.step,selectStep,nextStep,listenStep,recvStep,connStep,hpc]

theorem run_inv (hs : (icmpd k).Reachable s) : Gone s ∨ Inv k s := by
  refine hs.invariant (I := fun s => Gone s ∨ Inv k s) (.inr (init_inv k)) fun s a t h ht => ?_
  rcases h with hgone | hinv
  · have hnone : s.step k a = none := hgone.step a
    exact absurd (ht.symm.trans hnone) (Option.some_ne_none t)
  · exact step_inv hinv ht

/-- What holds at the top of the loop. -/
structure Sound (k : IcmpFds) (s : Icmpd) : Prop where
  allset : ∀ fd, fd ∈ s.allset ↔ fd = k.fd4 ∨ fd = k.fd6 ∨ fd = k.listenfd ∨
    0 ≤ fd ∧ ∃ i < FD_SETSIZE, (s.client i).connfd = fd
  distinct : ∀ i j, 0 ≤ (s.client i).connfd → (s.client i).connfd = (s.client j).connfd → i = j
  apart : ∀ i, (s.client i).connfd ∉ [k.fd4,k.fd6,k.listenfd]
  usedBelow : ∀ i, 0 ≤ (s.client i).connfd → i ≤ s.maxi
  belowMaxfd : ∀ fd ∈ s.allset, fd ≤ s.maxfd
  once : s.handled.Nodup ∧ ∀ fd, fd ∈ s.handled ↔ fd ∈ s.rset

theorem Inv.sound (h : Inv k s) (hpc : s.pc = .select) : Sound k s := by
  have hplace := h.turn.place
  rw [hpc] at hplace
  have hbelow : ∀ i, 0 ≤ (s.client i).connfd → (i : Int) ≤ s.maxi := by
    intro i hi
    have hlt := (h.table.slots.mem i hi).1
    omega
  refine ⟨fun fd => ?_,h.table.slots.inj,fun i hmem => ?_,hbelow,fun fd hfd => ?_,
    h.turn.counts.nodup,fun fd => ⟨h.turn.counts.sub fd,hplace fd⟩⟩
  · rw [h.table.watched]
    constructor
    · intro hfd
      by_cases hmine : fd ∈ k.own
      · have hthree := (mem_own k fd).mp hmine
        tauto
      · obtain ⟨h0,i,rfl⟩ := h.table.slots.slot fd (Finset.mem_sdiff.mpr ⟨hfd,hmine⟩)
        have hi := hbelow i h0
        have hmaxi := h.table.maxi.2
        exact .inr (.inr (.inr ⟨h0,i,by omega,rfl⟩))
    · rintro (rfl | rfl | rfl | ⟨h0,i,_,rfl⟩)
      · exact h.table.own ((mem_own k _).mpr (.inl rfl))
      · exact h.table.own ((mem_own k _).mpr (.inr (.inl rfl)))
      · exact h.table.own ((mem_own k _).mpr (.inr (.inr rfl)))
      · exact (h.table.connfd_mem h0).1
  · have hmine : (s.client i).connfd ∈ k.own := by
      simpa [IcmpFds.own] using hmem
    have h0 := (h.table.bound _ (h.table.own hmine)).1
    exact (h.table.connfd_mem h0).2 hmine
  · exact (h.table.bound fd (h.table.watched ▸ hfd)).2.2

/-- A client that finds the table full. -/
theorem listen_full {connfd : Int} (hfull : ∀ i < FD_SETSIZE, 0 ≤ (s.client i).connfd)
    (ht : s.listenStep k (some connfd) = some t) :
    t.allset = s.allset ∧ t.client = s.client ∧ t.fds = s.fds ∧
      t.handled = s.handled ++ [k.listenfd] ∧ t.nready = s.nready - 1 ∧
      t.log = s.log ++ [.accept connfd,.close connfd] := by
  have hsearch : Slots.search (fun i => decide ((s.client i).connfd < 0)) 0 FD_SETSIZE =
      FD_SETSIZE := by
    obtain ⟨_,hle,_,hhit⟩ :=
      Slots.search_spec (fun i => decide ((s.client i).connfd < 0)) 0 FD_SETSIZE
    by_contra hne
    have hlt : Slots.search (fun i => decide ((s.client i).connfd < 0)) 0 FD_SETSIZE <
        FD_SETSIZE := by omega
    have hneg := of_decide_eq_true (hhit (by omega))
    exact absurd (hfull _ hlt) (Int.not_le.mpr hneg)
  obtain ⟨_,_,⟨hnone,_⟩ | ⟨c,hc,_,_,rfl⟩⟩ := listen_of_step ht
  · cases hnone
  · cases hc
    have heq : (s.handle k.listenfd).readableListen connfd =
        ((s.handle k.listenfd).did [.accept connfd,.close connfd]).ret .v4 := if_pos hsearch
    rw [heq]
    exact ⟨rfl,rfl,rfl,rfl,rfl,rfl⟩

end Icmpd

/-- The loop invariant of `icmpd`, and what a client gets that finds the table full. -/
theorem icmpd_sound (k : IcmpFds) :
    (∀ s, (icmpd k).Reachable s → s.pc = .select → s.Sound k) ∧
    ∀ (s t : Icmpd) (connfd : Int), (∀ i < FD_SETSIZE, 0 ≤ (s.client i).connfd) →
      s.listenStep k (some connfd) = some t →
      t.allset = s.allset ∧ t.client = s.client ∧ t.fds = s.fds ∧
        t.handled = s.handled ++ [k.listenfd] ∧ t.nready = s.nready - 1 ∧
        t.log = s.log ++ [.accept connfd,.close connfd] := by
  refine ⟨fun s hs hpc => ?_,fun s t connfd hfull ht => Icmpd.listen_full hfull ht⟩
  rcases Icmpd.run_inv hs with ⟨why,hgone⟩ | hinv
  · rw [hpc] at hgone
    cases hgone
  · exact hinv.sound hpc

/-- A client registers while an ICMPv4 packet arrives; a client that finds no slot. -/
theorem icmpd_sound_turn :
    (∃ k s, (icmpd k).Reachable s ∧ s.handled = [3,6] ∧ s.Sound k ∧
      s.log = [.accept 6,.registered 6 ⟨AF_INET,53,true⟩,.close 7]) ∧
    ∃ k s t, Icmpd.listenStep k s (some 2000) = some t ∧
      t.allset = s.allset ∧ t.log = s.log ++ [.accept 2000,.close 2000] := by
  let k : IcmpFds := ⟨3,4,5,by decide,by decide⟩
  refine ⟨⟨k,?_⟩,k,?_⟩
  · have hrun : ((icmpd k).run (icmpd k).init [.select {5},.listen (some 6),.select {3,6},.next,
        .recv (some ⟨fun _ => 0,64⟩) 0,.next,
        .conn (.byte (some ⟨7,true,some (AF_INET,53),none⟩)) true]).map
          (fun s => (s.pc,s.handled,s.log)) = some (.select,[3,6],
          [.accept 6,.registered 6 ⟨AF_INET,53,true⟩,.close 7]) := by decide +kernel
    obtain ⟨s,hs,heq⟩ := Option.map_eq_some_iff.mp hrun
    simp only [Prod.mk.injEq] at heq
    have hreach : (icmpd k).Reachable s := ⟨_,hs⟩
    exact ⟨s,hreach,heq.2.1,(icmpd_sound k).1 s hreach heq.1,heq.2.2⟩
  · let s : Icmpd := { (icmpd k).init with
      pc := .listen
      client := fun i => ⟨i + 6,0,0⟩
      rset := {5} }
    have hstep : s.listenStep k (some 2000) = some ((s.handle 5).readableListen 2000) := rfl
    have hfull : ∀ i < FD_SETSIZE, 0 ≤ (s.client i).connfd := fun i _ => by
      change (0 : Int) ≤ i + 6
      omega
    obtain ⟨hallset,_,_,_,_,hlog⟩ := (icmpd_sound k).2 s _ 2000 hfull hstep
    exact ⟨s,_,hstep,hallset,hlog⟩

end UnixNet
