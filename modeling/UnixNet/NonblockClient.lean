import UnixNet.Descriptor
import UnixNet.Library.Machine
import UnixNet.Library.Window
set_option autoImplicit false

/-! The `str_cli` of nonblock/strclinonb.c, whose reads and writes never wait. -/

namespace UnixNet
open Window

inductive NonbPc where
  | select | readStdin | readSock | writeStdout | writeSock | returned | quit
  deriving DecidableEq, Repr

/-- The bits of `rset` and `wset`. -/
structure NonbBits where
  rStdin : Bool
  rSock : Bool
  wSock : Bool
  wStdout : Bool
  deriving DecidableEq, Repr

/-- `toBuf.iptr` is `toiptr - to` and so on. `stdin` and `sock` are what the two sources will
still deliver; the last five fields count the `Shutdown`s and collect the bytes. -/
structure NonbClient where
  pc : NonbPc
  toBuf : Window Byte
  frBuf : Window Byte
  stdineof : Bool
  bits : NonbBits
  stdin : List Arrival
  sock : List Arrival
  shutdowns : Nat
  stdinRead : List Byte
  sockWritten : List Byte
  sockRead : List Byte
  stdoutWritten : List Byte

/-- `Select` returns; the next read; the next write takes `k` bytes, or fails. -/
inductive NonbAct where
  | select (ready : NonbBits) : NonbAct
  | read : NonbAct
  | write (k : Nat) : NonbAct
  | fail (e : Errno) : NonbAct
  deriving DecidableEq, Repr

namespace NonbClient

/-- What is set before `Select`. -/
def watched (s : NonbClient) : NonbBits where
  rStdin := !s.stdineof && decide (s.toBuf.iptr < MAXLINE)
  rSock := decide (s.frBuf.iptr < MAXLINE)
  wSock := decide (s.toBuf.optr ≠ s.toBuf.iptr)
  wStdout := decide (s.frBuf.optr ≠ s.frBuf.iptr)

/-- `&to[MAXLINE] - toiptr` and `&fr[MAXLINE] - friptr`. -/
def room (w : Window Byte) : Int := MAXLINE - w.iptr

/-- `toiptr - tooptr` and `friptr - froptr`. -/
def size (w : Window Byte) : Int := w.iptr - w.optr

/-! The tests of one iteration, from the last to the first, with the call each leads to. -/

def testSockWrite (s : NonbClient) : NonbPc :=
  if s.bits.wSock ∧ 0 < size s.toBuf then .writeSock else .select

def testStdout (s : NonbClient) : NonbPc :=
  if s.bits.wStdout ∧ 0 < size s.frBuf then .writeStdout else s.testSockWrite

def testSockRead (s : NonbClient) : NonbPc := if s.bits.rSock then .readSock else s.testStdout

def testStdin (s : NonbClient) : NonbPc := if s.bits.rStdin then .readStdin else s.testSockRead

/-- Goes on to the call that the next test leads to. -/
def goto (s : NonbClient) (test : NonbClient → NonbPc) : NonbClient := { s with pc := test s }

def readStdin (s : NonbClient) : NonbClient :=
  match read (room s.toBuf).toNat s.stdin with
  | (.fail e,es) =>
    let s := { s with stdin := es }
    if e = .ewouldblock then s.goto testSockRead else { s with pc := .quit }
  | (.eof,es) | (.data [],es) =>
    { s with
      stdin := es
      stdineof := true
      shutdowns := if s.toBuf.optr = s.toBuf.iptr then s.shutdowns + 1 else s.shutdowns
      }.goto testSockRead
  | (.data bs,es) =>
    { s with
      stdin := es
      toBuf := s.toBuf.fill bs
      bits := { s.bits with wSock := true }
      stdinRead := s.stdinRead ++ bs }.goto testSockRead

def readSock (s : NonbClient) : NonbClient :=
  match read (room s.frBuf).toNat s.sock with
  | (.fail e,es) =>
    let s := { s with sock := es }
    if e = .ewouldblock then s.goto testStdout else { s with pc := .quit }
  | (.eof,es) | (.data [],es) => { s with sock := es, pc := if s.stdineof then .returned else .quit }
  | (.data bs,es) =>
    { s with
      sock := es
      frBuf := s.frBuf.fill bs
      bits := { s.bits with wStdout := true }
      sockRead := s.sockRead ++ bs }.goto testStdout

/-- The first `k` bytes that are pending. -/
def taken (w : Window Byte) (k : Nat) : List Byte := segment w.data w.optr (w.optr + k)

def writeStdout (s : NonbClient) (k : Nat) : NonbClient :=
  { s with
    frBuf := s.frBuf.drain k
    stdoutWritten := s.stdoutWritten ++ taken s.frBuf k }.goto testSockWrite

/-- The FIN is sent when the last of the bytes from stdin has been written. -/
def writeSock (s : NonbClient) (k : Nat) : NonbClient :=
  { s with
    pc := .select
    toBuf := s.toBuf.drain k
    shutdowns := if s.toBuf.optr + k = s.toBuf.iptr ∧ s.stdineof then s.shutdowns + 1 else s.shutdowns
    sockWritten := s.sockWritten ++ taken s.toBuf k }

def step (s : NonbClient) : NonbAct → Option NonbClient
  | .select ready =>
    if s.pc = .select ∧ (ready.rStdin → s.watched.rStdin) ∧ (ready.rSock → s.watched.rSock) ∧
        (ready.wSock → s.watched.wSock) ∧ (ready.wStdout → s.watched.wStdout) ∧
        ready ≠ ⟨false,false,false,false⟩ then
      some ({ s with bits := ready }.goto testStdin)
    else none
  | .read =>
    match s.pc with
    | .readStdin => some s.readStdin
    | .readSock => some s.readSock
    | _ => none
  | .write k =>
    match s.pc with
    | .writeStdout => if k ≤ size s.frBuf then some (s.writeStdout k) else none
    | .writeSock => if k ≤ size s.toBuf then some (s.writeSock k) else none
    | _ => none
  | .fail e =>
    match s.pc with
    | .writeStdout =>
      some (if e = .ewouldblock then s.goto testSockWrite else { s with pc := .quit })
    | .writeSock => some { s with pc := if e = .ewouldblock then .select else .quit }
    | _ => none

end NonbClient

/-- `input` is what stdin delivers and `peer` what the socket does. -/
def strCliNonb (input peer : List Arrival) : Machine NonbClient NonbAct :=
  let start : Window Byte := ⟨fun _ => 0,0,0⟩
  ⟨⟨.select,start,start,false,⟨false,false,false,false⟩,input,peer,0,[],[],[],[]⟩,NonbClient.step⟩

namespace NonbClient
variable {s t : NonbClient} {input peer : List Arrival}

/-- Where the bytes are, and how often the FIN was sent. -/
structure Flow (input peer : List Arrival) (s : NonbClient) : Prop where
  toWithin : s.toBuf.Within MAXLINE
  frWithin : s.frBuf.Within MAXLINE
  toSocket : s.sockWritten ++ s.toBuf.pending = s.stdinRead
  toStdout : s.stdoutWritten ++ s.frBuf.pending = s.sockRead
  stdinSplit : s.stdinRead ++ stream s.stdin = stream input
  sockSplit : s.sockRead ++ stream s.sock = stream peer
  eof : s.stdineof = true → s.stdin = []
  fin : s.shutdowns = if s.stdineof ∧ s.toBuf.optr = s.toBuf.iptr then 1 else 0

/-- What was tested before the next call. -/
def At (s : NonbClient) : Prop :=
  match s.pc with
  | .readStdin => s.stdineof = false ∧ 0 < room s.toBuf ∧ (s.bits.rSock → 0 < room s.frBuf)
  | .readSock => 0 < room s.frBuf
  | .writeStdout => 0 < size s.frBuf
  | .writeSock => 0 < size s.toBuf
  | .select | .returned | .quit => True

theorem flow_pc (h : Flow input peer s) (pc : NonbPc) : Flow input peer { s with pc } :=
  ⟨h.toWithin,h.frWithin,h.toSocket,h.toStdout,h.stdinSplit,h.sockSplit,h.eof,h.fin⟩

theorem flow_goto (h : Flow input peer s) (test : NonbClient → NonbPc) :
    Flow input peer (s.goto test) := flow_pc h (test s)

theorem at_testSockWrite (s : NonbClient) : At (s.goto testSockWrite) := by
  unfold At goto testSockWrite
  by_cases h : s.bits.wSock ∧ 0 < size s.toBuf
  · simp [h]
  · simp [h]

theorem at_testStdout (s : NonbClient) : At (s.goto testStdout) := by
  by_cases h : s.bits.wStdout ∧ 0 < size s.frBuf
  · simp [At,goto,testStdout,h]
  · have hgoto : s.goto testStdout = s.goto testSockWrite := by simp [goto,testStdout,h]
    rw [hgoto]
    exact at_testSockWrite s

theorem at_testSockRead (h : s.bits.rSock → 0 < room s.frBuf) : At (s.goto testSockRead) := by
  by_cases hbit : s.bits.rSock
  · simpa [At,goto,testSockRead,hbit] using h hbit
  · have hgoto : s.goto testSockRead = s.goto testStdout := by simp [goto,testSockRead,hbit]
    rw [hgoto]
    exact at_testStdout s

theorem at_testStdin (hstdin : s.bits.rStdin → s.stdineof = false ∧ 0 < room s.toBuf)
    (hsock : s.bits.rSock → 0 < room s.frBuf) : At (s.goto testStdin) := by
  by_cases hbit : s.bits.rStdin
  · have htest := hstdin hbit
    simpa [At,goto,testStdin,hbit,htest] using hsock
  · have hgoto : s.goto testStdin = s.goto testSockRead := by simp [goto,testStdin,hbit]
    rw [hgoto]
    exact at_testSockRead hsock

structure Inv (input peer : List Arrival) (s : NonbClient) : Prop where
  flow : Flow input peer s
  tested : At s

theorem init_inv : Inv input peer (strCliNonb input peer).init := by
  have hwithin : Within MAXLINE (⟨fun _ => 0,0,0⟩ : Window Byte) :=
    ⟨Nat.le_refl 0,Nat.zero_le MAXLINE⟩
  exact ⟨⟨hwithin,hwithin,rfl,rfl,rfl,rfl,nofun,rfl⟩,trivial⟩

/-- What a step can do: Select reports some bits, one of the buffers is filled or drained, or
a write that is refused leaves them as they are. -/
inductive Moves (s : NonbClient) : NonbAct → NonbClient → Prop where
  | select {ready : NonbBits} : (ready.rStdin → s.watched.rStdin) →
      (ready.rSock → s.watched.rSock) →
      Moves s (.select ready) ({ s with bits := ready }.goto testStdin)
  | readStdin : s.pc = .readStdin → Moves s .read s.readStdin
  | readSock : s.pc = .readSock → Moves s .read s.readSock
  | writeStdout {k : Nat} : k ≤ size s.frBuf → Moves s (.write k) (s.writeStdout k)
  | writeSock {k : Nat} : s.pc = .writeSock → k ≤ size s.toBuf →
      Moves s (.write k) (s.writeSock k)
  | skips {e : Errno} : Moves s (.fail e) (s.goto testSockWrite)
  | stops {e : Errno} {pc : NonbPc} : pc = .select ∨ pc = .quit →
      Moves s (.fail e) { s with pc := pc }

theorem step_moves {a : NonbAct} (ht : s.step a = some t) : Moves s a t := by
  cases a with
  | select ready =>
    obtain ⟨⟨_,hstdin,hsock,_⟩,ht⟩ := Option.ite_none_right_eq_some.mp ht
    cases ht
    exact .select hstdin hsock
  | read =>
    simp only [step] at ht
    split at ht
    · rename_i hpc
      cases ht
      exact .readStdin hpc
    · rename_i hpc
      cases ht
      exact .readSock hpc
    · cases ht
  | write k =>
    simp only [step] at ht
    split at ht
    · obtain ⟨hk,ht⟩ := Option.ite_none_right_eq_some.mp ht
      cases ht
      exact .writeStdout hk
    · rename_i hpc
      obtain ⟨hk,ht⟩ := Option.ite_none_right_eq_some.mp ht
      cases ht
      exact .writeSock hpc hk
    · cases ht
  | fail e =>
    simp only [step] at ht
    split at ht
    · cases ht
      split
      · exact .skips
      · exact .stops (.inr rfl)
    · cases ht
      split
      · exact .stops (.inl rfl)
      · exact .stops (.inr rfl)
    · cases ht

theorem select_inv {ready : NonbBits} (h : Inv input peer s)
    (hstdin : ready.rStdin → s.watched.rStdin) (hsock : ready.rSock → s.watched.rSock) :
    Inv input peer ({ s with bits := ready }.goto testStdin) := by
  have hflow := h.flow
  refine ⟨flow_goto ?_ _,at_testStdin ?_ ?_⟩
  · exact ⟨hflow.toWithin,hflow.frWithin,hflow.toSocket,hflow.toStdout,hflow.stdinSplit,
      hflow.sockSplit,hflow.eof,hflow.fin⟩
  · simp only [watched,Bool.and_eq_true,Bool.not_eq_true',decide_eq_true_eq] at hstdin
    refine fun hbit => (hstdin hbit).imp_right fun hlt => ?_
    simp only [room]
    omega
  · simp only [watched,decide_eq_true_eq] at hsock
    intro hbit
    have hlt := hsock hbit
    simp only [room]
    omega

/-- A read that has room gives an error, the end of file or bytes that fit. -/
theorem read_room {w : Window Byte} {es es' : List Arrival} {bs : List Byte}
    (hroom : 0 < room w) (h : read (room w).toNat es = (.data bs,es')) :
    bs ≠ [] ∧ w.iptr + bs.length ≤ MAXLINE ∧ stream es = bs ++ stream es' := by
  obtain ⟨hne,hlen,hsplit⟩ := read_data (by omega) h
  refine ⟨hne,?_,hsplit⟩
  simp only [room] at hroom hlen
  omega

theorem readStdin_inv (h : Inv input peer s) (hpc : s.pc = .readStdin) :
    Inv input peer s.readStdin := by
  obtain ⟨hflow,hat⟩ := h
  rw [At,hpc] at hat
  obtain ⟨hopen,hroom,hsock⟩ := hat
  have hsplit := hflow.stdinSplit
  unfold readStdin
  split
  · rename_i e es hread
    have hstdin := read_fail hread
    rw [hstdin,stream_fail] at hsplit
    have hnext : Flow input peer { s with stdin := es } :=
      ⟨hflow.toWithin,hflow.frWithin,hflow.toSocket,hflow.toStdout,hsplit,hflow.sockSplit,
        fun heof => by simp [hopen] at heof,hflow.fin⟩
    dsimp only
    split
    · exact ⟨flow_goto hnext _,at_testSockRead hsock⟩
    · exact ⟨flow_pc hnext _,trivial⟩
  · rename_i es hread
    obtain ⟨hstdin,rfl⟩ := read_eof hread
    rw [hstdin] at hsplit
    have hfin := hflow.fin
    rw [if_neg (by simp [hopen])] at hfin
    refine ⟨flow_goto ?_ _,at_testSockRead hsock⟩
    exact ⟨hflow.toWithin,hflow.frWithin,hflow.toSocket,hflow.toStdout,hsplit,hflow.sockSplit,
      fun _ => rfl,by simp [hfin]⟩
  · rename_i es hread
    exact absurd rfl (read_room hroom hread).1
  · rename_i bs es _ hread
    obtain ⟨_,hfits,hstream⟩ := read_room hroom hread
    refine ⟨flow_goto ?_ _,at_testSockRead hsock⟩
    refine ⟨within_fill hflow.toWithin hfits,hflow.frWithin,?_,hflow.toStdout,?_,hflow.sockSplit,
      fun heof => by simp [hopen] at heof,?_⟩
    · dsimp only
      rw [pending_fill hflow.toWithin.ordered,← List.append_assoc,hflow.toSocket]
    · dsimp only
      rw [List.append_assoc,← hstream,hsplit]
    · simpa [hopen] using hflow.fin

theorem readSock_inv (h : Inv input peer s) (hpc : s.pc = .readSock) :
    Inv input peer s.readSock := by
  obtain ⟨hflow,hat⟩ := h
  rw [At,hpc] at hat
  have hsplit := hflow.sockSplit
  unfold readSock
  split
  · rename_i e es hread
    have hsock := read_fail hread
    rw [hsock,stream_fail] at hsplit
    have hnext : Flow input peer { s with sock := es } :=
      ⟨hflow.toWithin,hflow.frWithin,hflow.toSocket,hflow.toStdout,hflow.stdinSplit,hsplit,
        hflow.eof,hflow.fin⟩
    dsimp only
    split
    · exact ⟨flow_goto hnext _,at_testStdout _⟩
    · exact ⟨flow_pc hnext _,trivial⟩
  · rename_i es hread
    obtain ⟨hsock,rfl⟩ := read_eof hread
    rw [hsock] at hsplit
    refine ⟨⟨hflow.toWithin,hflow.frWithin,hflow.toSocket,hflow.toStdout,hflow.stdinSplit,hsplit,
      hflow.eof,hflow.fin⟩,?_⟩
    cases hopen : s.stdineof <;> simp [At]
  · rename_i es hread
    exact absurd rfl (read_room hat hread).1
  · rename_i bs es _ hread
    obtain ⟨_,hfits,hstream⟩ := read_room hat hread
    refine ⟨flow_goto ?_ _,at_testStdout _⟩
    refine ⟨hflow.toWithin,within_fill hflow.frWithin hfits,hflow.toSocket,?_,hflow.stdinSplit,?_,
      hflow.eof,hflow.fin⟩
    · dsimp only
      rw [pending_fill hflow.frWithin.ordered,← List.append_assoc,hflow.toStdout]
    · dsimp only
      rw [List.append_assoc,← hstream,hsplit]

/-- What a write took, with what is still pending, was pending before. -/
theorem taken_pending {w : Window Byte} {k : Nat} (hk : k ≤ size w) :
    w.optr + k ≤ w.iptr ∧ taken w k ++ (w.drain k).pending = w.pending := by
  have hle : w.optr + k ≤ w.iptr := by
    simp only [size] at hk
    omega
  exact ⟨hle,(pending_drain hle).symm⟩

theorem writeStdout_inv {k : Nat} (h : Inv input peer s) (hk : k ≤ size s.frBuf) :
    Inv input peer (s.writeStdout k) := by
  have hflow := h.flow
  obtain ⟨hle,htaken⟩ := taken_pending hk
  refine ⟨flow_goto ?_ _,at_testSockWrite _⟩
  refine ⟨hflow.toWithin,within_drain hflow.frWithin hle,hflow.toSocket,?_,hflow.stdinSplit,
    hflow.sockSplit,hflow.eof,hflow.fin⟩
  dsimp only
  rw [List.append_assoc,htaken,hflow.toStdout]

theorem writeSock_inv {k : Nat} (h : Inv input peer s) (hpc : s.pc = .writeSock)
    (hk : k ≤ size s.toBuf) : Inv input peer (s.writeSock k) := by
  obtain ⟨hflow,hat⟩ := h
  rw [At,hpc] at hat
  obtain ⟨hle,htaken⟩ := taken_pending hk
  have hfin := hflow.fin
  rw [if_neg fun hmet => by simp only [size] at hat; omega] at hfin
  refine ⟨⟨within_drain hflow.toWithin hle,hflow.frWithin,?_,hflow.toStdout,
    hflow.stdinSplit,hflow.sockSplit,hflow.eof,?_⟩,trivial⟩
  · simp only [writeSock]
    rw [List.append_assoc,htaken,hflow.toSocket]
  · simp [writeSock,hfin,drain_meet,and_comm]

theorem step_inv (s : NonbClient) (a : NonbAct) (t : NonbClient) (h : Inv input peer s)
    (ht : s.step a = some t) : Inv input peer t := by
  cases step_moves ht with
  | select hstdin hsock => exact select_inv h hstdin hsock
  | readStdin hpc => exact readStdin_inv h hpc
  | readSock hpc => exact readSock_inv h hpc
  | writeStdout hk => exact writeStdout_inv h hk
  | writeSock hpc hk => exact writeSock_inv h hpc hk
  | skips => exact ⟨flow_goto h.flow _,at_testSockWrite s⟩
  | stops hpc =>
    refine ⟨flow_pc h.flow _,?_⟩
    rcases hpc with rfl | rfl <;> trivial

theorem reachable_inv (h : (strCliNonb input peer).Reachable s) : Inv input peer s :=
  h.invariant init_inv step_inv

/-- Safety of both directions. `input` and `peer` are what stdin and the socket deliver. -/
structure Sound (input peer : List Arrival) (s : NonbClient) : Prop where
  toPointers : s.toBuf.optr ≤ s.toBuf.iptr ∧ s.toBuf.iptr ≤ MAXLINE
  frPointers : s.frBuf.optr ≤ s.frBuf.iptr ∧ s.frBuf.iptr ≤ MAXLINE
  toSocket : s.sockWritten ++ s.toBuf.pending = s.stdinRead
  toStdout : s.stdoutWritten ++ s.frBuf.pending = s.sockRead
  stdinSplit : s.stdinRead ++ stream s.stdin = stream input
  sockSplit : s.sockRead ++ stream s.sock = stream peer
  readsStdin : s.pc = .readStdin → 0 < room s.toBuf
  readsSock : s.pc = .readSock → 0 < room s.frBuf
  finOnce : s.shutdowns ≤ 1
  finLast : 0 < s.shutdowns → s.stdineof ∧ s.stdin = [] ∧ s.sockWritten = stream input

end NonbClient

theorem strCliNonb_sound (input peer : List Arrival) (s : NonbClient)
    (h : (strCliNonb input peer).Reachable s) : s.Sound input peer := by
  obtain ⟨hflow,hat⟩ := NonbClient.reachable_inv h
  have hfin := hflow.fin
  refine ⟨⟨hflow.toWithin.ordered,hflow.toWithin.bounded⟩,
    ⟨hflow.frWithin.ordered,hflow.frWithin.bounded⟩,hflow.toSocket,hflow.toStdout,
    hflow.stdinSplit,hflow.sockSplit,fun hpc => ?_,fun hpc => ?_,?_,fun hpos => ?_⟩
  · rw [NonbClient.At,hpc] at hat
    exact hat.2.1
  · rw [NonbClient.At,hpc] at hat
    exact hat
  · split at hfin <;> omega
  · split at hfin
    · rename_i hdone
      obtain ⟨heof,hmeet⟩ := hdone
      have hstdin := hflow.eof heof
      have hsplit := hflow.stdinSplit
      have hsent := hflow.toSocket
      rw [hstdin,stream_nil,List.append_nil] at hsplit
      rw [(pending_eq_nil hflow.toWithin).mpr hmeet,List.append_nil] at hsent
      exact ⟨heof,hstdin,hsent.trans hsplit⟩
    · omega

/-- The socket takes one byte of two; at the end of file on stdin the other one is pending. -/
theorem strCliNonb_sound_partial :
    let acts := [.select ⟨true,false,false,false⟩,.read,.write 1,
      .select ⟨true,true,true,false⟩,.read,.read,.fail .ewouldblock,
      .select ⟨true,false,true,false⟩,.read,.write 1]
    ∃ s, (strCliNonb [.data 7 [8],.fail .ewouldblock] [.fail .ewouldblock]).run
        (strCliNonb [.data 7 [8],.fail .ewouldblock] [.fail .ewouldblock]).init acts = some s ∧
      (s.shutdowns,s.sockWritten) = (1,[7,8]) ∧
      s.Sound [.data 7 [8],.fail .ewouldblock] [.fail .ewouldblock] := by
  intro acts
  have hrun : ((strCliNonb [.data 7 [8],.fail .ewouldblock] [.fail .ewouldblock]).run
      (strCliNonb [.data 7 [8],.fail .ewouldblock] [.fail .ewouldblock]).init acts).map
      (fun s => (s.shutdowns,s.sockWritten)) = some (1,[7,8]) := by decide +kernel
  obtain ⟨s,hs,hsent⟩ := Option.map_eq_some_iff.mp hrun
  exact ⟨s,hs,hsent,strCliNonb_sound _ _ s ⟨acts,hs⟩⟩

/-- The read that ends `str_cli` normally. -/
structure NonbClient.Returns (s : NonbClient) (a : NonbAct) : Prop where
  call : a = .read
  pc : s.pc = .readSock
  eof : s.sock = []
  stdineof : s.stdineof = true

instance NonbClient.decidableReturns (s : NonbClient) (a : NonbAct) : Decidable (s.Returns a) :=
  decidable_of_iff (a = .read ∧ s.pc = .readSock ∧ s.sock = [] ∧ s.stdineof = true)
    ⟨fun ⟨hcall,hpc,heof,hstdin⟩ => ⟨hcall,hpc,heof,hstdin⟩,
      fun h => ⟨h.call,h.pc,h.eof,h.stdineof⟩⟩

/-- All that was read has been written. -/
def NonbClient.Complete (s : NonbClient) : Prop :=
  s.stdoutWritten = s.sockRead ∧ s.sockWritten = s.stdinRead

/-- Nothing is pending in either buffer. -/
def NonbClient.Drained (s : NonbClient) : Prop :=
  s.frBuf.optr = s.frBuf.iptr ∧ s.toBuf.optr = s.toBuf.iptr

instance NonbClient.decidableDrained (s : NonbClient) : Decidable s.Drained :=
  inferInstanceAs (Decidable (_ ∧ _))

namespace NonbClient
variable {s t : NonbClient} {input peer : List Arrival}

theorem complete_iff (h : Flow input peer s) :
    s.Complete ↔ s.Drained := by
  have hfr : s.stdoutWritten = s.sockRead ↔ s.frBuf.pending = [] := by
    rw [← h.toStdout,List.self_eq_append_right]
  have hto : s.sockWritten = s.stdinRead ↔ s.toBuf.pending = [] := by
    rw [← h.toSocket,List.self_eq_append_right]
  unfold Complete Drained
  rw [hfr,hto,pending_eq_nil h.frWithin,pending_eq_nil h.toWithin]

theorem testSockWrite_ne_returned (s : NonbClient) : s.testSockWrite ≠ .returned := by
  unfold testSockWrite
  split <;> nofun

theorem testStdout_ne_returned (s : NonbClient) : s.testStdout ≠ .returned := by
  unfold testStdout
  split
  · nofun
  · exact testSockWrite_ne_returned s

theorem testSockRead_ne_returned (s : NonbClient) : s.testSockRead ≠ .returned := by
  unfold testSockRead
  split
  · nofun
  · exact testStdout_ne_returned s

theorem testStdin_ne_returned (s : NonbClient) : s.testStdin ≠ .returned := by
  unfold testStdin
  split
  · nofun
  · exact testSockRead_ne_returned s

theorem readStdin_ne_returned (s : NonbClient) : s.readStdin.pc ≠ .returned := by
  unfold readStdin
  split
  · dsimp only
    split
    · exact testSockRead_ne_returned _
    · nofun
  all_goals exact testSockRead_ne_returned _

theorem readSock_returned (hroom : 0 < room s.frBuf) (h : s.readSock.pc = .returned) :
    s.sock = [] ∧ s.stdineof = true := by
  unfold readSock at h
  split at h
  · dsimp only at h
    split at h
    · exact absurd h (testStdout_ne_returned _)
    · cases h
  · rename_i es hread
    refine ⟨(read_eof hread).1,?_⟩
    by_contra hopen
    simp [hopen] at h
  · rename_i es hread
    exact absurd rfl (read_room hroom hread).1
  · exact absurd h (testStdout_ne_returned _)

theorem returns_of_step {a : NonbAct} (h : Inv input peer s) (ht : s.step a = some t)
    (hret : t.pc = .returned) : s.Returns a := by
  cases step_moves ht with
  | select _ _ => exact absurd hret (testStdin_ne_returned _)
  | readStdin _ => exact absurd hret (readStdin_ne_returned s)
  | readSock hpc =>
    have hat := h.tested
    rw [At,hpc] at hat
    obtain ⟨hsock,heof⟩ := readSock_returned hat hret
    exact ⟨rfl,hpc,hsock,heof⟩
  | writeStdout _ => exact absurd hret (testSockWrite_ne_returned _)
  | writeSock _ _ => cases hret
  | skips => exact absurd hret (testSockWrite_ne_returned s)
  | stops hpc => rcases hpc with rfl | rfl <;> cases hret

theorem step_of_returns {a : NonbAct} (h : s.Returns a) (ht : s.step a = some t) :
    t.pc = .returned ∧ (s.Drained ↔ t.Drained) := by
  obtain ⟨rfl,hpc,hsock,heof⟩ := h
  simp only [step,hpc,readSock,hsock,read] at ht
  cases ht
  exact ⟨if_pos heof,Iff.rfl⟩

/-- A run that has returned did so at its last step, with the buffers as they were there. -/
theorem returned_run {acts : List NonbAct} {p : NonbClient}
    (h : (strCliNonb input peer).run (strCliNonb input peer).init acts = some p) :
    (∀ x ∈ (strCliNonb input peer).trace (strCliNonb input peer).init acts,
        Returns x.1 x.2 → p.pc = .returned ∧ (Drained x.1 ↔ p.Drained)) ∧
      (p.pc = .returned → ∃ x ∈ (strCliNonb input peer).trace (strCliNonb input peer).init acts,
        Returns x.1 x.2) := by
  have hrun := Machine.trace_invariant (m := strCliNonb input peer)
    (I := fun l p => Inv input peer p ∧ (∀ x ∈ l, Returns x.1 x.2 → p.pc = .returned ∧
      (Drained x.1 ↔ p.Drained)) ∧ (p.pc = .returned → ∃ x ∈ l, Returns x.1 x.2)) ?_ ?_ h
  · exact hrun.2
  · exact ⟨init_inv,fun x hx => absurd hx List.not_mem_nil,fun hpc => NonbPc.noConfusion hpc⟩
  rintro l s a t ⟨hinv,hbefore,_⟩ ht
  have ht : s.step a = some t := ht
  have hrunning : s.pc ≠ .returned := by
    intro hpc
    cases a <;> simp [step,hpc] at ht
  refine ⟨step_inv s a t hinv ht,fun x hx hret => ?_,fun hret => ?_⟩
  · rcases List.mem_append.mp hx with hx | hx
    · exact absurd (hbefore x hx hret).1 hrunning
    · rw [List.mem_singleton.mp hx] at hret ⊢
      exact step_of_returns (s := s) (a := a) hret ht
  · exact ⟨(s,a),by simp,returns_of_step hinv ht hret⟩

end NonbClient

/-- When `str_cli` returns, all has been written that was read, if and only if nothing was
pending at the read that met the end of file on the socket. -/
theorem strCliNonb_complete_iff (input peer : List Arrival) (acts : List NonbAct) (p : NonbClient)
    (h : (strCliNonb input peer).run (strCliNonb input peer).init acts = some p) :
    (p.pc = .returned → p.Complete) ↔
      ∀ x ∈ (strCliNonb input peer).trace (strCliNonb input peer).init acts,
        x.1.Returns x.2 → x.1.Drained := by
  obtain ⟨hlast,hsome⟩ := NonbClient.returned_run h
  have hflow := (NonbClient.reachable_inv ⟨acts,h⟩).flow
  constructor
  · intro hcomplete x hx hret
    obtain ⟨hpc,hdrained⟩ := hlast x hx hret
    exact hdrained.mpr ((NonbClient.complete_iff hflow).mp (hcomplete hpc))
  · intro hdrained hpc
    obtain ⟨x,hx,hret⟩ := hsome hpc
    exact (NonbClient.complete_iff hflow).mpr ((hlast x hx hret).2.mp (hdrained x hx hret))

/-- Stdout takes the byte from the socket before the end of file there. -/
theorem strCliNonb_complete_written :
    let acts := [.select ⟨true,true,false,false⟩,.read,.read,.write 1,
      .select ⟨false,true,false,false⟩,.read]
    ∃ p, (strCliNonb [] [.data 7 []]).run (strCliNonb [] [.data 7 []]).init acts = some p ∧
      (p.pc,p.stdoutWritten) = (.returned,[7]) ∧ p.Complete := by
  intro acts
  have hrun : ((strCliNonb [] [.data 7 []]).run (strCliNonb [] [.data 7 []]).init acts).map
      (fun p => (p.pc,p.stdoutWritten)) = some (.returned,[7]) := by decide +kernel
  obtain ⟨p,hp,hret⟩ := Option.map_eq_some_iff.mp hrun
  refine ⟨p,hp,hret,(strCliNonb_complete_iff [] [.data 7 []] acts p hp).mpr ?_ ?_⟩
  · decide +kernel
  · exact congrArg Prod.fst hret

/-- Stdout would block, and the byte from the socket is lost at the end of file. -/
theorem strCliNonb_not_complete : ¬ ∀ (input peer : List Arrival) (acts : List NonbAct)
    (p : NonbClient), (strCliNonb input peer).run (strCliNonb input peer).init acts = some p →
    p.pc = .returned → p.Complete := by
  intro h
  have hrun : ((strCliNonb [] [.data 7 []]).run (strCliNonb [] [.data 7 []]).init
      [.select ⟨true,true,false,false⟩,.read,.read,.fail .ewouldblock,
        .select ⟨false,true,false,false⟩,.read]).map
      (fun p => (p.pc,p.stdoutWritten,p.sockRead)) = some (.returned,[],[7]) := by decide +kernel
  obtain ⟨p,hp,hret⟩ := Option.map_eq_some_iff.mp hrun
  simp only [Prod.mk.injEq] at hret
  obtain ⟨hpc,hwritten,hread⟩ := hret
  have hcomplete := (h _ _ _ p hp hpc).1
  rw [hwritten,hread] at hcomplete
  cases hcomplete

end UnixNet
