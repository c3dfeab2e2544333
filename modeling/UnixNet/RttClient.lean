import Mathlib.Algebra.Ring.Int.Defs
import Mathlib.Data.List.Count
import UnixNet.Descriptor
import UnixNet.Library.ByteOrder
import UnixNet.Library.Machine
set_option autoImplicit false

/-! `dg_send_recv` with the clock of rtt.c, against `dg_echo` and a network that loses,
repeats, reorders and delays. -/

namespace UnixNet
open ByteOrder

def RTT_MAXNREXMT : Nat := 3

structure Timeval where
  sec : Int
  usec : Int
  deriving DecidableEq, Repr

/-- The clock in milliseconds. -/
def Timeval.millis (tv : Timeval) : Int := tv.sec * 1000 + tv.usec / 1000

/-- `rtt_ts` at the time `tv`, an `uint32_t`. -/
def rttTs (rttBase : Int) (tv : Timeval) : Nat :=
  (((tv.sec - rttBase) * 1000 + tv.usec / 1000) % 2 ^ 32).toNat

/-- `struct hdr` of two `uint32_t`. -/
structure Hdr where
  seq : Nat
  ts : Nat
  deriving DecidableEq, Repr

def sizeofHdr : Nat := 8

def Hdr.bytes (h : Hdr) : List Byte := ByteOrder.bytes 4 h.seq ++ ByteOrder.bytes 4 h.ts

def Hdr.parse (bs : List Byte) : Hdr := ⟨value (bs.take 4),value ((bs.drop 4).take 4)⟩

/-- What `dg_echo` sends back. -/
def dgEcho (mesg : List Byte) : List Byte := mesg.take MAXLINE

/-- A datagram that was sent, with the call that sent it, when, and for which `outbuff`. -/
structure Copy where
  call : Nat
  time : Timeval
  payload : List Byte
  bytes : List Byte
  deriving DecidableEq, Repr

/-- A return with `n >= 0`: the bytes in `inbuff`, the value passed to `rtt_stop` at the time
`now`, and which datagram had been received. -/
structure Reply where
  call : Nat
  inbytes : Nat
  n : Nat
  data : List Byte
  ms : Int
  now : Timeval
  copy : Nat
  deriving DecidableEq, Repr

inductive RttEvent where
  | reply (r : Reply) : RttEvent
  /-- A return with -1. -/
  | gaveUp (call : Nat) : RttEvent
  deriving DecidableEq, Repr

/-- `got` is after the loop around `Recvmsg`, with its result and the datagram it took. -/
inductive RttPc where
  | idle : RttPc
  | send : RttPc
  | recv : RttPc
  | got (n copy : Nat) : RttPc
  deriving DecidableEq, Repr

/-- `recvhdr` are the bytes of that struct, and `inbuff` those that `Recvmsg` stored there.
`calls` counts the calls, `sent` is all they sent and `expired` lists the datagrams whose
alarm went off. -/
structure RttClient where
  pc : RttPc
  rttinit : Bool
  rttBase : Int
  rttNrexmt : Nat
  sendhdr : Hdr
  recvhdr : List Byte
  outbuff : List Byte
  inbytes : Nat
  inbuff : List Byte
  calls : Nat
  sent : List Copy
  expired : List Nat
  log : List RttEvent
  deriving DecidableEq, Repr

/-- `dg_send_recv` is called; it sends a datagram; it receives the echo of datagram `copy`;
SIGALRM is delivered; `dg_send_recv` returns. -/
inductive RttAct where
  | call (outbuff : List Byte) (inbytes : Nat) (now : Timeval) : RttAct
  | send (now : Timeval) : RttAct
  | recv (copy : Nat) : RttAct
  | alarm : RttAct
  | stop (now : Timeval) : RttAct
  deriving DecidableEq, Repr

namespace RttClient

/-- The base of the time stamps after `rtt_init`, if it is due. -/
def rttInit (s : RttClient) (now : Timeval) : Int :=
  if s.rttinit then s.rttBase else now.sec % 2 ^ 32

/-- From the entry to `rtt_newpack`. -/
def call (s : RttClient) (outbuff : List Byte) (inbytes : Nat) (now : Timeval) : RttClient :=
  { s with
    pc := .send
    rttinit := true
    rttBase := s.rttInit now
    rttNrexmt := 0
    sendhdr := { s.sendhdr with seq := (s.sendhdr.seq + 1) % 2 ^ 32 }
    outbuff := outbuff
    inbytes := inbytes
    calls := s.calls + 1 }

/-- From `sendagain` to `alarm`. -/
def sendagain (s : RttClient) (now : Timeval) : RttClient :=
  let sendhdr : Hdr := ⟨s.sendhdr.seq,rttTs s.rttBase now⟩
  { s with
    pc := .recv
    sendhdr := sendhdr
    sent := s.sent ++ [⟨s.calls,now,s.outbuff,sendhdr.bytes ++ s.outbuff⟩] }

/-- One `Recvmsg` and the test of the loop around it. -/
def recvmsg (s : RttClient) (msg : List Byte) (copy : Nat) : RttClient :=
  let n := min msg.length (sizeofHdr + s.inbytes)
  let s := { s with
    recvhdr := msg.take sizeofHdr ++ s.recvhdr.drop msg.length
    inbuff := (msg.drop sizeofHdr).take s.inbytes }
  if n < sizeofHdr ∨ (Hdr.parse s.recvhdr).seq ≠ s.sendhdr.seq then s else { s with pc := .got n copy }

/-- `rtt_timeout` and what follows it. The alarm was set for the datagram sent last. -/
def timeout (s : RttClient) : RttClient :=
  let s := { s with rttNrexmt := s.rttNrexmt + 1, expired := s.expired ++ [s.sent.length - 1] }
  if RTT_MAXNREXMT < s.rttNrexmt then
    { s with pc := .idle, rttinit := false, log := s.log ++ [.gaveUp s.calls] }
  else { s with pc := .send }

/-- `rtt_stop(&rttinfo, rtt_ts(&rttinfo) - recvhdr.ts)` and the return. -/
def stop (s : RttClient) (n copy : Nat) (now : Timeval) : RttClient :=
  { s with
    pc := .idle
    log := s.log ++ [.reply
      { call := s.calls
        inbytes := s.inbytes
        n := n - sizeofHdr
        data := s.inbuff.take (n - sizeofHdr)
        ms := ((rttTs s.rttBase now : Int) - (Hdr.parse s.recvhdr).ts) % 2 ^ 32
        now := now
        copy := copy }] }

/-- No datagram is older than `2 ^ 32 - 1` calls, and no payload too long for `dg_echo`. -/
def step (s : RttClient) : RttAct → Option RttClient
  | .call outbuff inbytes now =>
    if s.pc = .idle ∧ outbuff.length ≤ MAXLINE - sizeofHdr then some (s.call outbuff inbytes now)
    else none
  | .send now => if s.pc = .send then some (s.sendagain now) else none
  | .recv copy =>
    match s.sent[copy]? with
    | none => none
    | some c =>
      if s.pc = .recv ∧ s.calls - c.call ≤ 2 ^ 32 - 1 then some (s.recvmsg (dgEcho c.bytes) copy)
      else none
  | .alarm =>
    match s.pc with
    | .recv | .got _ _ => some s.timeout
    | _ => none
  | .stop now =>
    match s.pc with
    | .got n copy => some (s.stop n copy now)
    | _ => none

end RttClient

/-- The statics start as zeros. -/
def dgSendRecv : Machine RttClient RttAct :=
  ⟨⟨.idle,false,0,0,⟨0,0⟩,List.replicate 8 0,[],0,[],0,[],[],[]⟩,RttClient.step⟩

theorem hdr_length (h : Hdr) : h.bytes.length = sizeofHdr := by simp [Hdr.bytes,sizeofHdr]

theorem parse_append (h : Hdr) (rest : List Byte) :
    Hdr.parse (h.bytes ++ rest) = ⟨h.seq % 2 ^ 32,h.ts % 2 ^ 32⟩ := by
  have hseq : (h.bytes ++ rest).take 4 = ByteOrder.bytes 4 h.seq := by
    rw [Hdr.bytes,List.append_assoc]
    exact List.take_left' (bytes_length 4 h.seq)
  have hts : ((h.bytes ++ rest).drop 4).take 4 = ByteOrder.bytes 4 h.ts := by
    rw [Hdr.bytes,List.append_assoc,List.drop_left' (bytes_length 4 h.seq)]
    exact List.take_left' (bytes_length 4 h.ts)
  have hsize : 256 ^ 4 = 2 ^ 32 := by decide
  rw [Hdr.parse,hseq,hts,value_bytes,value_bytes,hsize]

theorem rttTs_lt (rttBase : Int) (tv : Timeval) : rttTs rttBase tv < 2 ^ 32 := by
  unfold rttTs
  omega

/-- The base of the time stamps has no influence on what they differ by. -/
theorem rttTs_sub (rttBase : Int) (now time : Timeval) :
    ((rttTs rttBase now : Int) - rttTs rttBase time) % 2 ^ 32 =
      (now.millis - time.millis) % 2 ^ 32 := by
  unfold rttTs Timeval.millis
  omega

/-- A payload behind its header, which tells the call and the time. -/
structure Copy.Formed (calls : Nat) (rttBase : Int) (c : Copy) : Prop where
  call : c.call ≤ calls
  short : c.payload.length ≤ MAXLINE - sizeofHdr
  bytes : ∃ base, c.bytes = Hdr.bytes ⟨c.call % 2 ^ 32,rttTs base c.time⟩ ++ c.payload ∧
    (c.call = calls → base = rttBase)

theorem Copy.Formed.echo {calls : Nat} {rttBase : Int} {c : Copy} (h : c.Formed calls rttBase) :
    dgEcho c.bytes = c.bytes := by
  obtain ⟨base,hbytes,_⟩ := h.bytes
  have hshort := h.short
  have hfits : sizeofHdr ≤ MAXLINE := by decide
  unfold dgEcho
  rw [List.take_of_length_le]
  rw [hbytes,List.length_append,hdr_length]
  omega

/-- The reply was an echo of what the call sent, and the sample its round-trip time. -/
structure Reply.Matches (sent : List Copy) (r : Reply) (c : Copy) : Prop where
  copy : sent[r.copy]? = some c
  call : c.call = r.call
  data : r.data = c.payload.take r.inbytes
  whole : c.payload.length ≤ r.inbytes → r.data = c.payload
  n : r.n = r.data.length
  ms : r.ms = (r.now.millis - c.time.millis) % 2 ^ 32

namespace RttClient
variable {s t : RttClient}

/-- How often call `i` sent its datagram. -/
def copies (s : RttClient) (i : Nat) : Nat := s.sent.countP fun c => c.call = i

/-- The alarm went off for all that call `i` sent, the last datagram of all aside if `last`. -/
def Expired (s : RttClient) (i : Nat) (last : Prop) : Prop :=
  ∀ (k : Nat) (c : Copy), s.sent[k]? = some c → c.call = i →
    k ∈ s.expired ∨ last ∧ k = s.sent.length - 1

structure Received (s : RttClient) (n copy : Nat) (c : Copy) : Prop where
  copy : s.sent[copy]? = some c
  call : c.call = s.calls
  n : n = sizeofHdr + min c.payload.length s.inbytes
  ts : (Hdr.parse s.recvhdr).ts = rttTs s.rttBase c.time
  inbuff : s.inbuff = c.payload.take s.inbytes

/-- Between two datagrams of a call, and while one of them may be answered. -/
structure Sending (s : RttClient) : Prop where
  copies : s.copies s.calls = s.rttNrexmt
  nrexmt : s.rttNrexmt ≤ RTT_MAXNREXMT
  expired : s.Expired s.calls False

structure Waiting (s : RttClient) : Prop where
  copies : s.copies s.calls = s.rttNrexmt + 1
  nrexmt : s.rttNrexmt ≤ RTT_MAXNREXMT
  expired : s.Expired s.calls True

def At (s : RttClient) : Prop :=
  match s.pc with
  | .idle => True
  | .send => s.Sending
  | .recv => s.Waiting
  | .got n copy => s.Waiting ∧ ∃ c, s.Received n copy c

structure Inv (s : RttClient) : Prop where
  formed : ∀ c ∈ s.sent, c.Formed s.calls s.rttBase
  outbuff : s.outbuff.length ≤ MAXLINE - sizeofHdr
  seq : s.sendhdr.seq = s.calls % 2 ^ 32
  few : ∀ i, s.copies i ≤ 1 + RTT_MAXNREXMT
  place : s.At
  replies : ∀ r, .reply r ∈ s.log → ∃ c, r.Matches s.sent c
  gaveUp : ∀ i, .gaveUp i ∈ s.log → i ≤ s.calls ∧ (i = s.calls → s.pc = .idle) ∧
    s.copies i = 1 + RTT_MAXNREXMT ∧ s.Expired i False

theorem init_inv : Inv dgSendRecv.init :=
  ⟨nofun,Nat.zero_le _,rfl,fun _ => Nat.zero_le _,trivial,nofun,nofun⟩

theorem copies_future (h : Inv s) {i : Nat} (hi : s.calls < i) : s.copies i = 0 := by
  refine List.countP_eq_zero.mpr fun c hc => ?_
  have hle := (h.formed c hc).call
  simp only [decide_eq_true_eq]
  omega

theorem call_inv {outbuff : List Byte} {inbytes : Nat} {now : Timeval} (h : Inv s)
    (hlen : outbuff.length ≤ MAXLINE - sizeofHdr) : Inv (s.call outbuff inbytes now) := by
  have hnew : ∀ c ∈ s.sent, c.call ≠ s.calls + 1 := fun c hc heq => by
    have hle := (h.formed c hc).call
    omega
  refine ⟨fun c hc => ?_,hlen,?_,h.few,⟨?_,Nat.zero_le _,fun k c hk hcall => ?_⟩,h.replies,
    fun i hi => ?_⟩
  · obtain ⟨hcall,hshort,base,hbytes,_⟩ := h.formed c hc
    exact ⟨Nat.le_succ_of_le hcall,hshort,base,hbytes,fun heq => absurd heq (hnew c hc)⟩
  · simp only [call,h.seq]
    omega
  · exact copies_future h (Nat.lt_succ_self s.calls)
  · exact absurd hcall (hnew c (List.mem_of_getElem? hk))
  · obtain ⟨hle,_,hcopies,hexpired⟩ := h.gaveUp i hi
    refine ⟨Nat.le_succ_of_le hle,fun heq => ?_,hcopies,hexpired⟩
    simp only [call] at heq
    omega

theorem getElem?_sent {l : List Copy} {x c : Copy} {k : Nat} (h : (l ++ [x])[k]? = some c) :
    l[k]? = some c ∨ k = l.length ∧ c = x := by
  rw [List.getElem?_append] at h
  split at h
  · exact .inl h
  · rename_i hk
    obtain ⟨h0,rfl⟩ := List.getElem?_eq_some_iff.mp h
    have hk0 : k = l.length := by
      simp only [List.length_singleton] at h0
      omega
    exact .inr ⟨hk0,by simp⟩

theorem Matches.append {l : List Copy} {r : Reply} {c : Copy} (h : r.Matches l c) (x : Copy) :
    r.Matches (l ++ [x]) c := by
  have hlt := (List.getElem?_eq_some_iff.mp h.copy).1
  exact ⟨(List.getElem?_append_left hlt).trans h.copy,h.call,h.data,h.whole,h.n,h.ms⟩

theorem sendagain_inv {now : Timeval} (h : Inv s) (hpc : s.pc = .send) :
    Inv (s.sendagain now) := by
  have hat := h.place
  rw [At,hpc] at hat
  have hcopies : ∀ i, (s.sendagain now).copies i = s.copies i + if s.calls = i then 1 else 0 := by
    intro i
    simp [copies,sendagain,List.countP_append]
  refine ⟨fun c hc => ?_,h.outbuff,h.seq,fun i => ?_,⟨?_,hat.nrexmt,fun k c hk hcall => ?_⟩,
    fun r hr => ?_,fun i hi => ?_⟩
  · rcases List.mem_append.mp hc with hc | hc
    · exact h.formed c hc
    · rw [List.mem_singleton.mp hc]
      exact ⟨Nat.le_refl _,h.outbuff,s.rttBase,by rw [← h.seq],fun _ => rfl⟩
  · rw [hcopies]
    split
    · rename_i hi
      have hcount := hat.copies
      have hle := hat.nrexmt
      rw [← hi]
      omega
    · exact h.few i
  · have hcount := hcopies s.calls
    rw [hat.copies,if_pos rfl] at hcount
    exact hcount
  · rcases getElem?_sent hk with hk | ⟨hk,_⟩
    · exact .inl ((hat.expired k c hk hcall).resolve_right fun hlast => hlast.1)
    · exact .inr ⟨trivial,by simp [sendagain,hk]⟩
  · obtain ⟨c,hc⟩ := h.replies r hr
    exact ⟨c,Matches.append hc _⟩
  · obtain ⟨hle,hidle,hcount,hexpired⟩ := h.gaveUp i hi
    have hne : s.calls ≠ i := fun heq => by
      rw [hidle heq.symm] at hpc
      cases hpc
    refine ⟨hle,fun heq => absurd heq.symm hne,?_,fun k c hk hcall => ?_⟩
    · rw [hcopies,if_neg hne]
      exact hcount
    · rcases getElem?_sent hk with hk | ⟨_,rfl⟩
      · exact .inl ((hexpired k c hk hcall).resolve_right fun hlast => hlast.1)
      · exact absurd hcall hne

/-- An echo with the right sequence number is one of the call that waits for it. -/
theorem recvmsg_received {c : Copy} {copy : Nat} (h : Inv s) (hc : s.sent[copy]? = some c)
    (hage : s.calls - c.call ≤ 2 ^ 32 - 1) :
    let n := min c.bytes.length (sizeofHdr + s.inbytes)
    let u := { s with
      pc := .got n copy
      recvhdr := c.bytes.take sizeofHdr ++ s.recvhdr.drop c.bytes.length
      inbuff := (c.bytes.drop sizeofHdr).take s.inbytes }
    (Hdr.parse u.recvhdr).seq = s.sendhdr.seq → u.Received n copy c := by
  intro n u hseq
  obtain ⟨hcall,_,base,hbytes,hbase⟩ := h.formed c (List.mem_of_getElem? hc)
  have hparse : Hdr.parse u.recvhdr = ⟨c.call % 2 ^ 32 % 2 ^ 32,rttTs base c.time % 2 ^ 32⟩ := by
    have hhead : c.bytes.take sizeofHdr = Hdr.bytes ⟨c.call % 2 ^ 32,rttTs base c.time⟩ := by
      rw [hbytes]
      exact List.take_left' (hdr_length _)
    exact (congrArg (fun l => Hdr.parse (l ++ _)) hhead).trans (parse_append _ _)
  rw [hparse,h.seq] at hseq
  have hnow : c.call = s.calls := by
    simp only at hseq
    omega
  refine ⟨hc,hnow,?_,?_,?_⟩
  · simp only [n]
    rw [hbytes,List.length_append,hdr_length,Nat.add_min_add_left]
  · rw [hparse,hbase hnow]
    exact Nat.mod_eq_of_lt (rttTs_lt _ _)
  · refine congrArg (List.take s.inbytes) ?_
    rw [hbytes]
    exact List.drop_left' (hdr_length _)

theorem recvmsg_inv {c : Copy} {copy : Nat} (h : Inv s) (hpc : s.pc = .recv)
    (hc : s.sent[copy]? = some c) (hage : s.calls - c.call ≤ 2 ^ 32 - 1) :
    Inv (s.recvmsg (dgEcho c.bytes) copy) := by
  have hat := h.place
  rw [At,hpc] at hat
  have hreceived := recvmsg_received h hc hage
  rw [(h.formed c (List.mem_of_getElem? hc)).echo]
  unfold recvmsg
  dsimp only at hreceived ⊢
  split
  · refine ⟨h.formed,h.outbuff,h.seq,h.few,?_,h.replies,h.gaveUp⟩
    rw [At]
    simp only [hpc]
    exact ⟨hat.copies,hat.nrexmt,hat.expired⟩
  · rename_i htest
    have hseq := not_not.mp (not_or.mp htest).2
    refine ⟨h.formed,h.outbuff,h.seq,h.few,?_,h.replies,fun i hi => ?_⟩
    · exact ⟨⟨hat.copies,hat.nrexmt,hat.expired⟩,c,hreceived hseq⟩
    · obtain ⟨hle,hidle,hrest⟩ := h.gaveUp i hi
      refine ⟨hle,fun heq => ?_,hrest⟩
      rw [hidle heq] at hpc
      cases hpc

theorem timeout_inv (h : Inv s) (hat : s.Waiting) (hpc : s.pc ≠ .idle) : Inv s.timeout := by
  have hexpired : ∀ (k : Nat) (c : Copy), s.sent[k]? = some c → c.call = s.calls →
      k ∈ s.expired ++ [s.sent.length - 1] := fun k c hk hcall => by
    rcases hat.expired k c hk hcall with hmem | ⟨_,hlast⟩
    · exact List.mem_append_left _ hmem
    · exact List.mem_append_right _ (List.mem_singleton.mpr hlast)
  have hold : ∀ i, .gaveUp i ∈ s.log → i ≤ s.calls ∧ i ≠ s.calls ∧
      s.copies i = 1 + RTT_MAXNREXMT ∧ ∀ (k : Nat) (c : Copy), s.sent[k]? = some c → c.call = i →
        k ∈ s.expired ++ [s.sent.length - 1] := fun i hi => by
    obtain ⟨hle,hidle,hcount,hexp⟩ := h.gaveUp i hi
    refine ⟨hle,fun heq => hpc (hidle heq),hcount,fun k c hk hcall => ?_⟩
    exact List.mem_append_left _ ((hexp k c hk hcall).resolve_right fun hlast => hlast.1)
  have hcopies := hat.copies
  have hnrexmt := hat.nrexmt
  unfold timeout
  dsimp only
  split
  · rename_i hmax
    refine ⟨h.formed,h.outbuff,h.seq,h.few,trivial,fun r hr => ?_,fun i hi => ?_⟩
    · exact h.replies r (by simpa using hr)
    · rcases List.mem_append.mp hi with hi | hi
      · obtain ⟨hle,_,hcount,hexp⟩ := hold i hi
        exact ⟨hle,fun _ => rfl,hcount,fun k c hk hcall => .inl (hexp k c hk hcall)⟩
      · cases List.mem_singleton.mp hi
        refine ⟨Nat.le_refl _,fun _ => rfl,?_,fun k c hk hcall => .inl (hexpired k c hk hcall)⟩
        exact hcopies.trans (by omega)
  · rename_i hmore
    refine ⟨h.formed,h.outbuff,h.seq,h.few,⟨hcopies,Nat.le_of_not_lt hmore,
      fun k c hk hcall => .inl (hexpired k c hk hcall)⟩,h.replies,fun i hi => ?_⟩
    obtain ⟨hle,hne,hcount,hexp⟩ := hold i hi
    exact ⟨hle,fun heq => absurd heq hne,hcount,fun k c hk hcall => .inl (hexp k c hk hcall)⟩

theorem stop_inv {n copy : Nat} {now : Timeval} {c : Copy} (h : Inv s)
    (hc : s.Received n copy c) : Inv (s.stop n copy now) := by
  have hlen : n - sizeofHdr = min c.payload.length s.inbytes := by
    rw [hc.n,Nat.add_sub_cancel_left]
  have hdata : s.inbuff.take (n - sizeofHdr) = c.payload.take s.inbytes := by
    rw [hlen,hc.inbuff,List.take_take,Nat.min_eq_left (Nat.min_le_right _ _),Nat.min_comm,
      ← List.take_eq_take_min]
  refine ⟨h.formed,h.outbuff,h.seq,h.few,trivial,fun r hr => ?_,fun i hi => ?_⟩
  · rcases List.mem_append.mp hr with hr | hr
    · exact h.replies r hr
    · cases List.mem_singleton.mp hr
      refine ⟨c,hc.copy,hc.call,hdata,fun hle => ?_,?_,?_⟩
      · exact hdata.trans (List.take_of_length_le hle)
      · simp only
        rw [hdata,hlen,List.length_take,Nat.min_comm]
      · simp only
        rw [hc.ts]
        exact rttTs_sub s.rttBase now c.time
  · obtain ⟨hle,_,hrest⟩ := h.gaveUp i (by simpa [stop] using hi)
    exact ⟨hle,fun _ => rfl,hrest⟩

/-- What a step can do, with the program point at which it is possible. -/
inductive Moves (s : RttClient) : RttAct → RttClient → Prop where
  | call {outbuff : List Byte} {inbytes : Nat} {now : Timeval} : s.pc = .idle →
      outbuff.length ≤ MAXLINE - sizeofHdr →
      Moves s (.call outbuff inbytes now) (s.call outbuff inbytes now)
  | send {now : Timeval} : s.pc = .send → Moves s (.send now) (s.sendagain now)
  | recv {copy : Nat} {c : Copy} : s.sent[copy]? = some c → s.pc = .recv →
      s.calls - c.call ≤ 2 ^ 32 - 1 → Moves s (.recv copy) (s.recvmsg (dgEcho c.bytes) copy)
  | alarm : s.pc = .recv ∨ (∃ n copy, s.pc = .got n copy) → Moves s .alarm s.timeout
  | stop {n copy : Nat} {now : Timeval} : s.pc = .got n copy →
      Moves s (.stop now) (s.stop n copy now)

theorem step_moves {t : RttClient} {a : RttAct} (ht : s.step a = some t) : Moves s a t := by
  cases a with
  | call outbuff inbytes now =>
    obtain ⟨⟨hpc,hlen⟩,ht⟩ := Option.ite_none_right_eq_some.mp ht
    cases ht
    exact .call hpc hlen
  | send now =>
    obtain ⟨hpc,ht⟩ := Option.ite_none_right_eq_some.mp ht
    cases ht
    exact .send hpc
  | recv copy =>
    simp only [step] at ht
    split at ht
    · cases ht
    · rename_i c hc
      obtain ⟨⟨hpc,hage⟩,ht⟩ := Option.ite_none_right_eq_some.mp ht
      cases ht
      exact .recv hc hpc hage
  | alarm =>
    simp only [step] at ht
    split at ht
    · rename_i hpc
      cases ht
      exact .alarm (.inl hpc)
    · rename_i n copy hpc
      cases ht
      exact .alarm (.inr ⟨n,copy,hpc⟩)
    · cases ht
  | stop now =>
    simp only [step] at ht
    split at ht
    · rename_i n copy hpc
      cases ht
      exact .stop hpc
    · cases ht

theorem step_inv (s : RttClient) (a : RttAct) (t : RttClient) (h : Inv s)
    (ht : s.step a = some t) : Inv t := by
  have hat := h.place
  cases step_moves ht with
  | call _ hlen => exact call_inv h hlen
  | send hpc => exact sendagain_inv h hpc
  | recv hc hpc hage => exact recvmsg_inv h hpc hc hage
  | alarm hpc =>
    rcases hpc with hpc | ⟨n,copy,hpc⟩
    · rw [At,hpc] at hat
      exact timeout_inv h hat (by simp [hpc])
    · rw [At,hpc] at hat
      exact timeout_inv h hat.1 (by simp [hpc])
  | stop hpc =>
    rw [At,hpc] at hat
    obtain ⟨_,c,hc⟩ := hat
    exact stop_inv h hc

theorem reachable_inv (h : dgSendRecv.Reachable s) : Inv s := h.invariant init_inv step_inv

/-- Replies match their calls, no call sends too often, and a call gives up only when all
that it sent has timed out. -/
structure Sound (s : RttClient) : Prop where
  replies : ∀ r, .reply r ∈ s.log → ∃ c, r.Matches s.sent c
  few : ∀ i, s.copies i ≤ 1 + RTT_MAXNREXMT
  gaveUp : ∀ i, .gaveUp i ∈ s.log → s.copies i = 1 + RTT_MAXNREXMT ∧ s.Expired i False

end RttClient

theorem dgSendRecv_sound (s : RttClient) (h : dgSendRecv.Reachable s) : s.Sound := by
  have hinv := RttClient.reachable_inv h
  exact ⟨hinv.replies,hinv.few,fun i hi => (hinv.gaveUp i hi).2.2⟩

/-- The first of two copies is answered late, and once more during the next call. -/
theorem dgSendRecv_sound_late :
    let acts := [.call [7] 9 ⟨5,0⟩,.send ⟨5,1000⟩,.alarm,.send ⟨8,0⟩,.recv 0,.stop ⟨8,2000⟩,
      .call [8] 9 ⟨9,0⟩,.send ⟨9,0⟩,.recv 0,.recv 2,.stop ⟨9,4000⟩]
    ∃ s, dgSendRecv.run dgSendRecv.init acts = some s ∧
      s.log = [.reply ⟨1,9,1,[7],3001,⟨8,2000⟩,0⟩,.reply ⟨2,9,1,[8],4,⟨9,4000⟩,2⟩] ∧ s.Sound := by
  intro acts
  have hrun : (dgSendRecv.run dgSendRecv.init acts).map RttClient.log =
      some [.reply ⟨1,9,1,[7],3001,⟨8,2000⟩,0⟩,.reply ⟨2,9,1,[8],4,⟨9,4000⟩,2⟩] := by
    decide +kernel
  obtain ⟨s,hs,hlog⟩ := Option.map_eq_some_iff.mp hrun
  exact ⟨s,hs,hlog,dgSendRecv_sound s ⟨acts,hs⟩⟩

end UnixNet
