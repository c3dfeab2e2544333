import UnixNet.Library.Machine
import UnixNet.Library.Memory
import UnixNet.LineBuffer
import UnixNet.PacketFields
set_option autoImplicit false

/-! traceroute: `recv_v4` and `recv_v6`, which wait for the answer to one probe. -/

namespace UnixNet
open Inspect

def BUFSIZE : Nat := 1500
def ICMP_TIMXCEED_INTRANS : Byte := 0
def ICMP6_TIME_EXCEED_TRANSIT : Byte := 0

/-- The globals that the loops compare with, and their argument `seq`. -/
structure Probe where
  sport : UInt16
  dport : UInt16
  seq : Nat
  verbose : Bool
  deriving DecidableEq, Repr

/-- What one turn of the loop does with a datagram: it goes on, having printed a type and a code
or not, or it leaves the loop with `ret` assigned or not. -/
inductive Turn where
  | again (printed : Option (Byte × Byte)) : Turn
  | leave (ret : Option Int) : Turn
  deriving DecidableEq, Repr

namespace Probe

/-- `htons(dport + seq)`, after `ntohs`. -/
def port (k : Probe) : Nat := (k.dport.toNat + k.seq) % 2 ^ 16

/-- The three tests of the quoted packet, each of which is made if the one before holds. -/
def ours (k : Probe) (proto : Field Byte) (udp : Nat) : Field Bool := do
  if (← proto) = IPPROTO_UDP then
    if (← netShort udp) = k.sport.toNat then
      if (← netShort (udp + 2)) = k.port then pure true else pure false
    else pure false
  else pure false

def print (k : Probe) (icmp : Nat) : Field Turn := do
  if k.verbose then
    let type ← Icmp.type icmp
    let code ← Icmp.code icmp
    pure (.again (some (type,code)))
  else pure (.again none)

/-- Whether the type is `exceeded` and then the code `transit`. -/
def inTransit (type exceeded transit : Byte) (icmp : Nat) : Field Bool := do
  if type = exceeded then
    if (← Icmp.code icmp) = transit then pure true else pure false
  else pure false

/-- The value of `ret` for a message that a destination is unreachable. -/
def unreachable (port : Byte) (icmp : Nat) : Field Int := do
  let code ← Icmp.code icmp
  pure (if code = port then -1 else code.toNat)

/-- The body of both branches of `recv_v4`. `icmplen` is at least 8, so that its conversion to
`size_t` changes nothing. -/
def inner (k : Probe) (icmp : Nat) (icmplen : Int) (ret : Field Int) : Field Turn := do
  if icmplen < 8 + sizeofIp then pure (.again none)
  else
    let hip := icmp + 8
    let hlen2 ← Ip.hlen hip
    if icmplen < 8 + hlen2 + 4 then pure (.again none)
    else
      let udp := hip + hlen2
      if ← k.ours (Ip.p hip) udp then
        let ret ← ret
        pure (.leave (some ret))
      else k.print icmp

/-- `recv_v4` after `recvfrom` has returned `n`. -/
def turnV4 (k : Probe) (n : Nat) : Field Turn := do
  let hlen1 ← Ip.hlen 0
  let icmp := hlen1
  let icmplen : Int := n - hlen1
  if icmplen < 8 then pure (.again none)
  else
    let type ← Icmp.type icmp
    if ← inTransit type ICMP_TIMXCEED ICMP_TIMXCEED_INTRANS icmp then
      k.inner icmp icmplen (pure (-2))
    else if type = ICMP_UNREACH then
      k.inner icmp icmplen (unreachable ICMP_UNREACH_PORT icmp)
    else k.print icmp

/-- `recv_v6` after `recvfrom` has returned `n`. In its first branch the `break` is not guarded by
the test above it. -/
def turnV6 (k : Probe) (n : Nat) : Field Turn := do
  if n < 8 then pure (.again none)
  else
    let hip6 := 8
    let udp := 8 + sizeofIp6Hdr
    let type ← Icmp.type 0
    if ← inTransit type ICMP6_TIME_EXCEEDED ICMP6_TIME_EXCEED_TRANSIT 0 then
      if n < 8 + sizeofIp6Hdr + 4 then pure (.again none)
      else
        if ← k.ours (Ip6.nxt hip6) udp then pure (.leave (some (-2)))
        else pure (.leave none)
    else if type = ICMP6_DST_UNREACH then
      if n < 8 + sizeofIp6Hdr + 4 then pure (.again none)
      else
        if ← k.ours (Ip6.nxt hip6) udp then
          let ret ← unreachable ICMP6_DST_UNREACH_NOPORT 0
          pure (.leave (some ret))
        else pure (.again none)
    else k.print 0

end Probe

/-- `reset` and `alarm` are before the first two statements, `test` before `if (gotalarm)`,
`recvfrom` after it, and `blocked` inside the call. `got` is after it with the bytes it
returned, and `found` after the loop. -/
inductive RecvPc where
  | reset : RecvPc
  | alarm : RecvPc
  | test : RecvPc
  | recvfrom : RecvPc
  | blocked : RecvPc
  | got (d : List Byte) : RecvPc
  | found (ret : Option Int) : RecvPc
  | returned (ret : Option Int) : RecvPc
  /-- After err_sys. -/
  | exited : RecvPc
  deriving DecidableEq, Repr

/-- `pending` says that the alarm is set and `expired` that it has been delivered. `queue` is what
the raw socket holds and `handled` what the loop has looked at. -/
structure RecvProbe where
  pc : RecvPc
  gotalarm : Bool
  pending : Bool
  expired : Bool
  queue : List (List Byte)
  recvbuf : Nat → Byte
  handled : List (List Byte)
  printed : List (Byte × Byte)

/-- The function takes its next step; `recvfrom` fails; SIGALRM is delivered; a datagram comes. -/
inductive RecvAct where
  | go : RecvAct
  | fail (e : Errno) : RecvAct
  | sigalrm : RecvAct
  | arrive (d : List Byte) : RecvAct
  deriving DecidableEq, Repr

namespace RecvProbe

/-- `recvfrom` with a datagram in the queue, which is cut at the size of the buffer. -/
def receive (s : RecvProbe) (d : List Byte) (ds : List (List Byte)) : RecvProbe :=
  { s with
    pc := .got (d.take BUFSIZE)
    queue := ds
    recvbuf := fill s.recvbuf (d.take BUFSIZE) }

def handle (s : RecvProbe) (d : List Byte) : Turn → RecvProbe
  | .again printed =>
    { s with
      pc := .test
      handled := s.handled ++ [d]
      printed := s.printed ++ printed.toList }
  | .leave ret => { s with pc := .found ret, handled := s.handled ++ [d] }

def go (turn : Nat → Field Turn) (s : RecvProbe) : Option RecvProbe :=
  match s.pc with
  | .reset => some { s with pc := .alarm, gotalarm := false }
  | .alarm => some { s with pc := .test, pending := true }
  | .test => some { s with pc := if s.gotalarm then .returned (some (-3)) else .recvfrom }
  | .recvfrom =>
    match s.queue with
    | [] => some { s with pc := .blocked }
    | d :: ds => some (s.receive d ds)
  | .blocked =>
    match s.queue with
    | [] => none
    | d :: ds => some (s.receive d ds)
  | .got d => some (s.handle d ((turn d.length).run s.recvbuf))
  | .found ret => some { s with pc := .returned ret, pending := false }
  | .returned _ | .exited => none

/-- `sig_alrm` sets the flag; a `recvfrom` that blocks returns with EINTR. -/
def sigAlrm (s : RecvProbe) : Option RecvProbe :=
  if s.pending then
    some { s with
      pc := if s.pc = .blocked then .test else s.pc
      gotalarm := true
      pending := false
      expired := true }
  else none

def fail (s : RecvProbe) (e : Errno) : Option RecvProbe :=
  if s.pc = .recvfrom ∨ s.pc = .blocked then
    some { s with pc := if e = .eintr then .test else .exited }
  else none

/-- The raw socket delivers datagrams of at least `least` bytes. -/
def step (least : Nat) (turn : Nat → Field Turn) (s : RecvProbe) : RecvAct → Option RecvProbe
  | .go => s.go turn
  | .fail e => s.fail e
  | .sigalrm => s.sigAlrm
  | .arrive d => if least ≤ d.length then some { s with queue := s.queue ++ [d] } else none

end RecvProbe

/-- The loop that the two functions share, with the flag and the buffer as the call before left
them. -/
def recvLoop (least : Nat) (turn : Nat → Field Turn) (gotalarm : Bool) (recvbuf : Nat → Byte) :
    Machine RecvProbe RecvAct :=
  ⟨⟨.reset,gotalarm,false,false,[],recvbuf,[],[]⟩,RecvProbe.step least turn⟩

/-- A raw IPv4 socket delivers the IP header as well. -/
def recvV4 (k : Probe) : Bool → (Nat → Byte) → Machine RecvProbe RecvAct :=
  recvLoop sizeofIp k.turnV4

def recvV6 (k : Probe) : Bool → (Nat → Byte) → Machine RecvProbe RecvAct := recvLoop 0 k.turnV6

/-- The buffer starts with the datagram; what is behind it is left from before. -/
def Holds (buf : Nat → Byte) (d : List Byte) : Prop := ∀ i < d.length, d[i]? = some (buf i)

theorem fill_holds (buf : Nat → Byte) (d : List Byte) : Holds (fill buf d) d := by
  intro i hi
  rw [fill,List.getD_eq_getElem?_getD,List.getElem?_eq_getElem hi,Option.getD_some]

theorem Holds.netShort {buf : Nat → Byte} {d : List Byte} (h : Holds buf d) {i : Nat}
    (hi : i + 2 ≤ d.length) : Memory.loadBig d i 2 = some (netValue [buf i,buf (i + 1)]) := by
  have hload : Memory.load d i 2 = some [buf i,buf (i + 1)] := by
    have h0 := h i (by omega)
    have h1 := h (i + 1) (by omega)
    rw [Memory.load,if_pos hi]
    refine congrArg some (List.ext_getElem? fun j => ?_)
    rcases j with _ | _ | j
    · simpa using h0
    · simpa using h1
    · rw [List.getElem?_eq_none (by rw [List.length_take]; omega)]
      rfl
  rw [Memory.loadBig,hload]
  rfl

namespace Probe
variable {k : Probe} {n : Nat} {buf : Nat → Byte}

/-- The value that a type and a code stand for. -/
def Means (exceeded transit unreach port : Byte) (type code : Option Byte) (ret : Int) : Prop :=
  type = some exceeded ∧ code = some transit ∧ ret = -2 ∨
    type = some unreach ∧ (code = some port ∧ ret = -1 ∨
      ∃ c, code = some c ∧ c ≠ port ∧ ret = c.toNat)

/-- `d` tells that the quoted packet, whose UDP header is at `udp`, is the probe. -/
structure Quoted (k : Probe) (d : List Byte) (proto udp : Nat) : Prop where
  proto : d[proto]? = some IPPROTO_UDP
  sport : Memory.loadBig d udp 2 = some k.sport.toNat
  dport : Memory.loadBig d (udp + 2) 2 = some k.port

/-- The IP header at `ip` is followed by what is at `next`. -/
def Follows (d : List Byte) (ip next : Nat) : Prop :=
  ∃ b, d[ip]? = some b ∧ next = ip + b.toNat % 16 * 4

/-- `ret` is the answer to the probe that `d` gives. -/
def Answers4 (k : Probe) (d : List Byte) (ret : Int) : Prop :=
  ∃ icmp udp, Follows d 0 icmp ∧ Follows d (icmp + 8) udp ∧ k.Quoted d (icmp + 8 + 9) udp ∧
    Means ICMP_TIMXCEED ICMP_TIMXCEED_INTRANS ICMP_UNREACH ICMP_UNREACH_PORT d[icmp]? d[icmp + 1]?
      ret

def Quotes6 (k : Probe) (d : List Byte) : Prop := k.Quoted d (8 + 6) (8 + sizeofIp6Hdr)

def Answers6 (k : Probe) (d : List Byte) (ret : Int) : Prop :=
  k.Quotes6 d ∧ Means ICMP6_TIME_EXCEEDED ICMP6_TIME_EXCEED_TRANSIT ICMP6_DST_UNREACH
    ICMP6_DST_UNREACH_NOPORT d[0]? d[1]? ret

@[simp] theorem run_ours (proto : Field Byte) (udp : Nat) :
    (k.ours proto udp).run buf = true ↔ proto.run buf = IPPROTO_UDP ∧
      netValue [buf udp,buf (udp + 1)] = k.sport.toNat ∧
      netValue [buf (udp + 2),buf (udp + 3)] = k.port := by
  by_cases hproto : proto.run buf = IPPROTO_UDP
  · by_cases hsport : netValue [buf udp,buf (udp + 1)] = k.sport.toNat
    · simp [ours,hproto,hsport]
    · simp [ours,hproto,hsport]
  · simp [ours,hproto]

theorem within_ours {proto : Field Byte} {udp : Nat} (hproto : proto.Within n buf)
    (hudp : udp + 4 ≤ n) : (k.ours proto udp).Within n buf := by
  simp only [ours,within_bind,within_ite,within_netShort,within_pure,ite_self,and_true,hproto,
    true_and]
  split
  · refine ⟨by omega,?_⟩
    split
    · omega
    · trivial
  · trivial

theorem within_print {icmp : Nat} (h : icmp + 2 ≤ n) : (k.print icmp).Within n buf := by
  simp only [print,within_ite,within_bind,Icmp.type,Icmp.code,within_cell,within_pure,and_true]
  split
  · omega
  · trivial

theorem run_print (icmp : Nat) : ∃ printed, (k.print icmp).run buf = .again printed := by
  simp only [print,run_ite,run_bind,run_pure]
  split
  · exact ⟨_,rfl⟩
  · exact ⟨_,rfl⟩

@[simp] theorem run_inTransit (type exceeded transit : Byte) (icmp : Nat) :
    (inTransit type exceeded transit icmp).run buf = true ↔
      type = exceeded ∧ buf (icmp + 1) = transit := by
  by_cases htype : type = exceeded
  · simp [inTransit,htype]
  · simp [inTransit,htype]

theorem within_inTransit {type exceeded transit : Byte} {icmp : Nat} (h : icmp + 2 ≤ n) :
    (inTransit type exceeded transit icmp).Within n buf := by
  simp only [inTransit,within_ite,within_bind,Icmp.code,within_cell,within_pure,ite_self,and_true]
  split
  · omega
  · trivial

theorem within_inner {icmp : Nat} {icmplen : Int} {ret : Field Int} (hlen : icmp + icmplen = n)
    (_ : 8 ≤ icmplen) (hret : ret.Within n buf) : (k.inner icmp icmplen ret).Within n buf := by
  simp only [inner,within_ite,within_bind,within_pure,Ip.within_hlen,Ip.run_hlen,hret,true_and,
    sizeofIp]
  split
  · trivial
  · refine ⟨by omega,?_⟩
    split
    · trivial
    · refine ⟨within_ours ?_ (by omega),?_⟩
      · rw [Ip.p,within_cell]
        omega
      · split
        · trivial
        · exact within_print (by omega)

theorem turnV4_within (h : sizeofIp ≤ n) : (k.turnV4 n).Within n buf := by
  rw [sizeofIp] at h
  simp only [turnV4,within_ite,within_bind,within_pure,Ip.within_hlen,Ip.run_hlen,Icmp.type,
    within_cell,run_cell]
  refine ⟨by omega,?_⟩
  split
  · trivial
  · refine ⟨by omega,within_inTransit (by omega),?_⟩
    split
    · exact within_inner (by omega) (by omega) trivial
    · split
      · refine within_inner (by omega) (by omega) ?_
        simp only [unreachable,within_bind,Icmp.code,within_cell,within_pure,and_true]
        omega
      · exact within_print (by omega)

theorem inner_leave {icmp : Nat} {icmplen : Int} {ret : Field Int} {out : Option Int}
    (h : (k.inner icmp icmplen ret).run buf = .leave out) :
    let udp := icmp + 8 + (buf (icmp + 8)).toNat % 16 * 4
    out = some (ret.run buf) ∧ 28 ≤ icmplen ∧ udp + 4 ≤ icmp + icmplen ∧
      buf (icmp + 8 + 9) = IPPROTO_UDP ∧ netValue [buf udp,buf (udp + 1)] = k.sport.toNat ∧
      netValue [buf (udp + 2),buf (udp + 3)] = k.port := by
  intro udp
  rw [inner,run_ite] at h
  split at h
  · cases h
  · rename_i hip
    rw [run_bind,run_ite,Ip.run_hlen] at h
    split at h
    · cases h
    · rw [run_bind,run_ite] at h
      split at h
      · rename_i hours
        rw [run_ours] at hours
        rw [run_bind] at h
        cases h
        rw [sizeofIp] at hip
        exact ⟨rfl,by omega,by omega,hours⟩
      · obtain ⟨printed,hprinted⟩ : ∃ printed, (k.print icmp).run buf = .again printed :=
          run_print icmp
        rw [hprinted] at h
        cases h

/-- The tests of the loop are what `Quoted` says. -/
theorem quoted_iff {d : List Byte} {proto udp : Nat} (hbuf : Holds buf d)
    (hproto : proto < d.length) (hudp : udp + 4 ≤ d.length) :
    k.Quoted d proto udp ↔ (k.ours (cell proto) udp).run buf = true := by
  rw [run_ours,run_cell]
  have hsport := hbuf.netShort (i := udp) (by omega)
  have hdport := hbuf.netShort (i := udp + 2) (by omega)
  constructor
  · intro h
    have hp := h.proto
    have hs := h.sport
    have hd := h.dport
    rw [hbuf proto hproto] at hp
    rw [hsport] at hs
    rw [hdport] at hd
    exact ⟨Option.some.inj hp,Option.some.inj hs,Option.some.inj hd⟩
  · rintro ⟨hp,hs,hd⟩
    exact ⟨by rw [hbuf proto hproto,hp],by rw [hsport,hs],by rw [hdport,hd]⟩

theorem unreachable_means {exceeded transit unreach port : Byte} {icmp : Nat} :
    Means exceeded transit unreach port (some unreach) (some (buf (icmp + 1)))
      ((unreachable port icmp).run buf) := by
  refine .inr ⟨rfl,?_⟩
  rw [unreachable,run_bind,run_pure,Icmp.code,run_cell]
  by_cases hcode : buf (icmp + 1) = port
  · exact .inl ⟨congrArg some hcode,if_pos hcode⟩
  · exact .inr ⟨_,rfl,hcode,if_neg hcode⟩

theorem answers4_of_inner {d : List Byte} {icmp : Nat} {out : Option Int} {ret : Field Int}
    (hbuf : Holds buf d) (hicmp : icmp = (buf 0).toNat % 16 * 4) (hlen : 0 < d.length)
    (hmeans : Means ICMP_TIMXCEED ICMP_TIMXCEED_INTRANS ICMP_UNREACH ICMP_UNREACH_PORT
      (some (buf icmp)) (some (buf (icmp + 1))) (ret.run buf))
    (h : (k.inner icmp (d.length - icmp) ret).run buf = .leave out) :
    ∃ ret, out = some ret ∧ k.Answers4 d ret := by
  obtain ⟨hout,hlong,hudp,hours⟩ := inner_leave h
  refine ⟨_,hout,icmp,icmp + 8 + (buf (icmp + 8)).toNat % 16 * 4,?_,?_,?_,?_⟩
  · exact ⟨buf 0,hbuf 0 hlen,by omega⟩
  · exact ⟨buf (icmp + 8),hbuf _ (by omega),rfl⟩
  · refine (quoted_iff hbuf (by omega) (by omega)).mpr ?_
    rw [run_ours,run_cell]
    exact hours
  · rw [hbuf icmp (by omega),hbuf (icmp + 1) (by omega)]
    exact hmeans

theorem turnV4_leave {d : List Byte} {out : Option Int} (hbuf : Holds buf d)
    (hlen : sizeofIp ≤ d.length) (h : (k.turnV4 d.length).run buf = .leave out) :
    ∃ ret, out = some ret ∧ k.Answers4 d ret := by
  have hpos : 0 < d.length := Nat.lt_of_lt_of_le (by decide) hlen
  rw [turnV4,run_bind,run_ite,Ip.run_hlen] at h
  split at h
  · cases h
  · rw [run_bind,run_bind,run_ite,run_ite,Icmp.type,run_cell] at h
    split at h
    · rename_i htransit
      obtain ⟨htype,hcode⟩ := (run_inTransit _ _ _ _).mp htransit
      refine answers4_of_inner hbuf rfl hpos ?_ h
      exact .inl ⟨congrArg some htype,congrArg some hcode,rfl⟩
    · split at h
      · rename_i htype
        refine answers4_of_inner hbuf rfl hpos ?_ h
        rw [htype]
        exact unreachable_means
      · obtain ⟨printed,hprinted⟩ : ∃ printed,
            (k.print ((buf 0).toNat % 16 * 4)).run buf = .again printed := run_print _
        rw [hprinted] at h
        cases h

/-- A message that a hop limit was exceeded, long enough to be looked at, about another packet. -/
def Stray (k : Probe) (d : List Byte) : Prop :=
  8 + sizeofIp6Hdr + 4 ≤ d.length ∧ d[0]? = some ICMP6_TIME_EXCEEDED ∧
    d[1]? = some ICMP6_TIME_EXCEED_TRANSIT ∧ ¬ k.Quotes6 d

theorem quotes6_iff {d : List Byte} (hbuf : Holds buf d) (hlen : 8 + sizeofIp6Hdr + 4 ≤ d.length) :
    k.Quotes6 d ↔ (k.ours (Ip6.nxt 8) (8 + sizeofIp6Hdr)).run buf = true := by
  rw [sizeofIp6Hdr] at hlen
  exact quoted_iff hbuf (by omega) hlen

/-- What a turn of `recv_v6` comes to: it ends with no value for a stray message only. -/
theorem turnV6_cases {d : List Byte} (hbuf : Holds buf d) :
    (∃ printed, (k.turnV6 d.length).run buf = .again printed) ∧ ¬ k.Stray d ∨
      (k.turnV6 d.length).run buf = .leave none ∧ k.Stray d ∨
      ∃ ret, (k.turnV6 d.length).run buf = .leave (some ret) ∧ k.Answers6 d ret ∧ ¬ k.Stray d := by
  rw [turnV6,run_ite]
  split
  · rename_i hshort
    refine .inl ⟨⟨_,rfl⟩,fun h => ?_⟩
    have hlong := h.1
    rw [sizeofIp6Hdr] at hlong
    omega
  · have h0 : d[0]? = some (buf 0) := hbuf 0 (by omega)
    have h1 : d[1]? = some (buf 1) := hbuf 1 (by omega)
    rw [run_bind,run_bind,run_ite,run_ite,run_ite,run_ite,Icmp.type,run_cell]
    split
    · rename_i htransit
      obtain ⟨htype,hcode⟩ := (run_inTransit _ _ _ _).mp htransit
      split
      · rename_i hshort
        exact .inl ⟨⟨_,rfl⟩,fun h => absurd h.1 (Nat.not_le.mpr hshort)⟩
      · rename_i hlong
        have hlen := Nat.not_lt.mp hlong
        rw [run_bind,run_ite]
        split
        · rename_i hours
          have hquotes := (quotes6_iff hbuf hlen).mpr hours
          refine .inr (.inr ⟨-2,rfl,⟨hquotes,.inl ?_⟩,fun h => h.2.2.2 hquotes⟩)
          exact ⟨h0.trans (congrArg some htype),h1.trans (congrArg some hcode),rfl⟩
        · rename_i hours
          refine .inr (.inl ⟨rfl,hlen,h0.trans (congrArg some htype),
            h1.trans (congrArg some hcode),?_⟩)
          exact fun h => hours ((quotes6_iff hbuf hlen).mp h)
    · rename_i htransit
      have hstray : ¬ k.Stray d := fun h => by
        refine htransit ((run_inTransit _ _ _ _).mpr ⟨?_,?_⟩)
        · exact Option.some.inj (h0.symm.trans h.2.1)
        · exact Option.some.inj (h1.symm.trans h.2.2.1)
      split
      · rename_i htype
        split
        · exact .inl ⟨⟨_,rfl⟩,hstray⟩
        · rename_i hlong
          have hlen := Nat.not_lt.mp hlong
          rw [run_bind,run_ite]
          split
          · rename_i hours
            refine .inr (.inr
              ⟨_,by rw [run_bind]; rfl,⟨(quotes6_iff hbuf hlen).mpr hours,?_⟩,hstray⟩)
            rw [h0,h1,htype]
            exact unreachable_means
          · exact .inl ⟨⟨_,rfl⟩,hstray⟩
      · exact .inl ⟨run_print 0,hstray⟩

end Probe

namespace RecvProbe
variable {least : Nat} {turn : Nat → Field Turn} {s t : RecvProbe}

/-- The datagram can come to this turn, whatever is left behind it in the buffer. -/
def Comes (turn : Nat → Field Turn) (d : List Byte) (out : Turn) : Prop :=
  ∃ buf, Holds buf d ∧ (turn d.length).run buf = out

def Passed (turn : Nat → Field Turn) (d : List Byte) : Prop :=
  ∃ printed, Comes turn d (.again printed)

/-- How the loop stands to the datagrams that it has looked at. -/
inductive History (turn : Nat → Field Turn) (s : RecvProbe) : Prop where
  | waiting : (∀ d ∈ s.handled, Passed turn d) → (∀ ret, s.pc ≠ .found ret) →
      (∀ ret, s.pc = .returned ret → ret = some (-3)) → History turn s
  | left {ds : List (List Byte)} {d : List Byte} {ret : Option Int} :
      s.handled = ds ++ [d] → (∀ x ∈ ds, Passed turn x) → Comes turn d (.leave ret) →
      s.pc = .found ret ∨ s.pc = .returned ret → History turn s

structure Inv (least : Nat) (turn : Nat → Field Turn) (s : RecvProbe) : Prop where
  queue : ∀ d ∈ s.queue, least ≤ d.length
  got : ∀ d, s.pc = .got d → Holds s.recvbuf d ∧ min least BUFSIZE ≤ d.length
  handled : ∀ d ∈ s.handled, min least BUFSIZE ≤ d.length
  history : s.History turn

/-- Before the loop is left every datagram has been passed over. -/
theorem History.passed (h : s.History turn) (hfound : ∀ ret, s.pc ≠ .found ret)
    (hreturned : ∀ ret, s.pc ≠ .returned ret) : ∀ d ∈ s.handled, Passed turn d := by
  cases h with
  | waiting hall _ _ => exact hall
  | left _ _ _ hpc =>
    rcases hpc with hpc | hpc
    · exact absurd hpc (hfound _)
    · exact absurd hpc (hreturned _)

theorem receive_inv {d : List Byte} {ds : List (List Byte)} (h : Inv least turn s)
    (hqueue : s.queue = d :: ds) (hpassed : ∀ d ∈ s.handled, Passed turn d) :
    Inv least turn (s.receive d ds) := by
  refine ⟨fun x hx => h.queue x (hqueue ▸ List.mem_cons_of_mem d hx),fun x hx => ?_,
    h.handled,.waiting hpassed nofun nofun⟩
  cases hx
  refine ⟨fill_holds _ _,?_⟩
  have hleast := h.queue d (hqueue ▸ List.mem_cons_self)
  rw [List.length_take]
  omega

theorem handle_inv {d : List Byte} (h : Inv least turn s) (hpc : s.pc = .got d) :
    Inv least turn (s.handle d ((turn d.length).run s.recvbuf)) := by
  have hpassed := h.history.passed (by simp [hpc]) (by simp [hpc])
  obtain ⟨hbuf,hlen⟩ := h.got d hpc
  have hhandled : ∀ x ∈ s.handled ++ [d], min least BUFSIZE ≤ x.length := fun x hx => by
    rcases List.mem_append.mp hx with hx | hx
    · exact h.handled x hx
    · cases List.mem_singleton.mp hx
      exact hlen
  cases hout : (turn d.length).run s.recvbuf with
  | again printed =>
    refine ⟨h.queue,nofun,hhandled,.waiting (fun x hx => ?_) nofun nofun⟩
    rcases List.mem_append.mp hx with hx | hx
    · exact hpassed x hx
    · cases List.mem_singleton.mp hx
      exact ⟨printed,s.recvbuf,hbuf,hout⟩
  | leave ret => exact ⟨h.queue,nofun,hhandled,.left rfl hpassed ⟨s.recvbuf,hbuf,hout⟩ (.inl rfl)⟩

theorem go_inv (h : Inv least turn s) (ht : s.go turn = some t) : Inv least turn t := by
  cases hpc : s.pc
  all_goals
    simp only [go,hpc] at ht
  case reset =>
    cases ht
    exact ⟨h.queue,nofun,h.handled,
      .waiting (h.history.passed (by simp [hpc]) (by simp [hpc])) nofun nofun⟩
  case alarm =>
    cases ht
    exact ⟨h.queue,nofun,h.handled,
      .waiting (h.history.passed (by simp [hpc]) (by simp [hpc])) nofun nofun⟩
  case test =>
    cases ht
    have hpassed := h.history.passed (by simp [hpc]) (by simp [hpc])
    refine ⟨h.queue,fun d hd => ?_,h.handled,
      .waiting hpassed (fun ret hret => ?_) fun ret hret => ?_⟩
    · simp only at hd
      split at hd <;> cases hd
    · simp only at hret
      split at hret <;> cases hret
    · simp only at hret
      split at hret <;> cases hret
      rfl
  case recvfrom =>
    have hpassed := h.history.passed (by simp [hpc]) (by simp [hpc])
    split at ht
    · cases ht
      exact ⟨h.queue,nofun,h.handled,.waiting hpassed nofun nofun⟩
    · rename_i hqueue
      cases ht
      exact receive_inv h hqueue hpassed
  case blocked =>
    have hpassed := h.history.passed (by simp [hpc]) (by simp [hpc])
    split at ht
    · cases ht
    · rename_i hqueue
      cases ht
      exact receive_inv h hqueue hpassed
  case got d =>
    cases ht
    exact handle_inv h hpc
  case found ret =>
    cases ht
    refine ⟨h.queue,nofun,h.handled,?_⟩
    cases h.history with
    | waiting _ hfound _ => exact absurd hpc (hfound ret)
    | left hhandled hpassed hcomes hleft =>
      refine .left hhandled hpassed hcomes (.inr ?_)
      rcases hleft with hleft | hleft
      · rw [hpc] at hleft
        cases hleft
        rfl
      · rw [hpc] at hleft
        cases hleft
  case returned ret => cases ht
  case exited => cases ht

/-- A signal or a failure of `recvfrom` moves the loop back to its test, if at all. -/
theorem moved_inv {pc : RecvPc} {gotalarm pending expired : Bool} (h : Inv least turn s)
    (hpc : pc = s.pc ∨ (∀ d, s.pc ≠ .got d) ∧ (∀ ret, s.pc ≠ .found ret) ∧
      (∀ ret, s.pc ≠ .returned ret) ∧ (pc = .test ∨ pc = .exited)) :
    Inv least turn { s with
      pc := pc, gotalarm := gotalarm, pending := pending, expired := expired } := by
  rcases hpc with rfl | ⟨_,hfound,hreturned,hpc⟩
  · refine ⟨h.queue,h.got,h.handled,?_⟩
    cases h.history with
    | waiting hpassed hfound hreturned => exact .waiting hpassed hfound hreturned
    | left hhandled hpassed hcomes hleft => exact .left hhandled hpassed hcomes hleft
  · have hpassed := h.history.passed hfound hreturned
    rcases hpc with rfl | rfl
    · exact ⟨h.queue,nofun,h.handled,.waiting hpassed nofun nofun⟩
    · exact ⟨h.queue,nofun,h.handled,.waiting hpassed nofun nofun⟩

theorem step_inv (s : RecvProbe) (a : RecvAct) (t : RecvProbe) (h : Inv least turn s)
    (ht : s.step least turn a = some t) : Inv least turn t := by
  cases a with
  | go => exact go_inv h ht
  | fail e =>
    obtain ⟨hpc,ht⟩ := Option.ite_none_right_eq_some.mp ht
    cases ht
    refine moved_inv h (.inr ⟨?_,?_,?_,?_⟩)
    · rcases hpc with hpc | hpc <;> simp [hpc]
    · rcases hpc with hpc | hpc <;> simp [hpc]
    · rcases hpc with hpc | hpc <;> simp [hpc]
    · split
      · exact .inl rfl
      · exact .inr rfl
  | sigalrm =>
    obtain ⟨_,ht⟩ := Option.ite_none_right_eq_some.mp ht
    cases ht
    refine moved_inv h ?_
    split
    · rename_i hpc
      exact .inr ⟨by simp [hpc],by simp [hpc],by simp [hpc],.inl rfl⟩
    · exact .inl rfl
  | arrive d =>
    obtain ⟨hleast,ht⟩ := Option.ite_none_right_eq_some.mp ht
    cases ht
    refine ⟨fun x hx => ?_,h.got,h.handled,?_⟩
    · rcases List.mem_append.mp hx with hx | hx
      · exact h.queue x hx
      · cases List.mem_singleton.mp hx
        exact hleast
    · cases h.history with
      | waiting hpassed hfound hreturned => exact .waiting hpassed hfound hreturned
      | left hhandled hpassed hcomes hleft => exact .left hhandled hpassed hcomes hleft

theorem reachable_inv {gotalarm : Bool} {recvbuf : Nat → Byte}
    (h : (recvLoop least turn gotalarm recvbuf).Reachable s) : Inv least turn s :=
  h.invariant ⟨nofun,nofun,nofun,.waiting nofun nofun nofun⟩ step_inv

/-- A result other than -3 is the answer of the last datagram, and always assigned. -/
def Attributed (answers : List Byte → Int → Prop) (s : RecvProbe) : Prop :=
  ∀ out, s.pc = .found out ∨ s.pc = .returned out → out = some (-3) ∨
    ∃ ret d, out = some ret ∧ s.handled.getLast? = some d ∧ answers d ret

theorem attributed_of_left {answers : List Byte → Int → Prop} (h : s.History turn)
    (hleft : ∀ d ∈ s.handled, ∀ out, Comes turn d (.leave out) →
      ∃ ret, out = some ret ∧ answers d ret) : s.Attributed answers := by
  intro out hout
  cases h with
  | waiting _ hfound hreturned =>
    rcases hout with hout | hout
    · exact absurd hout (hfound out)
    · exact .inl (hreturned out hout)
  | @left ds d ret hhandled _ hcomes hpc =>
    have hsame : out = ret := by
      rcases hout with hout | hout <;> rcases hpc with hpc | hpc <;> simp_all
    subst hsame
    obtain ⟨r,hr,hanswers⟩ := hleft d (by simp [hhandled]) out hcomes
    exact .inr ⟨r,d,hr,by simp [hhandled],hanswers⟩

/-- Each turn stays inside the datagram and passes over it if it is not the answer. -/
structure Sound4 (k : Probe) (s : RecvProbe) : Prop where
  within : ∀ d, s.pc = .got d → (k.turnV4 d.length).Within d.length s.recvbuf
  skips : ∀ d t, s.pc = .got d → s.go k.turnV4 = some t → t.pc = .test ∨
    ∃ ret, t.pc = .found (some ret) ∧ k.Answers4 d ret
  attributed : s.Attributed k.Answers4

end RecvProbe

theorem recvV4_sound (k : Probe) (gotalarm : Bool) (recvbuf : Nat → Byte) (s : RecvProbe)
    (h : (recvV4 k gotalarm recvbuf).Reachable s) : s.Sound4 k := by
  have hinv := RecvProbe.reachable_inv h
  have hleast : min sizeofIp BUFSIZE = sizeofIp := by decide
  refine ⟨fun d hd => ?_,fun d t hd ht => ?_,?_⟩
  · have hlen := (hinv.got d hd).2
    exact Probe.turnV4_within (hleast ▸ hlen)
  · obtain ⟨hbuf,hlen⟩ := hinv.got d hd
    simp only [RecvProbe.go,hd] at ht
    cases ht
    cases hout : (k.turnV4 d.length).run s.recvbuf with
    | again printed => exact .inl rfl
    | leave out =>
      obtain ⟨ret,rfl,hanswers⟩ := Probe.turnV4_leave hbuf (hleast ▸ hlen) hout
      exact .inr ⟨ret,rfl,hanswers⟩
  · refine RecvProbe.attributed_of_left hinv.history fun d hd out hcomes => ?_
    obtain ⟨buf,hbuf,hout⟩ := hcomes
    exact Probe.turnV4_leave hbuf (hleast ▸ hinv.handled d hd) hout

/-- A port-unreachable message whose quoted IP header has options. -/
theorem recvV4_sound_options :
    let k : Probe := ⟨32768,33434,1,false⟩
    let d : List Byte := [69] ++ List.replicate 19 0 ++ [3,3] ++ List.replicate 6 0 ++
      [70] ++ List.replicate 8 0 ++ [17] ++ List.replicate 14 0 ++ [128,0,130,155]
    ∃ s, (recvV4 k false fun _ => 0).Reachable s ∧ s.handled = [d] ∧
      s.pc = .returned (some (-1)) ∧ s.Sound4 k := by
  intro k d
  let acts : List RecvAct := [.go,.go,.arrive d,.go,.go,.go,.go]
  have hrun : ((recvV4 k false fun _ => 0).run (recvV4 k false fun _ => 0).init acts).map
      (fun s => (s.handled,s.pc)) = some ([d],.returned (some (-1))) := by decide +kernel
  obtain ⟨s,hs,hout⟩ := Option.map_eq_some_iff.mp hrun
  obtain ⟨hhandled,hpc⟩ := Prod.mk.inj hout
  exact ⟨s,⟨acts,hs⟩,hhandled,hpc,recvV4_sound k false _ s ⟨acts,hs⟩⟩

/-- `recv_v6` attributes its result as it should exactly when no stray message is received. -/
theorem recvV6_attributed_iff (k : Probe) (gotalarm : Bool) (recvbuf : Nat → Byte) (s : RecvProbe)
    (h : (recvV6 k gotalarm recvbuf).Reachable s) :
    s.Attributed k.Answers6 ↔ ∀ d ∈ s.handled, ¬ k.Stray d := by
  have hhistory := (RecvProbe.reachable_inv h).history
  constructor
  · intro hattr d hd hstray
    have hpassed : ¬ RecvProbe.Passed k.turnV6 d := by
      rintro ⟨printed,buf,hbuf,hout⟩
      rcases Probe.turnV6_cases (k := k) hbuf with ⟨_,hno⟩ | ⟨hnone,_⟩ | ⟨_,_,_,hno⟩
      · exact hno hstray
      · rw [hout] at hnone
        cases hnone
      · exact hno hstray
    cases hhistory with
    | waiting hall _ _ => exact hpassed (hall d hd)
    | @left ds x ret hhandled hall hcomes hpc =>
      rcases List.mem_append.mp (hhandled ▸ hd) with hd | hd
      · exact hpassed (hall d hd)
      · cases List.mem_singleton.mp hd
        obtain ⟨buf,hbuf,hout⟩ := hcomes
        rcases Probe.turnV6_cases (k := k) hbuf with ⟨_,hno⟩ | ⟨hnone,_⟩ | ⟨_,_,_,hno⟩
        · exact hno hstray
        · rw [hout] at hnone
          cases hnone
          rcases hattr none hpc with hret | ⟨r,_,hret,_⟩
          · cases hret
          · cases hret
        · exact hno hstray
  · intro hclean
    refine RecvProbe.attributed_of_left hhistory fun d hd out hcomes => ?_
    obtain ⟨buf,hbuf,hout⟩ := hcomes
    rcases Probe.turnV6_cases (k := k) hbuf with ⟨⟨_,hagain⟩,_⟩ | ⟨_,hstray⟩ | ⟨ret,hleave,hans,_⟩
    · rw [hout] at hagain
      cases hagain
    · exact absurd hstray (hclean d hd)
    · rw [hout] at hleave
      cases hleave
      exact ⟨ret,rfl,hans⟩

/-- The time-exceeded message about the probe itself. -/
theorem recvV6_attributed_answer :
    let k : Probe := ⟨32768,33434,1,false⟩
    let d : List Byte :=
      [3,0] ++ List.replicate 12 0 ++ [17] ++ List.replicate 33 0 ++ [128,0,130,155]
    ∃ s, (recvV6 k true fun _ => 7).Reachable s ∧ s.handled = [d] ∧
      s.pc = .returned (some (-2)) ∧ s.Attributed k.Answers6 := by
  intro k d
  let acts : List RecvAct := [.go,.go,.arrive d,.go,.go,.go,.go]
  have hrun : ((recvV6 k true fun _ => 7).run (recvV6 k true fun _ => 7).init acts).map
      (fun s => (s.handled,s.pc)) = some ([d],.returned (some (-2))) := by decide +kernel
  obtain ⟨s,hs,hout⟩ := Option.map_eq_some_iff.mp hrun
  obtain ⟨hhandled,hpc⟩ := Prod.mk.inj hout
  have hreach : (recvV6 k true fun _ => 7).Reachable s := ⟨acts,hs⟩
  refine ⟨s,hreach,hhandled,hpc,(recvV6_attributed_iff k true _ s hreach).mpr fun x hx => ?_⟩
  have hquotes : k.Quotes6 d := ⟨by decide,by decide,by decide⟩
  cases List.mem_singleton.mp (hhandled ▸ hx)
  exact fun h => h.2.2.2 hquotes

/-- A message about somebody else's packet ends the wait, and `ret` is returned unassigned. -/
theorem recvV6_misattributed : ¬ ∀ (k : Probe) (gotalarm : Bool) (recvbuf : Nat → Byte)
    (s : RecvProbe), (recvV6 k gotalarm recvbuf).Reachable s → s.Attributed k.Answers6 := by
  intro h
  let k : Probe := ⟨32768,33434,1,false⟩
  let acts : List RecvAct := [.go,.go,.arrive (3 :: List.replicate 51 0),.go,.go,.go,.go]
  have hrun : ((recvV6 k false fun _ => 0).run (recvV6 k false fun _ => 0).init acts).map
      RecvProbe.pc = some (.returned none) := by decide +kernel
  obtain ⟨s,hs,hpc⟩ := Option.map_eq_some_iff.mp hrun
  rcases h k false (fun _ => 0) s ⟨acts,hs⟩ none (.inr hpc) with hret | ⟨ret,_,hret,_⟩
  · cases hret
  · cases hret

end UnixNet
