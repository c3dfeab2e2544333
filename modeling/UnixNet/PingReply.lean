import UnixNet.PacketFields
import UnixNet.RttClient
set_option autoImplicit false

/-! ping: `proc_v4` and `proc_v6`, which look at what the raw socket delivers. -/

namespace UnixNet
open Inspect

def IPPROTO_ICMP : Byte := 1
def ICMP_ECHOREPLY : Byte := 0
def ICMP6_ECHO_REPLY : Byte := 129
def IPPROTO_IPV6 : Int := 41
def IPV6_HOPLIMIT : Int := 52

/-- A `long` of 8 bytes. -/
def long (i : Nat) : Field Int := do
  let bs ← cells i 8
  pure (BitVec.ofNat 64 (hostValue bs)).toInt

/-- `struct timeval` of two `long`s. -/
def timeval (i : Nat) : Field Timeval := do
  let sec ← long i
  let usec ← long (i + 8)
  pure ⟨sec,usec⟩

def sizeofTimeval : Nat := 16

/-- `tv_sub`, which leaves the difference in `out`. -/
def tvSub (out sent : Timeval) : Timeval :=
  if out.usec - sent.usec < 0 then ⟨out.sec - 1 - sent.sec,out.usec - sent.usec + 1000000⟩
  else ⟨out.sec - sent.sec,out.usec - sent.usec⟩

/-- What is printed: a reply with the time it took, or another message in verbose mode. -/
inductive PingLine where
  | reply (len : Int) (seq : Nat) (hops : Int) (rtt : Timeval) : PingLine
  | other (len : Int) (type code : Byte) : PingLine
  deriving DecidableEq, Repr

/-- An object of the ancillary data. -/
structure Cmsg where
  level : Int
  type : Int
  data : BitVec 32
  deriving DecidableEq, Repr

/-- The loop of `proc_v6` over the ancillary data. -/
def hlim : List Cmsg → Int
  | [] => -1
  | c :: cs => if c.level = IPPROTO_IPV6 ∧ c.type = IPV6_HOPLIMIT then c.data.toInt else hlim cs

/-- `verbose`, `pid` and the argument `tvrecv`. -/
structure Ping where
  verbose : Bool
  pid : Nat
  tvrecv : Timeval
  deriving DecidableEq, Repr

namespace Ping

/-- What the two functions do alike from the test of the ICMP length on. -/
def proc (k : Ping) (echoReply : Byte) (icmp : Nat) (icmplen : Int) (hops : Field Int) :
    Field (Option PingLine) := do
  if icmplen < 8 then pure none
  else
    let type ← Icmp.type icmp
    if type = echoReply then
      if (← Icmp.id icmp) = k.pid then
        if icmplen < 16 then pure none
        else
          let tvsend ← timeval (icmp + 8)
          let seq ← Icmp.seq icmp
          let hops ← hops
          pure (some (.reply icmplen seq hops (tvSub k.tvrecv tvsend)))
      else pure none
    else if k.verbose then
      let code ← Icmp.code icmp
      pure (some (.other icmplen type code))
    else pure none

def procV4 (k : Ping) (len : Int) : Field (Option PingLine) := do
  let hlen1 ← Ip.hlen 0
  if (← Ip.p 0) = IPPROTO_ICMP then
    k.proc ICMP_ECHOREPLY hlen1 (len - hlen1) do
      let ttl ← Ip.ttl 0
      pure ttl.toNat
  else pure none

def procV6 (k : Ping) (len : Int) (cmsgs : List Cmsg) : Field (Option PingLine) :=
  k.proc ICMP6_ECHO_REPLY 0 len (pure (hlim cmsgs))

/-- The ICMP message at `icmp` is an answer to this process. -/
def Reply (k : Ping) (echoReply : Byte) (buf : Nat → Byte) (icmp : Nat) : Prop :=
  buf icmp = echoReply ∧ hostValue [buf (icmp + 4),buf (icmp + 5)] = k.pid

def icmp4 (buf : Nat → Byte) : Nat := (buf 0).toNat % 16 * 4

def Reply4 (k : Ping) (buf : Nat → Byte) : Prop :=
  buf 9 = IPPROTO_ICMP ∧ k.Reply ICMP_ECHOREPLY buf (icmp4 buf)

def Reply6 (k : Ping) (buf : Nat → Byte) : Prop := k.Reply ICMP6_ECHO_REPLY buf 0

/-- A reply that ends inside of its timestamp, but not before the 16th byte. -/
def Cut (reply : Prop) (icmplen : Int) : Prop :=
  reply ∧ 16 ≤ icmplen ∧ icmplen < 8 + sizeofTimeval

/-- Nothing is read behind the `n` bytes, and a reply without a whole timestamp is ignored. -/
structure Bounded (reply : Prop) (n : Nat) (buf : Nat → Byte) (icmplen : Int)
    (p : Field (Option PingLine)) : Prop where
  within : p.Within n buf
  short : reply → icmplen < 8 + sizeofTimeval → p.run buf = none

section
variable {k : Ping} {echoReply : Byte} {n : Nat} {buf : Nat → Byte} {icmp : Nat} {icmplen : Int}
  {hops : Field Int}

@[simp] theorem within_timeval (i : Nat) :
    (timeval i).Within n buf ↔ i + sizeofTimeval ≤ n := by
  simp only [timeval,long,within_bind,within_cells,within_pure,and_true,sizeofTimeval]
  omega

theorem proc_within_iff (hlen : icmp + icmplen = n) (hhops : hops.Within n buf) :
    (k.proc echoReply icmp icmplen hops).Within n buf ↔
      ¬ Cut (k.Reply echoReply buf icmp) icmplen := by
  simp only [proc,within_bind,within_ite,within_pure,Icmp.type,Icmp.id,Icmp.seq,Icmp.code,
    within_cell,within_hostShort,run_cell,run_hostShort,within_timeval,hhops,and_true,Cut,Reply,
    sizeofTimeval]
  split
  · exact iff_of_true trivial fun h => by omega
  · rw [and_iff_right (by omega)]
    split
    · rename_i htype
      rw [and_iff_right (by omega)]
      split
      · rename_i hid
        split
        · exact iff_of_true trivial fun h => by omega
        · rename_i hlong
          refine ⟨fun h hcut => by omega,fun h => ?_⟩
          have hwhole : ¬ icmplen < 8 + 16 := fun hlt => h ⟨⟨htype,hid⟩,by omega,hlt⟩
          omega
      · rename_i hid
        exact iff_of_true trivial fun h => hid h.1.2
    · rename_i htype
      refine iff_of_true ?_ fun h => htype h.1.1
      split
      · omega
      · trivial

theorem run_short (hreply : k.Reply echoReply buf icmp) (hshort : icmplen < 16) :
    (k.proc echoReply icmp icmplen hops).run buf = none := by
  obtain ⟨htype,hid⟩ := hreply
  have hid : (Icmp.id icmp).run buf = k.pid := hid
  rw [proc,run_ite]
  by_cases hnone : icmplen < 8
  · rw [if_pos hnone,run_pure]
  · rw [if_neg hnone,run_bind,run_ite,Icmp.type,run_cell,if_pos htype,run_bind,run_ite,if_pos hid,
      if_pos hshort,run_pure]

theorem bounded_iff {reply : Prop} {p : Field (Option PingLine)}
    (hwithin : p.Within n buf ↔ ¬ Cut reply icmplen)
    (hshort : reply → icmplen < 16 → p.run buf = none) :
    Bounded reply n buf icmplen p ↔ ¬ Cut reply icmplen := by
  refine ⟨fun h => hwithin.mp h.within,fun h => ⟨hwithin.mpr h,fun hreply hlt => ?_⟩⟩
  refine hshort hreply ?_
  by_contra hno
  exact h ⟨hreply,by omega,hlt⟩

theorem procV4_bounded_iff (hn : 20 ≤ n) :
    Bounded (k.Reply4 buf) n buf (n - icmp4 buf) (k.procV4 n) ↔
      ¬ Cut (k.Reply4 buf) (n - icmp4 buf) := by
  refine bounded_iff ?_ fun hreply hshort => ?_
  · simp only [procV4,within_bind,within_ite,within_pure,Ip.within_hlen,Ip.run_hlen,Ip.p,
      within_cell,run_cell]
    rw [and_iff_right (by omega),and_iff_right (by omega)]
    split
    · rename_i hproto
      rw [proc_within_iff (by omega)]
      · simp only [Cut,Reply4,icmp4,hproto,true_and]
      · simp only [within_bind,within_pure,Ip.ttl,within_cell,and_true]
        omega
    · rename_i hproto
      exact iff_of_true trivial fun h => hproto h.1.1
  · obtain ⟨hproto,hreply⟩ := hreply
    rw [procV4,run_bind,run_bind,run_ite,Ip.p,run_cell,if_pos hproto]
    exact run_short hreply hshort

theorem procV6_bounded_iff (cmsgs : List Cmsg) :
    Bounded (k.Reply6 buf) n buf n (k.procV6 n cmsgs) ↔ ¬ Cut (k.Reply6 buf) n :=
  bounded_iff (proc_within_iff (by omega) (within_pure _)) run_short

end

end Ping

/-- Both functions stay inside the packet and ignore short replies exactly when no reply has between
16 and 23 ICMP bytes. -/
theorem ping_bounded_iff (k : Ping) (cmsgs : List Cmsg) (buf : Nat → Byte) (len : Nat) :
    (20 ≤ len → (Ping.Bounded (k.Reply4 buf) len buf (len - Ping.icmp4 buf) (k.procV4 len) ↔
      ¬ Ping.Cut (k.Reply4 buf) (len - Ping.icmp4 buf))) ∧
    (Ping.Bounded (k.Reply6 buf) len buf len (k.procV6 len cmsgs) ↔
      ¬ Ping.Cut (k.Reply6 buf) len) :=
  ⟨Ping.procV4_bounded_iff,Ping.procV6_bounded_iff cmsgs⟩

/-- Replies with half a timestamp. -/
theorem ping_unbounded :
    (¬ ∀ (k : Ping) (buf : Nat → Byte) (len : Nat), 20 ≤ len →
      Ping.Bounded (k.Reply4 buf) len buf (len - Ping.icmp4 buf) (k.procV4 len)) ∧
    ¬ ∀ (k : Ping) (cmsgs : List Cmsg) (buf : Nat → Byte) (len : Nat),
      Ping.Bounded (k.Reply6 buf) len buf len (k.procV6 len cmsgs) := by
  constructor
  · intro h
    have hin := (h ⟨false,7,⟨0,0⟩⟩ (fun i => if i = 0 then 69 else if i = 9 then 1
      else if i = 24 then 7 else 0) 36 (by decide)).within
    revert hin
    decide +kernel
  · intro h
    have hin := (h ⟨false,7,⟨0,0⟩⟩ [] (fun i => if i = 0 then 129 else if i = 4 then 7 else 0)
      16).within
    revert hin
    decide +kernel

end UnixNet
