import UnixNet.Descriptor
import UnixNet.Library.ByteOrder
import UnixNet.Library.Inspection
set_option autoImplicit false

/-! The fields of the headers in a packet, each read through the offset of its header. -/

namespace UnixNet
open Inspect

def IPPROTO_UDP : Byte := 17
def ICMP_UNREACH : Byte := 3
def ICMP_SOURCEQUENCH : Byte := 4
def ICMP_TIMXCEED : Byte := 11
def ICMP_UNREACH_PORT : Byte := 3
def ICMP_UNREACH_NEEDFRAG : Byte := 4
def ICMP6_DST_UNREACH : Byte := 1
def ICMP6_PACKET_TOO_BIG : Byte := 2
def ICMP6_TIME_EXCEEDED : Byte := 3
def ICMP6_DST_UNREACH_NOPORT : Byte := 4

/-- `sizeof` of `struct ip`, `struct ip6_hdr` and `struct udphdr`. -/
def sizeofIp : Nat := 20
def sizeofIp6Hdr : Nat := 40
def sizeofUdphdr : Nat := 8

/-- What the bytes of a `struct` give on a little-endian machine, and after `ntohs`. -/
def hostValue (bs : List Byte) : Nat := ByteOrder.value bs
def netValue (bs : List Byte) : Nat := ByteOrder.value bs.reverse

abbrev Field (α : Type) : Type := Inspect Byte α

def hostShort (i : Nat) : Field Nat := do
  let bs ← cells i 2
  pure (hostValue bs)

def netShort (i : Nat) : Field Nat := do
  let bs ← cells i 2
  pure (netValue bs)

namespace Ip

/-- `ip_hl << 2`. -/
def hlen (ip : Nat) : Field Nat := do
  let b ← cell ip
  pure (b.toNat % 16 * 4)

def v (ip : Nat) : Field Nat := do
  let b ← cell ip
  pure (b.toNat / 16)

def ttl (ip : Nat) : Field Byte := cell (ip + 8)
def p (ip : Nat) : Field Byte := cell (ip + 9)
def dst (ip : Nat) : Field (List Byte) := cells (ip + 16) 4

end Ip

namespace Ip6

def nxt (ip6 : Nat) : Field Byte := cell (ip6 + 6)
def dst (ip6 : Nat) : Field (List Byte) := cells (ip6 + 24) 16

end Ip6

namespace Icmp

/-! ICMP and ICMPv6 have these at the same places. -/

def type (icmp : Nat) : Field Byte := cell icmp
def code (icmp : Nat) : Field Byte := cell (icmp + 1)
def id (icmp : Nat) : Field Nat := hostShort (icmp + 4)
def seq (icmp : Nat) : Field Nat := hostShort (icmp + 6)

end Icmp

section
variable {n : Nat} {buf : Nat → Byte}

@[simp] theorem run_hostShort (i : Nat) :
    (hostShort i).run buf = hostValue [buf i,buf (i + 1)] := (rfl)

@[simp] theorem run_netShort (i : Nat) :
    (netShort i).run buf = netValue [buf i,buf (i + 1)] := (rfl)

@[simp] theorem within_hostShort (i : Nat) : (hostShort i).Within n buf ↔ i + 2 ≤ n := by
  simp [hostShort]

@[simp] theorem within_netShort (i : Nat) : (netShort i).Within n buf ↔ i + 2 ≤ n := by
  simp [netShort]

@[simp] theorem Ip.run_hlen (ip : Nat) :
    (Ip.hlen ip).run buf = (buf ip).toNat % 16 * 4 := (rfl)

@[simp] theorem Ip.within_hlen (ip : Nat) : (Ip.hlen ip).Within n buf ↔ ip < n := by
  simp [Ip.hlen]

@[simp] theorem Ip.within_v (ip : Nat) : (Ip.v ip).Within n buf ↔ ip < n := by
  simp [Ip.v]

end

attribute [simp] Ip.ttl Ip.p Ip.dst Ip6.nxt Ip6.dst Icmp.type Icmp.code Icmp.id Icmp.seq

end UnixNet
