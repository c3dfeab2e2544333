import UnixNet.IcmpRobustness
set_option autoImplicit false

/-! icmpd: which bytes of a packet `readable_v4` and `readable_v6` select clients by and copy. -/

namespace UnixNet
open Inspect
namespace Icmpd

/-- The members of `icmpd_err` for a message at `icmp` that quotes headers at `hip` and `udp`. -/
def fillV4 (icmp hip udp : Nat) : Field IcmpdErr := do
  let addr ← Ip.dst hip
  let port ← cells (udp + 2) 2
  let type ← Icmp.type icmp
  let code ← Icmp.code icmp
  pure ⟨IcmpPacket.errno4 type code,type,code,16,AF_INET,addr,port⟩

def fillV6 (icmp6 hip6 udp : Nat) : Field IcmpdErr := do
  let addr ← Ip6.dst hip6
  let port ← cells (udp + 2) 2
  let type ← Icmp.type icmp6
  let code ← Icmp.code icmp6
  pure ⟨IcmpPacket.errno6 type code,type,code,28,AF_INET6,addr,port⟩

/-- The loop over the clients, with the records that are written to them. -/
def select (s : Icmpd) (family : Int) (udp : Nat) (fill : Field IcmpdErr) :
    Field (List (Nat × IcmpdErr)) := do
  let sport ← hostShort udp
  each (fun i => do
    let err ← fill
    pure (i,err)) (s.targets family sport)

/-- `readable_v4` after `Recvfrom` has returned `n`, but for what it only prints: the text of its
err_quit, or the records. -/
def readableV4 (s : Icmpd) (n : Int) : Field (Except String (List (Nat × IcmpdErr))) := do
  let hlen1 ← Ip.hlen 0
  let icmp := hlen1
  let icmplen := n - hlen1
  if icmplen < 8 then pure (.error "icmplen (%d) < 8")
  else
    let type ← Icmp.type icmp
    if type = ICMP_UNREACH ∨ type = ICMP_TIMXCEED ∨ type = ICMP_SOURCEQUENCH then
      if icmplen < 8 + 20 + 8 then pure (.error "icmplen (%d) < 8 + 20 + 8")
      else
        let hip := icmp + 8
        let hlen2 ← Ip.hlen hip
        if (← Ip.p hip) = IPPROTO_UDP then
          let udp := hip + hlen2
          let records ← s.select AF_INET udp (fillV4 icmp hip udp)
          pure (.ok records)
        else pure (.ok [])
    else pure (.ok [])

def readableV6 (s : Icmpd) (n : Int) : Field (Except String (List (Nat × IcmpdErr))) := do
  if n < 8 then pure (.error "icmp6len (%d) < 8")
  else
    let type ← Icmp.type 0
    if type = ICMP6_DST_UNREACH ∨ type = ICMP6_PACKET_TOO_BIG ∨ type = ICMP6_TIME_EXCEEDED then
      if n < 8 + 8 then pure (.error "icmp6len (%d) < 8 + 8")
      else
        let hip6 := 8
        if (← Ip6.nxt hip6) = IPPROTO_UDP then
          let udp := hip6 + sizeofIp6Hdr
          let records ← s.select AF_INET6 udp (fillV6 0 hip6 udp)
          pure (.ok records)
        else pure (.ok [])
    else pure (.ok [])

def written (s : Icmpd) : IcmpMessage → Except String (List (Nat × IcmpdErr))
  | .quit text => .error text
  | .ignore => .ok []
  | .report family sport err => .ok ((s.targets family sport).map fun i => (i,err))

section
variable {s : Icmpd} {p : IcmpPacket}

theorem run_port (i : Nat) : Int.ofNat ((hostShort i).run p.buf) = p.port i := by
  simp [IcmpPacket.port,IcmpPacket.bytes,hostValue,List.range_succ]

theorem run_select {family : Int} {udp : Nat} {fill : Field IcmpdErr} :
    (s.select family udp fill).run p.buf =
      (s.targets family (p.port udp)).map fun i => (i,fill.run p.buf) := by
  rw [select,run_bind,run_each,← run_port]
  simp only [run_bind,run_pure]
  rfl

@[simp] theorem run_hlen (ip : Nat) : (Ip.hlen ip).run p.buf = p.hlen ip := (rfl)

/-- Read byte by byte, the packet gives what the daemon makes of it. -/
theorem run_readableV4 : (s.readableV4 p.n).run p.buf = s.written p.parse4 := by
  rw [readableV4,run_bind,run_ite,run_hlen]
  dsimp only [IcmpPacket.parse4]
  split
  · rfl
  · rw [run_bind,run_ite,Icmp.type,run_cell]
    split
    · rw [run_ite]
      split
      · rfl
      · rw [run_bind,run_bind,run_ite,Ip.p,run_cell,run_hlen]
        split
        · rw [run_bind,run_select,run_pure,written]
          simp only [fillV4,run_bind,run_cells,run_pure,Ip.dst,Icmp.type,Icmp.code,run_cell]
          rfl
        · rfl
    · rfl

theorem run_readableV6 : (s.readableV6 p.n).run p.buf = s.written p.parse6 := by
  rw [readableV6,run_ite]
  dsimp only [IcmpPacket.parse6]
  split
  · rfl
  · rw [run_bind,run_ite,Icmp.type,run_cell]
    split
    · rw [run_ite]
      split
      · rfl
      · rw [run_bind,run_ite,Ip6.nxt,run_cell]
        split
        · rw [run_bind,run_select,run_pure,written]
          simp only [fillV6,run_bind,run_cells,run_pure,Ip6.dst,Icmp.type,Icmp.code,run_cell]
          rfl
        · rfl
    · rfl

/-- The packet reaches as far into the quoted UDP header as its ports are needed: the source port
to look for a client, and the destination port once there is one. -/
def Reaches (s : Icmpd) (family : Int) (p : IcmpPacket) (udp : Nat) : Prop :=
  udp + 2 ≤ p.n ∧ (s.targets family (p.port udp) ≠ [] → udp + 4 ≤ p.n)

/-- A packet that passes the tests and quotes a UDP datagram has the ports of it. -/
def Covers4 (s : Icmpd) (p : IcmpPacket) : Prop :=
  let hip := p.hlen 0 + 8
  p.Passes4 → IcmpPacket.quotes4 (p.buf (p.hlen 0)) → p.buf (hip + 9) = IPPROTO_UDP →
    s.Reaches AF_INET p (hip + p.hlen hip)

def Covers6 (s : Icmpd) (p : IcmpPacket) : Prop :=
  p.Passes6 → IcmpPacket.quotes6 (p.buf 0) → p.buf (8 + 6) = IPPROTO_UDP →
    s.Reaches AF_INET6 p (8 + sizeofIp6Hdr)

theorem within_select {family : Int} {udp : Nat} {fill : Field IcmpdErr}
    (hfill : fill.Within p.n.toNat p.buf ↔ udp + 4 ≤ p.n) :
    (s.select family udp fill).Within p.n.toNat p.buf ↔ s.Reaches family p udp := by
  rw [select,within_bind,within_hostShort,within_each,Reaches,← run_port]
  simp only [within_bind,within_pure,and_true,hfill]
  refine and_congr (by omega) ⟨fun h hne => ?_,fun h i hi => h (List.ne_nil_of_mem hi)⟩
  obtain ⟨i,hi⟩ := List.exists_mem_of_ne_nil _ hne
  exact h i hi

theorem within_readableV4 (hn : 20 ≤ p.n) :
    (s.readableV4 p.n).Within p.n.toNat p.buf ↔ s.Covers4 p := by
  simp only [readableV4,within_bind,within_ite,within_pure,Ip.within_hlen,run_hlen,Icmp.type,
    within_cell,run_cell,Ip.p,and_true]
  unfold Covers4 IcmpPacket.Passes4 IcmpPacket.quotes4 IcmpPacket.icmplen
  simp only [decide_eq_true_eq]
  rw [and_iff_right (by omega)]
  split
  · exact iff_of_true trivial fun h => by omega
  · rw [and_iff_right (by omega)]
    split
    · rename_i htype
      split
      · rename_i hshort
        exact iff_of_true trivial fun h => by
          have := h.2 htype
          omega
      · rw [and_iff_right (by omega),and_iff_right (by omega)]
        split
        · rename_i hproto
          rw [within_select]
          · exact ⟨fun h _ _ _ => h,fun h => h ⟨by omega,fun _ => by omega⟩ htype hproto⟩
          · simp only [fillV4,within_bind,within_cells,within_pure,Ip.dst,Icmp.type,Icmp.code,
              within_cell,and_true]
            omega
        · rename_i hproto
          exact iff_of_true trivial fun _ _ h => absurd h hproto
    · rename_i htype
      exact iff_of_true trivial fun _ h => absurd h htype

theorem within_readableV6 : (s.readableV6 p.n).Within p.n.toNat p.buf ↔ s.Covers6 p := by
  simp only [readableV6,within_bind,within_ite,within_pure,Icmp.type,within_cell,run_cell,Ip6.nxt,
    and_true]
  unfold Covers6 IcmpPacket.Passes6 IcmpPacket.quotes6
  simp only [decide_eq_true_eq]
  split
  · exact iff_of_true trivial fun h => by omega
  · rw [and_iff_right (by omega)]
    split
    · rename_i htype
      split
      · rename_i hshort
        exact iff_of_true trivial fun h => by
          have := h.2 htype
          omega
      · rw [and_iff_right (by omega)]
        split
        · rename_i hproto
          rw [within_select]
          · exact ⟨fun h _ _ _ => h,fun h => h ⟨by omega,fun _ => by omega⟩ htype hproto⟩
          · simp only [fillV6,within_bind,within_cells,within_pure,Ip6.dst,Icmp.type,Icmp.code,
              within_cell,and_true,sizeofIp6Hdr]
            omega
        · rename_i hproto
          exact iff_of_true trivial fun _ _ h => absurd h hproto
    · rename_i htype
      exact iff_of_true trivial fun _ h => absurd h htype

end

end Icmpd

/-- Which packets are long enough for all that is read of them, against any table of clients. -/
theorem icmpd_inside_iff (s : Icmpd) (p : IcmpPacket) :
    (20 ≤ p.n → ((s.readableV4 p.n).Within p.n.toNat p.buf ↔ s.Covers4 p)) ∧
      ((s.readableV6 p.n).Within p.n.toNat p.buf ↔ s.Covers6 p) :=
  ⟨Icmpd.within_readableV4,Icmpd.within_readableV6⟩

/-- An ICMPv4 error of 36 bytes that quotes an IP header of 60, and an ICMPv6 error of 16. -/
theorem icmpd_outside :
    (¬ ∀ (s : Icmpd) (p : IcmpPacket), 20 ≤ p.n → 20 ≤ p.hlen 0 → p.hlen 0 ≤ p.n →
      (s.readableV4 p.n).Within p.n.toNat p.buf) ∧
    ¬ ∀ (s : Icmpd) (p : IcmpPacket), (s.readableV6 p.n).Within p.n.toNat p.buf := by
  let s := (icmpd ⟨3,4,5,by decide,by decide⟩).init
  constructor
  · intro h
    let p : IcmpPacket :=
      ⟨fun i => if i = 0 then 69 else if i = 20 then 3 else if i = 28 then 79
        else if i = 37 then 17 else 0,56⟩
    have hp := h s p (by decide) (by decide) (by decide)
    revert hp
    decide +kernel
  · intro h
    let p : IcmpPacket := ⟨fun i => if i = 0 then 1 else if i = 14 then 17 else 0,16⟩
    have hp := h s p
    revert hp
    decide +kernel

end UnixNet
