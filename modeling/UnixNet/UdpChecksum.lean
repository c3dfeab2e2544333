import UnixNet.PacketFields
set_option autoImplicit false

/-! udpcksum: `udp_read` and `udp_check` on what libpcap has captured. -/

namespace UnixNet
open Inspect

def IPVERSION : Nat := 4
def ETHERTYPE_IP : Nat := 0x0800

/-- `sizeof(struct ipovly)`, and where `uh_sum` is in `struct udphdr`. -/
def sizeofIpovly : Nat := 20
def uhSum : Nat := 6

/-- The values of `datalink` that `udp_read` knows, and all others. -/
inductive Datalink where
  | null | en10mb | slip | ppp
  | other (datalink : Int)
  deriving DecidableEq, Repr

def Datalink.header : Datalink → Nat
  | .null => 4
  | .en10mb => 14
  | .slip | .ppp => 24
  | .other _ => 0

/-- An `int` that is compared with a `sizeof`. -/
def sizeT (len : BitVec 32) : Nat := (len.signExtend 64).toNat

/-- The loop of `in_cksum` over 16-bit words, and the odd byte. -/
def sumWords (w : Nat) (sum : UInt32) : Nat → Field UInt32
  | 0 => pure sum
  | 1 => do
    let answer ← cell w
    pure (sum + answer.toUInt32)
  | nleft+2 => do
    let word ← hostShort w
    sumWords (w + 2) (sum + UInt32.ofNat word) nleft

def inCksum (addr len : Nat) : Field UInt16 := do
  let sum ← sumWords addr 0 len
  let sum := (sum >>> 16) + (sum &&& 0xffff)
  let sum := sum + (sum >>> 16)
  pure (~~~ sum).toUInt16

/-- The pointer that `udp_check` returns, and what it has stored in `ip_sum`. -/
structure Udpiphdr where
  ui : Nat
  ip_sum : UInt16
  deriving DecidableEq, Repr

/-- `udp_check` of the packet at `ptr`: the text of its err_quit, or the pointer. -/
def udpCheck (ptr : Nat) (len : BitVec 32) : Field (Except String Udpiphdr) := do
  if sizeT len < sizeofIp + sizeofUdphdr then pure (.error "len = %d")
  else
    let ip := ptr
    if (← Ip.v ip) ≠ IPVERSION then pure (.error "ip_v = %d")
    else
      let hlen ← Ip.hlen ip
      if hlen < sizeofIp then pure (.error "ip_hl = %d")
      else if sizeT len < hlen + sizeofUdphdr then pure (.error "len = %d, hlen = %d")
      else
        let ip_sum ← inCksum ip hlen
        if ip_sum ≠ 0 then pure (.error "ip checksum error")
        else if (← Ip.p ip) = IPPROTO_UDP then pure (.ok ⟨ip,ip_sum⟩)
        else pure (.error "not a UDP packet")

/-- `udp_read`, with the `caplen` that `next_pcap` stores in an `int`. -/
def udpRead (datalink : Datalink) (len : BitVec 32) : Field (Except String Udpiphdr) :=
  match datalink with
  | .null => udpCheck 4 (len - 4)
  | .en10mb => do
    if (← netShort 12) ≠ ETHERTYPE_IP then pure (.error "Ethernet type %x not IP")
    else udpCheck 14 (len - 14)
  | .slip => udpCheck 24 (len - 24)
  | .ppp => udpCheck 24 (len - 24)
  | .other _ => pure (.error "unsupported datalink (%d)")

/-- The packet ends before its headers do. -/
def TooShort (datalink : Datalink) (caplen : BitVec 32) (buf : Nat → Byte) : Prop :=
  let link := datalink.header
  caplen.toNat < link + sizeofIp + sizeofUdphdr ∨
    caplen.toNat < link + (Ip.hlen link).run buf + sizeofUdphdr

/-- Only captured bytes are read, and packets that are too short end in an err_quit. -/
structure Captured (datalink : Datalink) (caplen : BitVec 32) (buf : Nat → Byte) : Prop where
  within : (udpRead datalink caplen).Within caplen.toNat buf
  short : TooShort datalink caplen buf → ∃ text, (udpRead datalink caplen).run buf = .error text

section
variable {n : Nat} {buf : Nat → Byte}

theorem sumWords_within (w : Nat) (sum : UInt32) (nleft : Nat) :
    (sumWords w sum nleft).Within n buf ↔ nleft = 0 ∨ w + nleft ≤ n := by
  induction nleft using Nat.twoStepInduction generalizing w sum with
  | zero => simp [sumWords]
  | one =>
    rw [sumWords,within_bind,within_cell]
    exact ⟨fun h => .inr h.1,fun h => ⟨h.resolve_left Nat.one_ne_zero,within_pure _⟩⟩
  | more nleft ih _ =>
    simp only [sumWords,within_bind,within_hostShort,ih]
    omega

@[simp] theorem inCksum_within (addr len : Nat) :
    (inCksum addr len).Within n buf ↔ len = 0 ∨ addr + len ≤ n := by
  simp [inCksum,sumWords_within]

/-- Which tests stand before the reads of the header at `ptr`. -/
theorem udpCheck_within_iff (ptr : Nat) (len : BitVec 32) :
    (udpCheck ptr len).Within n buf ↔ sizeofIp + sizeofUdphdr ≤ sizeT len → ptr < n ∧
      ((Ip.v ptr).run buf = IPVERSION → sizeofIp ≤ (Ip.hlen ptr).run buf →
        (Ip.hlen ptr).run buf + sizeofUdphdr ≤ sizeT len → ptr + (Ip.hlen ptr).run buf ≤ n) := by
  simp only [udpCheck,within_bind,within_ite,within_pure,Ip.within_v,Ip.within_hlen,inCksum_within,
    Ip.p,within_cell,run_cell,ite_self,and_true]
  by_cases hlen : sizeT len < sizeofIp + sizeofUdphdr
  · rw [if_pos hlen]
    exact iff_of_true trivial fun hle => absurd hlen (Nat.not_lt.mpr hle)
  · rw [if_neg hlen,imp_iff_right (Nat.not_lt.mp hlen)]
    refine and_congr_right fun hptr => ?_
    by_cases hv : (Ip.v ptr).run buf = IPVERSION
    · rw [if_neg (not_not.mpr hv),imp_iff_right hv,and_iff_right hptr]
      by_cases hmin : (Ip.hlen ptr).run buf < sizeofIp
      · rw [if_pos hmin]
        exact iff_of_true trivial fun hle => absurd hmin (Nat.not_lt.mpr hle)
      · rw [if_neg hmin,imp_iff_right (Nat.not_lt.mp hmin)]
        by_cases hroom : sizeT len < (Ip.hlen ptr).run buf + sizeofUdphdr
        · rw [if_pos hroom]
          exact iff_of_true trivial fun hle => absurd hroom (Nat.not_lt.mpr hle)
        · rw [if_neg hroom,imp_iff_right (Nat.not_lt.mp hroom)]
          simp only [sizeofIp] at hmin
          refine ⟨fun h => h.1.resolve_left (by omega),fun h => ⟨.inr h,?_⟩⟩
          split
          · trivial
          · omega
    · rw [if_pos hv]
      exact iff_of_true trivial fun h => absurd h hv

theorem udpCheck_short (ptr : Nat) {len : BitVec 32}
    (h : sizeT len < sizeofIp + sizeofUdphdr ∨
      sizeT len < (Ip.hlen ptr).run buf + sizeofUdphdr) :
    ∃ text, (udpCheck ptr len).run buf = .error text := by
  rw [udpCheck,run_ite]
  by_cases hlen : sizeT len < sizeofIp + sizeofUdphdr
  · rw [if_pos hlen]
    exact ⟨_,rfl⟩
  · rw [if_neg hlen,run_bind,run_ite]
    split
    · exact ⟨_,rfl⟩
    · rw [run_bind,run_ite]
      split
      · exact ⟨_,rfl⟩
      · rw [run_ite,if_pos (h.resolve_left hlen)]
        exact ⟨_,rfl⟩

end

theorem sizeT_eq {len : BitVec 32} :
    sizeT len = if len.toNat < 2 ^ 31 then len.toNat else 2 ^ 64 - 2 ^ 32 + len.toNat := by
  have hlt := len.isLt
  rw [sizeT,BitVec.toNat_signExtend,BitVec.toNat_setWidth,Nat.mod_eq_of_lt (by omega)]
  by_cases hneg : len.toNat < 2 ^ 31
  · rw [if_pos hneg,BitVec.msb_eq_false_iff_two_mul_lt.mpr (by omega)]
    rfl
  · rw [if_neg hneg,BitVec.msb_eq_true_iff_two_mul_ge.mpr (by omega),if_pos rfl]
    omega

theorem toNat_sub {caplen : BitVec 32} {link : Nat} (hlink : link < 2 ^ 31) :
    (caplen - BitVec.ofNat 32 link).toNat =
      if link ≤ caplen.toNat then caplen.toNat - link else 2 ^ 32 + caplen.toNat - link := by
  have hlt := caplen.isLt
  rw [BitVec.toNat_sub,BitVec.toNat_ofNat]
  split <;> omega

theorem le_sizeT_sub_iff {caplen : BitVec 32} {link k : Nat} (hlink : link < 2 ^ 31)
    (hk : k ≤ 2 ^ 31) (hle : link ≤ caplen.toNat) :
    k ≤ sizeT (caplen - BitVec.ofNat 32 link) ↔ link + k ≤ caplen.toNat := by
  rw [sizeT_eq,toNat_sub hlink,if_pos hle]
  split <;> omega

/-- A length that the link header has made negative passes every test. -/
theorem le_sizeT_sub_of_lt {caplen : BitVec 32} {link k : Nat} (hlink : link < 2 ^ 31)
    (hk : k ≤ 2 ^ 31) (hlt : caplen.toNat < link) :
    k ≤ sizeT (caplen - BitVec.ofNat 32 link) := by
  rw [sizeT_eq,toNat_sub hlink,if_neg (Nat.not_le.mpr hlt)]
  split <;> omega

section
variable {buf : Nat → Byte} {caplen : BitVec 32} {link : Nat}

theorem Ip.hlen_le (ip : Nat) : (Ip.hlen ip).run buf ≤ 60 := by
  rw [Ip.run_hlen]
  omega

theorem udpCheck_link_within (hlink : link < 2 ^ 31) :
    (udpCheck link (caplen - BitVec.ofNat 32 link)).Within caplen.toNat buf ↔
      link ≤ caplen.toNat := by
  have hhlen : (Ip.hlen link).run buf ≤ 60 := Ip.hlen_le link
  rw [udpCheck_within_iff]
  constructor
  · intro h
    by_contra hlt
    have hptr := (h (le_sizeT_sub_of_lt hlink (by decide) (Nat.not_le.mp hlt))).1
    exact hlt (Nat.le_of_lt hptr)
  · intro hle
    rw [le_sizeT_sub_iff hlink (by decide) hle]
    refine fun hmin => ⟨by simp only [sizeofIp] at hmin; omega,fun _ _ hroom => ?_⟩
    rw [le_sizeT_sub_iff hlink (by simp only [sizeofUdphdr]; omega) hle] at hroom
    omega

theorem udpCheck_link_short (hlink : link < 2 ^ 31) (hle : link ≤ caplen.toNat)
    (h : caplen.toNat < link + sizeofIp + sizeofUdphdr ∨
      caplen.toNat < link + (Ip.hlen link).run buf + sizeofUdphdr) :
    ∃ text, (udpCheck link (caplen - BitVec.ofNat 32 link)).run buf = .error text := by
  have hhlen : (Ip.hlen link).run buf ≤ 60 := Ip.hlen_le link
  refine udpCheck_short link ?_
  simp only [← Nat.not_le]
  rw [le_sizeT_sub_iff hlink (by decide) hle,
    le_sizeT_sub_iff hlink (by simp only [sizeofUdphdr]; omega) hle]
  omega

theorem captured_iff {datalink : Datalink}
    (hwithin : (udpRead datalink caplen).Within caplen.toNat buf ↔ datalink.header ≤ caplen.toNat)
    (hshort : datalink.header ≤ caplen.toNat → TooShort datalink caplen buf →
      ∃ text, (udpRead datalink caplen).run buf = .error text) :
    Captured datalink caplen buf ↔ datalink.header ≤ caplen.toNat :=
  ⟨fun h => hwithin.mp h.within,fun hle => ⟨hwithin.mpr hle,hshort hle⟩⟩

/-- `ether_type` is read before any length is tested. -/
theorem en10mb_within :
    (udpRead .en10mb caplen).Within caplen.toNat buf ↔ 14 ≤ caplen.toNat := by
  have hcheck : (udpCheck 14 (caplen - 14)).Within caplen.toNat buf ↔ 14 ≤ caplen.toNat :=
    udpCheck_link_within (by decide)
  simp only [udpRead,within_bind,within_netShort,within_ite,within_pure]
  refine ⟨And.left,fun hle => ⟨hle,?_⟩⟩
  split
  · trivial
  · exact hcheck.mpr hle

theorem en10mb_short (hle : 14 ≤ caplen.toNat) (h : TooShort .en10mb caplen buf) :
    ∃ text, (udpRead .en10mb caplen).run buf = .error text := by
  rw [udpRead,run_bind,run_ite]
  split
  · exact ⟨_,rfl⟩
  · exact udpCheck_link_short (by decide) hle h

end

/-- `udp_read` stays inside the packet and quits for short ones exactly when the whole link header
has been captured. -/
theorem udpRead_captured_iff (datalink : Datalink) (caplen : BitVec 32) (buf : Nat → Byte) :
    Captured datalink caplen buf ↔ datalink.header ≤ caplen.toNat := by
  cases datalink with
  | null =>
    exact captured_iff (udpCheck_link_within (by decide)) (udpCheck_link_short (by decide))
  | en10mb => exact captured_iff en10mb_within en10mb_short
  | slip =>
    exact captured_iff (udpCheck_link_within (by decide)) (udpCheck_link_short (by decide))
  | ppp =>
    exact captured_iff (udpCheck_link_within (by decide)) (udpCheck_link_short (by decide))
  | other datalink =>
    exact captured_iff (iff_of_true trivial (Nat.zero_le _)) fun _ _ => ⟨_,rfl⟩

/-- Three captured bytes of the loopback device: a packet is accepted that lies behind them. -/
theorem udpRead_not_captured :
    (¬ ∀ (datalink : Datalink) (caplen : BitVec 32) (buf : Nat → Byte),
      (udpRead datalink caplen).Within caplen.toNat buf) ∧
    ¬ ∀ (datalink : Datalink) (caplen : BitVec 32) (buf : Nat → Byte),
      TooShort datalink caplen buf → ∃ text, (udpRead datalink caplen).run buf = .error text := by
  let buf : Nat → Byte := fun i =>
    if i = 4 then 0x45 else if i = 13 then 17
    else if i = 14 then 0xba else if i = 15 then 0xee else 0
  constructor
  · intro h
    have hin := h .null 3 buf
    revert hin
    decide +kernel
  · intro h
    obtain ⟨text,htext⟩ := h .null 3 buf (.inl (by decide))
    have hok : ((udpRead .null 3).run buf).toOption = some ⟨4,0⟩ := by decide +kernel
    rw [htext] at hok
    cases hok

namespace Udpiphdr

/-- The memory once `ip_sum` has been assigned. -/
def memory (ui : Udpiphdr) (buf : Nat → Byte) : Nat → Byte := fun i =>
  if i = ui.ui + 10 then UInt8.ofNat ui.ip_sum.toNat
  else if i = ui.ui + 11 then UInt8.ofNat (ui.ip_sum.toNat / 256)
  else buf i

/-- `ui->ui_sum`, as `test_udp` finds it. -/
def ui_sum (ui : Udpiphdr) (buf : Nat → Byte) : Nat :=
  (hostShort (ui.ui + sizeofIpovly + uhSum)).run (ui.memory buf)

end Udpiphdr

/-- Where the checksum is in the UDP header behind the header at `ip`. -/
def sumAt (buf : Nat → Byte) (ip : Nat) : Nat := ip + (Ip.hlen ip).run buf + uhSum

def udpSum (buf : Nat → Byte) (ip : Nat) : Nat := (hostShort (sumAt buf ip)).run buf

/-- The packet at `ip` with another checksum in its UDP header. -/
def withSum (buf : Nat → Byte) (ip : Nat) (lo hi : Byte) : Nat → Byte := fun i =>
  if i = sumAt buf ip then lo else if i = sumAt buf ip + 1 then hi else buf i

section
variable {buf : Nat → Byte} {ptr : Nat} {len : BitVec 32} {ui : Udpiphdr}

/-- What an accepted packet has passed, and how far `udp_check` has looked. -/
theorem udpCheck_ok (h : (udpCheck ptr len).run buf = .ok ui) :
    ui = ⟨ptr,0⟩ ∧ sizeofIp ≤ (Ip.hlen ptr).run buf ∧
      (udpCheck ptr len).Within (ptr + (Ip.hlen ptr).run buf) buf := by
  have hwithin : sizeofIp ≤ (Ip.hlen ptr).run buf →
      (udpCheck ptr len).Within (ptr + (Ip.hlen ptr).run buf) buf := fun hmin => by
    refine (udpCheck_within_iff ptr len).mpr fun _ => ⟨?_,fun _ _ _ => Nat.le_refl _⟩
    simp only [sizeofIp] at hmin
    omega
  simp only [udpCheck,run_bind,run_ite,run_pure] at h
  split at h
  · cases h
  split at h
  · cases h
  split at h
  · cases h
  rename_i hmin
  have hmin := Nat.not_lt.mp hmin
  split at h
  · cases h
  split at h
  · cases h
  rename_i hsum
  split at h
  · cases h
    rw [not_not.mp hsum]
    exact ⟨rfl,hmin,hwithin hmin⟩
  · cases h

theorem ui_sum_eq (h : ui = ⟨ptr,0⟩) :
    ui.ui_sum buf = hostValue [buf (ptr + 26),buf (ptr + 27)] := by
  subst h
  have h26 : Udpiphdr.memory ⟨ptr,0⟩ buf (ptr + 26) = buf (ptr + 26) := by
    simp [Udpiphdr.memory]
  have h27 : Udpiphdr.memory ⟨ptr,0⟩ buf (ptr + 27) = buf (ptr + 27) := by
    simp [Udpiphdr.memory]
  rw [Udpiphdr.ui_sum,run_hostShort]
  exact congrArg₂ (fun a b => hostValue [a,b]) h26 h27

theorem withSum_before {lo hi : Byte} {i : Nat} (h : i < sumAt buf ptr) :
    withSum buf ptr lo hi i = buf i := by
  have hne : i ≠ sumAt buf ptr + 1 := by omega
  rw [withSum,if_neg (Nat.ne_of_lt h),if_neg hne]

theorem hlen_withSum (lo hi : Byte) :
    (Ip.hlen ptr).run (withSum buf ptr lo hi) = (Ip.hlen ptr).run buf := by
  have hptr : ptr < sumAt buf ptr := by
    simp only [sumAt,uhSum]
    omega
  rw [Ip.run_hlen,Ip.run_hlen,withSum_before hptr]

/-- `udp_check` looks at the IP header only, so any UDP checksum is accepted with it. -/
theorem withSum_ok (h : (udpCheck ptr len).run buf = .ok ui) (lo hi : Byte) :
    (udpCheck ptr len).run (withSum buf ptr lo hi) = .ok ui := by
  obtain ⟨-,-,hwithin⟩ := udpCheck_ok h
  rw [run_congr (fun i hi => withSum_before ?_) hwithin,h]
  simp only [sumAt,uhSum]
  omega

theorem udpSum_withSum (lo hi : Byte) :
    udpSum (withSum buf ptr lo hi) ptr = hostValue [lo,hi] := by
  have hat : sumAt (withSum buf ptr lo hi) ptr = sumAt buf ptr := by
    rw [sumAt,sumAt,hlen_withSum]
  rw [udpSum,hat,run_hostShort]
  simp [withSum]

/-- Without options the overlay lies on the UDP header. -/
theorem ui_sum_plain (h : (udpCheck ptr len).run buf = .ok ui)
    (hplain : (Ip.hlen ptr).run buf = sizeofIp) : ui.ui_sum buf = udpSum buf ptr := by
  rw [ui_sum_eq (udpCheck_ok h).1,udpSum,sumAt,hplain,run_hostShort]
  rfl

/-- With options it lies before the checksum. -/
theorem ui_sum_options (h : (udpCheck ptr len).run buf = .ok ui)
    (hoptions : sizeofIp < (Ip.hlen ptr).run buf) (lo hi : Byte) :
    ui.ui_sum (withSum buf ptr lo hi) = ui.ui_sum buf := by
  have hui := (udpCheck_ok h).1
  have hfar : ptr + 27 < sumAt buf ptr := by
    rw [Ip.run_hlen] at hoptions
    rw [sumAt,Ip.run_hlen]
    simp only [sizeofIp,uhSum] at *
    omega
  rw [ui_sum_eq hui,ui_sum_eq hui,withSum_before (by omega),withSum_before hfar]

theorem reported_iff (h : (udpCheck ptr len).run buf = .ok ui) :
    (∀ lo hi, (udpCheck ptr len).run (withSum buf ptr lo hi) = .ok ui ∧
      ui.ui_sum (withSum buf ptr lo hi) = udpSum (withSum buf ptr lo hi) ptr) ↔
    (Ip.hlen ptr).run buf = sizeofIp := by
  have hmin := (udpCheck_ok h).2.1
  constructor
  · intro hall
    by_contra hne
    have hoptions : sizeofIp < (Ip.hlen ptr).run buf := by omega
    have hzero := (hall 0 0).2
    have hone := (hall 1 0).2
    rw [ui_sum_options h hoptions,udpSum_withSum] at hzero hone
    exact absurd (hzero.symm.trans hone) (by decide)
  · intro hplain lo hi
    have hok := withSum_ok h lo hi
    exact ⟨hok,ui_sum_plain hok (by rw [hlen_withSum,hplain])⟩

end

def zeroOptions (ip_hl : Nat) : Nat → Byte := fun i =>
  if i = 0 then UInt8.ofNat (0x40 + ip_hl) else if i = 9 then 17
  else if i = 10 then UInt8.ofNat (0xbf - ip_hl) else if i = 11 then 0xee else 0

theorem zeroOptions_ok : ∀ ip_hl < 16, 5 ≤ ip_hl →
    (udpCheck 0 (BitVec.ofNat 32 (ip_hl * 4 + 8))).run (zeroOptions ip_hl) = .ok ⟨0,0⟩ ∧
      (Ip.hlen 0).run (zeroOptions ip_hl) = ip_hl * 4 := by
  decide +kernel

/-- Packets with this header length are reported with their own checksums. -/
def Reported (ip_hl : Nat) : Prop :=
  ∀ buf ptr len ui, (udpCheck ptr len).run buf = .ok ui → (Ip.hlen ptr).run buf = ip_hl * 4 →
    ui.ui_sum buf = udpSum buf ptr

/-- The packets of a header length are reported with their own checksums exactly when it is 5. Each
of them is reported so, whatever its checksum is, in this case only. -/
theorem udpCheck_sum_iff (ip_hl : Nat) (hmin : 5 ≤ ip_hl) (hmax : ip_hl ≤ 15) :
    (Reported ip_hl ↔ ip_hl = 5) ∧
    ∀ buf ptr len ui, (udpCheck ptr len).run buf = .ok ui → (Ip.hlen ptr).run buf = ip_hl * 4 →
      ((∀ lo hi, (udpCheck ptr len).run (withSum buf ptr lo hi) = .ok ui ∧
        ui.ui_sum (withSum buf ptr lo hi) = udpSum (withSum buf ptr lo hi) ptr) ↔ ip_hl = 5) := by
  have hfive : ip_hl * 4 = sizeofIp ↔ ip_hl = 5 := by
    simp only [sizeofIp]
    omega
  refine ⟨⟨fun hall => ?_,?_⟩,fun buf ptr len ui hok hhlen => ?_⟩
  · obtain ⟨hok,hhlen⟩ := zeroOptions_ok ip_hl (by omega) hmin
    rw [← hfive,← hhlen]
    refine (reported_iff hok).mp fun lo hi => ?_
    have hsum := withSum_ok hok lo hi
    exact ⟨hsum,hall _ 0 _ _ hsum (by rw [hlen_withSum,hhlen])⟩
  · rintro rfl buf ptr len ui hok hhlen
    exact ui_sum_plain hok hhlen
  · rw [reported_iff hok,hhlen,hfive]

theorem udpCheck_sum_five_six : Reported 5 ∧ ¬ Reported 6 :=
  ⟨(udpCheck_sum_iff 5 (by decide) (by decide)).1.mpr rfl,fun h =>
    absurd ((udpCheck_sum_iff 6 (by decide) (by decide)).1.mp h) (by decide)⟩

/-- With one word of options the destination port is taken for the checksum. -/
theorem ui_sum_wrong : ¬ ∀ buf ptr len ui, (udpCheck ptr len).run buf = .ok ui →
    ui.ui_sum buf = udpSum buf ptr := by
  intro h
  have hsum := h (withSum (zeroOptions 6) 0 0x12 0x34) 0 32 ⟨0,0⟩
    (withSum_ok (zeroOptions_ok 6 (by decide) (by decide)).1 _ _)
  revert hsum
  decide +kernel

end UnixNet
