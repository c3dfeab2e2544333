import UnixNet.UdpChecksum
import UnixNet.Library.Memory
import UnixNet.Library.OnesComplement
set_option autoImplicit false

/-! udpcksum: the datagrams that `udp_write` makes, and their checksums. -/

namespace UnixNet
open Inspect Memory

/-- Where `struct ipovly` has its fields. -/
def uiPr : Nat := 9
def uiLen : Nat := 10
def uiSrc : Nat := 12
def uiDst : Nat := 16

def TTL_OUT : Byte := 64

/-- The first two members of a `struct sockaddr_in`, in network byte order. -/
structure SockaddrIn where
  sin_addr : List Byte
  sin_port : List Byte
  addr_length : sin_addr.length = 4
  port_length : sin_port.length = 2

/-- The memory once `bs` is written from `i` on. -/
def poke (buf : Nat → Byte) (i : Nat) (bs : List Byte) : Nat → Byte := fun j =>
  if j < i then buf j else bs.getD (j - i) (buf j)

/-- The overlay of pseudo-header and UDP header that is in `buf` when `in_cksum` is called. -/
def udpOverlay (loc dest : SockaddrIn) (buf : Nat → Byte) (userlen : Nat) : Nat → Byte :=
  let buf := poke buf 0 (List.replicate (sizeofIpovly + sizeofUdphdr) 0)
  let ui_len := big 2 (sizeofUdphdr + userlen)
  let buf := poke buf uiLen ui_len
  let buf := poke buf uiPr [IPPROTO_UDP]
  let buf := poke buf uiSrc loc.sin_addr
  let buf := poke buf uiDst dest.sin_addr
  let buf := poke buf sizeofIpovly loc.sin_port
  let buf := poke buf (sizeofIpovly + 2) dest.sin_port
  poke buf (sizeofIpovly + 4) ui_len

def udpSumField (buf : Nat → Byte) (userlen : Nat) : UInt16 :=
  let ui_sum := (inCksum 0 userlen).run buf
  if ui_sum = 0 then 0xffff else ui_sum

/-- What `udp_write` gives to `sendto`. `netLen` is the test for linux and OpenBSD. -/
def udpWrite (netLen : Bool) (zerosum : Int) (loc dest : SockaddrIn) (buf : Nat → Byte)
    (userlen : Nat) : List Byte :=
  let buf := udpOverlay loc dest buf userlen
  let userlen := userlen + (sizeofIpovly + sizeofUdphdr)
  let buf :=
    if zerosum = 0 then
      poke buf (sizeofIpovly + uhSum) (ByteOrder.bytes 2 (udpSumField buf userlen).toNat)
    else buf
  let buf := poke buf 0 [UInt8.ofNat (IPVERSION * 16 + sizeofIp / 4),0]
  let buf := poke buf 2 (if netLen then big 2 userlen else ByteOrder.bytes 2 userlen)
  let buf := poke buf 4 [0,0,0,0]
  let buf := poke buf 8 [TTL_OUT]
  (cells 0 userlen).run buf

/-- Bytes as 16-bit words of the machine and of the network, with a zero byte after an odd one. -/
def hostWords : List Byte → List Nat
  | [] => []
  | [b] => [b.toNat]
  | b :: c :: bs => hostValue [b,c] :: hostWords bs

def netWords : List Byte → List Nat
  | [] => []
  | [b] => [b.toNat * 256]
  | b :: c :: bs => netValue [b,c] :: netWords bs

/-- The pseudo-header of a UDP datagram of `len` bytes. -/
def pseudoHeader (loc dest : SockaddrIn) (len : Nat) : List Byte :=
  loc.sin_addr ++ (dest.sin_addr ++ ([0,IPPROTO_UDP] ++ big 2 len))

/-- What the receiver of an IP datagram from `loc` to `dest` finds in it. -/
structure Verifies (loc dest : SockaddrIn) (payload datagram : List Byte) : Prop where
  addresses : (datagram.drop uiSrc).take 8 = loc.sin_addr ++ dest.sin_addr
  ports : (datagram.drop sizeofIp).take 4 = loc.sin_port ++ dest.sin_port
  ui_ulen : netValue ((datagram.drop (sizeofIp + 4)).take 2) = 8 + payload.length
  ui_sum : (datagram.drop (sizeofIp + uhSum)).take 2 ≠ [0,0]
  data : datagram.drop (sizeofIp + sizeofUdphdr) = payload
  sum : OnesComplement.sum 65536
    (netWords (pseudoHeader loc dest (8 + payload.length) ++ datagram.drop sizeofIp)) = 0xffff

/-- `in_cksum` of `len` bytes counts in 32 bits without a loss and needs no third fold. -/
structure Exact (buf : Nat → Byte) (addr len : Nat) : Prop where
  sum : ∀ k ≤ len, ((sumWords addr 0 k).run buf).toNat = (hostWords ((cells addr k).run buf)).sum
  carry : ((sumWords addr 0 len).run buf).toNat < 65536 * 65536
  fold : OnesComplement.fold 65536 (OnesComplement.fold 65536
    ((sumWords addr 0 len).run buf).toNat) < 65536
  answer : ((inCksum addr len).run buf).toNat = 65535 - OnesComplement.fold 65536
    (OnesComplement.fold 65536 ((sumWords addr 0 len).run buf).toNat)

section
variable {buf : Nat → Byte}

theorem hostWords_le (bs : List Byte) : ∀ w ∈ hostWords bs, w ≤ 65535 := by
  induction bs using hostWords.induct with
  | case1 => exact nofun
  | case2 b =>
    have hb := b.toNat_lt
    simp only [hostWords,List.mem_singleton]
    omega
  | case3 b c bs ih =>
    have hbc : hostValue [b,c] < 256 ^ 2 := ByteOrder.value_lt [b,c]
    simp only [hostWords,List.mem_cons]
    rintro w (rfl | hw)
    · omega
    · exact ih w hw

theorem netWords_le (bs : List Byte) : ∀ w ∈ netWords bs, w ≤ 65535 := by
  induction bs using netWords.induct with
  | case1 => exact nofun
  | case2 b =>
    have hb := b.toNat_lt
    simp only [netWords,List.mem_singleton]
    omega
  | case3 b c bs ih =>
    have hbc : netValue [b,c] < 256 ^ 2 := ByteOrder.value_lt [c,b]
    simp only [netWords,List.mem_cons]
    rintro w (rfl | hw)
    · omega
    · exact ih w hw

theorem hostWords_sum_le (bs : List Byte) :
    (hostWords bs).sum ≤ 65535 * ((bs.length + 1) / 2) := by
  induction bs using hostWords.induct with
  | case1 => simp [hostWords]
  | case2 b =>
    have hb := b.toNat_lt
    simp only [hostWords,List.sum_cons,List.sum_nil,List.length_singleton]
    omega
  | case3 b c bs ih =>
    have hbc : hostValue [b,c] < 256 ^ 2 := ByteOrder.value_lt [b,c]
    simp only [hostWords,List.sum_cons,List.length_cons]
    omega

/-- The two orders of the bytes differ by a factor, up to what a folded sum loses. -/
theorem netWords_sum_mul (bs : List Byte) :
    ∃ k, 256 * (netWords bs).sum = (hostWords bs).sum + 65535 * k := by
  induction bs using netWords.induct with
  | case1 => exact ⟨0,rfl⟩
  | case2 b =>
    refine ⟨b.toNat,?_⟩
    simp only [netWords,hostWords,List.sum_cons,List.sum_nil]
    omega
  | case3 b c bs ih =>
    obtain ⟨k,hk⟩ := ih
    refine ⟨b.toNat + k,?_⟩
    simp only [netWords,hostWords,List.sum_cons,netValue,hostValue,List.reverse_cons,
      List.reverse_nil,List.nil_append,List.singleton_append,ByteOrder.value]
    omega

theorem netWords_sum (bs : List Byte) :
    (netWords bs).sum % 65535 = 256 * (hostWords bs).sum % 65535 := by
  obtain ⟨k,hk⟩ := netWords_sum_mul bs
  omega

theorem hostWords_sum_le_netWords (bs : List Byte) :
    (hostWords bs).sum ≤ 256 * (netWords bs).sum := by
  obtain ⟨k,hk⟩ := netWords_sum_mul bs
  omega

theorem sumWords_run (w : Nat) (sum : UInt32) (nleft : Nat) :
    ((sumWords w sum nleft).run buf).toNat =
      (sum.toNat + (hostWords ((cells w nleft).run buf)).sum) % 2 ^ 32 := by
  induction nleft using Nat.twoStepInduction generalizing w sum with
  | zero =>
    have hlt := sum.toNat_lt
    simp only [sumWords,run_pure,cells,hostWords,List.sum_nil,Nat.add_zero]
    omega
  | one =>
    simp only [sumWords,cells,run_bind,run_pure,run_cell,hostWords,List.sum_cons,List.sum_nil,
      Nat.add_zero,UInt32.toNat_add,UInt8.toNat_toUInt32]
  | more nleft ih _ =>
    have hw : w + 1 + 1 = w + 2 := rfl
    simp only [sumWords,cells,run_bind,run_pure,run_cell,run_hostShort,hostWords,List.sum_cons,ih,
      UInt32.toNat_add,UInt32.toNat_ofNat',hw]
    omega

theorem fold_toNat (sum : UInt32) :
    ((sum >>> 16) + (sum &&& 0xffff)).toNat = OnesComplement.fold 65536 sum.toNat := by
  have hlt := sum.toNat_lt
  have hand : sum.toNat &&& 65535 = sum.toNat % 65536 :=
    Nat.and_two_pow_sub_one_eq_mod sum.toNat 16
  have hshift : sum.toNat >>> 16 = sum.toNat / 65536 := Nat.shiftRight_eq_div_pow sum.toNat 16
  rw [UInt32.toNat_add,UInt32.toNat_shiftRight,UInt32.toNat_and]
  change (sum.toNat >>> 16 + (sum.toNat &&& 65535)) % 2 ^ 32 = _
  rw [hand,hshift,OnesComplement.fold]
  omega

/-- The sixteen bits of the complement, when the second fold leaves no carry. -/
theorem complement_toNat {sum : UInt32} (h : OnesComplement.fold 65536 sum.toNat < 65536) :
    (~~~ (sum + (sum >>> 16))).toUInt16.toNat = 65535 - OnesComplement.fold 65536 sum.toNat := by
  have hlt := sum.toNat_lt
  have hshift : (sum >>> 16).toNat = sum.toNat / 65536 := by
    rw [UInt32.toNat_shiftRight]
    exact Nat.shiftRight_eq_div_pow sum.toNat 16
  rw [OnesComplement.fold] at h ⊢
  rw [UInt32.toNat_toUInt16,UInt32.toNat_not,UInt32.toNat_add,hshift]
  change (2 ^ 32 - 1 - _) % 2 ^ 16 = _
  omega

/-- Up to 65535 bytes, the carries fit in the upper half of the accumulator. -/
theorem inCksum_exact (buf : Nat → Byte) (addr : Nat) {len : Nat} (h : len ≤ 65535) :
    Exact buf addr len := by
  have hsum : ∀ k ≤ len,
      ((sumWords addr 0 k).run buf).toNat = (hostWords ((cells addr k).run buf)).sum := by
    intro k hk
    have hle := hostWords_sum_le ((cells addr k).run buf)
    rw [run_cells,List.length_map,List.length_range,← run_cells] at hle
    rw [sumWords_run,UInt32.toNat_zero,Nat.zero_add]
    omega
  have hcarry : ((sumWords addr 0 len).run buf).toNat < 65536 * 65536 :=
    ((sumWords addr 0 len).run buf).toNat_lt
  have hfold : OnesComplement.fold 65536 (OnesComplement.fold 65536
      ((sumWords addr 0 len).run buf).toNat) < 65536 :=
    Nat.lt_succ_of_le (OnesComplement.fold_le (OnesComplement.fold_le_two_mul hcarry))
  refine ⟨hsum,hcarry,hfold,?_⟩
  rw [← fold_toNat] at hfold ⊢
  rw [inCksum,run_bind]
  exact complement_toNat hfold

theorem cells_poke {i k n : Nat} {bs : List Byte} (h : k + n ≤ i ∨ i + bs.length ≤ k) :
    (cells k n).run (poke buf i bs) = (cells k n).run buf := by
  rw [run_cells,run_cells]
  refine List.map_congr_left fun j hj => ?_
  have hj := List.mem_range.mp hj
  rw [poke]
  split
  · rfl
  · have hout : bs.length ≤ k + j - i := by omega
    rw [List.getD_eq_getElem?_getD,List.getElem?_eq_none hout,Option.getD_none]

theorem cells_poke_here (i : Nat) {n : Nat} {bs : List Byte} (h : bs.length = n) :
    (cells i n).run (poke buf i bs) = bs := by
  rw [run_cells]
  refine List.ext_getElem (by simp [h]) fun j hj hj' => ?_
  rw [List.getElem_map,List.getElem_range,poke,if_neg (by omega),Nat.add_sub_cancel_left,
    List.getD_eq_getElem?_getD,List.getElem?_eq_getElem hj',Option.getD_some]

theorem cells_bzero {k n m : Nat} (h : k + n ≤ m) :
    (cells k n).run (poke buf 0 (List.replicate m 0)) = List.replicate n 0 := by
  rw [run_cells]
  refine List.ext_getElem (by simp) fun j hj _ => ?_
  have hj : k + j < m := by
    rw [List.length_map,List.length_range] at hj
    omega
  rw [List.getElem_map,List.getElem_range,List.getElem_replicate,poke,if_neg (Nat.not_lt_zero _),
    Nat.sub_zero,List.getD_eq_getElem?_getD,List.getElem?_replicate_of_lt hj,Option.getD_some]

/-- The overlay has the fields of the pseudo-header and of the UDP header, and 0 for the rest. -/
theorem udpOverlay_cells (loc dest : SockaddrIn) (userlen n : Nat) :
    (cells 0 (9 + (1 + (2 + (4 + (4 + (2 + (2 + (2 + (2 + n)))))))))).run
        (udpOverlay loc dest buf userlen) =
      List.replicate 9 0 ++ ([IPPROTO_UDP] ++ (big 2 (8 + userlen) ++ (loc.sin_addr ++
        (dest.sin_addr ++ (loc.sin_port ++ (dest.sin_port ++ (big 2 (8 + userlen) ++
          ([0,0] ++ (cells 28 n).run buf)))))))) := by
  have ha := loc.addr_length
  have hp := loc.port_length
  have ha' := dest.addr_length
  have hp' := dest.port_length
  simp only [run_cells_add,udpOverlay,uiLen,uiPr,uiSrc,uiDst,sizeofIpovly,sizeofUdphdr,
    Nat.reduceAdd]
  simp (disch := simp [*]) only [cells_poke,cells_poke_here,cells_bzero]
  rfl

theorem udpWrite_zerosum (netLen : Bool) (loc dest : SockaddrIn) (userlen : Nat) :
    udpWrite netLen 0 loc dest buf userlen =
      [0x45,0] ++ ((if netLen then big 2 (userlen + 28) else ByteOrder.bytes 2 (userlen + 28)) ++
        ([0,0,0,0] ++ ([TTL_OUT] ++ ([IPPROTO_UDP] ++ (big 2 (8 + userlen) ++ (loc.sin_addr ++
          (dest.sin_addr ++ (loc.sin_port ++ (dest.sin_port ++ (big 2 (8 + userlen) ++
            (ByteOrder.bytes 2
                (udpSumField (udpOverlay loc dest buf userlen) (userlen + 28)).toNat ++
              (cells 28 userlen).run buf))))))))))) := by
  have ha := loc.addr_length
  have hp := loc.port_length
  have ha' := dest.addr_length
  have hp' := dest.port_length
  have hlen : (if netLen then big 2 (userlen + 28)
      else ByteOrder.bytes 2 (userlen + 28)).length = 2 := by split <;> simp
  have hsplit : userlen + 28 =
      2 + (2 + (4 + (1 + (1 + (2 + (4 + (4 + (2 + (2 + (2 + (2 + userlen))))))))))) := by omega
  simp only [udpWrite,if_pos,sizeofIpovly,sizeofUdphdr,Nat.reduceAdd]
  generalize udpSumField _ _ = ui_sum
  generalize (if netLen then _ else _) = ip_len at *
  rw [hsplit]
  simp only [run_cells_add,udpOverlay,uiLen,uiPr,uiSrc,uiDst,uhSum,sizeofIpovly,sizeofUdphdr,
    Nat.reduceAdd]
  simp (disch := simp [*]) only [cells_poke,cells_poke_here]
  rfl

/-! ## The sums of the sender and of the receiver -/

theorem hostWords_append {as : List Byte} (h : as.length % 2 = 0) (bs : List Byte) :
    (hostWords (as ++ bs)).sum = (hostWords as).sum + (hostWords bs).sum := by
  induction as using hostWords.induct with
  | case1 => simp [hostWords]
  | case2 b => simp at h
  | case3 b c as ih =>
    rw [List.length_cons,List.length_cons] at h
    rw [List.cons_append,List.cons_append,hostWords,hostWords,List.sum_cons,List.sum_cons,
      ih (by omega),Nat.add_assoc]

/-- `in_cksum` is the complement of the one's-complement sum of the words. -/
theorem inCksum_sum (buf : Nat → Byte) (addr : Nat) {len : Nat} (h : len ≤ 65535) :
    ((inCksum addr len).run buf).toNat =
      65535 - OnesComplement.sum 65536 (hostWords ((cells addr len).run buf)) := by
  have hexact := inCksum_exact buf addr h
  have hcarry := hexact.carry
  rw [hexact.answer]
  rw [hexact.sum len (Nat.le_refl len)] at hcarry ⊢
  rw [OnesComplement.fold_fold_sum (hostWords_le _) hcarry]

/-- The checksum is never 0, and with it the words add up to a multiple of 65535. -/
theorem udpSumField_spec (buf : Nat → Byte) {len : Nat} (h : len ≤ 65535) :
    (udpSumField buf len).toNat ≠ 0 ∧
      ((hostWords ((cells 0 len).run buf)).sum + (udpSumField buf len).toNat) % 65535 = 0 := by
  have hanswer := inCksum_sum buf 0 h
  have hle : OnesComplement.sum 65536 (hostWords ((cells 0 len).run buf)) ≤ 65535 :=
    OnesComplement.sum_le (hostWords_le _)
  have hmod : OnesComplement.sum 65536 (hostWords ((cells 0 len).run buf)) % 65535 =
      (hostWords ((cells 0 len).run buf)).sum % 65535 := OnesComplement.sum_mod _
  rw [udpSumField]
  by_cases hzero : (inCksum 0 len).run buf = 0
  · rw [hzero,UInt16.toNat_zero] at hanswer
    rw [if_pos hzero]
    change 65535 ≠ 0 ∧ (_ + 65535) % 65535 = 0
    omega
  · have hne : ((inCksum 0 len).run buf).toNat ≠ 0 := fun h0 =>
      hzero (UInt16.toNat_inj.mp h0)
    rw [if_neg hzero]
    exact ⟨hne,by omega⟩

/-- The receiver adds what the sender has added, in another order, and the checksum. -/
theorem received_sum (loc dest : SockaddrIn) (ui_sum : UInt16) (userlen : Nat) :
    (hostWords (pseudoHeader loc dest (8 + userlen) ++ (loc.sin_port ++ (dest.sin_port ++
      (big 2 (8 + userlen) ++ (ByteOrder.bytes 2 ui_sum.toNat ++
        (cells 28 userlen).run buf)))))).sum =
      (hostWords ((cells 0 (userlen + 28)).run (udpOverlay loc dest buf userlen))).sum +
        ui_sum.toNat := by
  have hsplit : userlen + 28 = 9 + (1 + (2 + (4 + (4 + (2 + (2 + (2 + (2 + userlen)))))))) := by
    omega
  have hsum : (hostWords (ByteOrder.bytes 2 ui_sum.toNat)).sum = ui_sum.toNat := by
    have hlt := ui_sum.toNat_lt
    change ByteOrder.value (ByteOrder.bytes 2 ui_sum.toNat) + 0 = _
    rw [ByteOrder.value_bytes]
    omega
  have hpr (as : List Byte) : (hostWords (List.replicate 9 0 ++ ([IPPROTO_UDP] ++ as))).sum =
      (hostWords [0,IPPROTO_UDP]).sum + (hostWords as).sum :=
    hostWords_append (@rfl _ 0 : (List.replicate 9 0 ++ [IPPROTO_UDP]).length % 2 = 0) as
  have hzero : (hostWords [0,0]).sum = 0 := rfl
  rw [hsplit,udpOverlay_cells,hpr]
  simp only [pseudoHeader,List.append_assoc]
  simp (disch := simp [loc.addr_length,loc.port_length,dest.addr_length,dest.port_length]) only
    [hostWords_append,hsum,hzero]
  omega

end

theorem drop_behind {as : List Byte} {n : Nat} (h : as.length ≤ n) (bs : List Byte) :
    (as ++ bs).drop n = bs.drop (n - as.length) := by
  rw [List.drop_append,List.drop_eq_nil_of_le h,List.nil_append]

/-- Behind the IP header there is the UDP header with its checksum, and the payload. -/
theorem udpWrite_drop (netLen : Bool) (loc dest : SockaddrIn) (buf : Nat → Byte) (userlen : Nat) :
    let udp := loc.sin_port ++ (dest.sin_port ++ (big 2 (8 + userlen) ++
      (ByteOrder.bytes 2 (udpSumField (udpOverlay loc dest buf userlen) (userlen + 28)).toNat ++
        (cells 28 userlen).run buf)))
    (udpWrite netLen 0 loc dest buf userlen).drop uiSrc = loc.sin_addr ++ (dest.sin_addr ++ udp) ∧
      (udpWrite netLen 0 loc dest buf userlen).drop sizeofIp = udp := by
  have hlen : (if netLen then big 2 (userlen + 28)
      else ByteOrder.bytes 2 (userlen + 28)).length = 2 := by split <;> simp
  rw [udpWrite_zerosum,uiSrc,sizeofIp]
  generalize (if netLen then _ else _) = ip_len at *
  constructor <;>
    simp (disch := simp [hlen,loc.addr_length,dest.addr_length]) only [drop_behind,
      List.length_cons,List.length_nil,hlen,big_length,loc.addr_length,dest.addr_length,
      Nat.reduceAdd,Nat.reduceSub,List.drop_zero]

/-- The receiver's sum over pseudo-header, UDP header and payload is all ones. -/
theorem udpWrite_verifies (netLen : Bool) (loc dest : SockaddrIn) (buf : Nat → Byte)
    {userlen : Nat} (h : userlen ≤ 65507) :
    Verifies loc dest ((cells 28 userlen).run buf) (udpWrite netLen 0 loc dest buf userlen) ∧
      ∀ ui addr, Exact ui addr (userlen + 28) := by
  refine ⟨?_,fun ui addr => inCksum_exact ui addr (by omega)⟩
  have hp := loc.port_length
  have hp' := dest.port_length
  have hpayload : ((cells 28 userlen).run buf).length = userlen := by
    rw [run_cells,List.length_map,List.length_range]
  have hlen : userlen + 28 ≤ 65535 := by omega
  obtain ⟨hne,hmod⟩ := udpSumField_spec (udpOverlay loc dest buf userlen) hlen
  have hreceived := @received_sum buf loc dest
    (udpSumField (udpOverlay loc dest buf userlen) (userlen + 28)) userlen
  obtain ⟨hsrc,hudp⟩ := udpWrite_drop netLen loc dest buf userlen
  generalize udpSumField _ _ = ui_sum at *
  have hlt := ui_sum.toNat_lt
  refine ⟨?_,?_,?_,?_,?_,?_⟩
  · rw [hsrc,← List.append_assoc,List.take_left' (by simp [loc.addr_length,dest.addr_length])]
  · rw [hudp,← List.append_assoc,List.take_left' (by simp [hp,hp'])]
  · rw [← List.drop_drop,hudp,drop_behind (by omega),drop_behind (by omega),hp,hp',List.drop_zero,
      List.take_left' (big_length 2 _),netValue,big,List.reverse_reverse,ByteOrder.value_bytes,
      hpayload]
    omega
  · rw [← List.drop_drop,hudp,uhSum,drop_behind (by omega),drop_behind (by omega),hp,hp',
      drop_behind (by simp),big_length,List.drop_zero,List.take_left' (ByteOrder.bytes_length 2 _)]
    intro hzero
    have hvalue := ByteOrder.value_bytes 2 ui_sum.toNat
    rw [hzero] at hvalue
    change 0 = _ at hvalue
    omega
  · rw [← List.drop_drop,hudp,sizeofUdphdr,drop_behind (by omega),drop_behind (by omega),hp,hp',
      drop_behind (by simp),big_length,drop_behind (by simp),ByteOrder.bytes_length,List.drop_zero]
  · rw [hudp,hpayload]
    refine (OnesComplement.sum_eq_max_iff (by decide) (netWords_le _)).mpr ⟨?_,?_⟩
    · rw [netWords_sum,hreceived]
      omega
    · intro hzero
      have hle := hostWords_sum_le_netWords (pseudoHeader loc dest (8 + userlen) ++
        (loc.sin_port ++ (dest.sin_port ++ (big 2 (8 + userlen) ++
          (ByteOrder.bytes 2 ui_sum.toNat ++ (cells 28 userlen).run buf)))))
      omega

/-- The largest payload, of zeros, from port 7 to port 7. -/
theorem udpWrite_verifies_longest :
    let loc : SockaddrIn := ⟨[127,0,0,1],[0,7],rfl,rfl⟩
    Verifies loc loc ((cells 28 65507).run fun _ => 0)
        (udpWrite true 0 loc loc (fun _ => 0) 65507) ∧
      ∀ ui addr, Exact ui addr (65507 + 28) :=
  udpWrite_verifies true _ _ _ (Nat.le_refl _)

end UnixNet
