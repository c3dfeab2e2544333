import UnixNet.PfKey
import UnixNet.KeyText
set_option autoImplicit false

/-! Which keys that `main` accepts leave room for the whole message in `buf[4096]`. -/

namespace UnixNet.PfKey
open Memory Records Sa

/-- The words of the key extension, with nothing cut off. -/
def keyExtWords (keybits : Int) : Nat := (8 + keyBytes keybits + 7) / 8

def keyAt (src dst : Inet) : Nat := 32 + addressWords src * 8 + addressWords dst * 8

/-- The length fields in the buffer have the true lengths. -/
structure Recorded (src dst : Inet) (keybits : Int) (b : Builder) : Prop where
  len : b.len = keyAt src dst + keyExtWords keybits * 8
  msg : loadBig b.buf 4 2 = some (b.len / 8)
  sa : loadBig b.buf 16 2 = some (16 / 8)
  address_src : loadBig b.buf 32 2 = some (addressWords src)
  address_dst : loadBig b.buf (32 + addressWords src * 8) 2 = some (addressWords dst)
  key : loadBig b.buf (keyAt src dst) 2 = some (keyExtWords keybits)

section
variable {bareX : Bool} {argv4 argv5 keydata : List Byte} {keybits : Int}

/-- What `main` makes sure of before it calls `sadb_add`. -/
theorem accepted (hbits : parseKeybits argv4 = .ok keybits)
    (hkey : parseKey bareX keybits argv5 = .ok keydata) :
    keybits = 8 * keydata.length ∧ keybits < 2^31 ∨
      keydata = [] ∧ ∃ j, keybits = 8 * j ∧ j < 0 ∧ -2^31 ≤ 8 * j := by
  have hint : -2^31 ≤ keybits ∧ keybits < 2^31 ∧ keybits.tmod 8 = 0 := by
    rw [parseKeybits] at hbits
    split at hbits
    · cases hbits
    · rename_i v ep _
      simp only at hbits
      split at hbits
      · cases hbits
      · rename_i htest
        obtain rfl := Except.ok.inj hbits
        rw [not_or,not_not,not_not] at htest
        have hlow := Int.le_bmod (x := v) (m := 2^32) (by decide)
        have hhigh := Int.bmod_lt (x := v) (m := 2^32) (by decide)
        exact ⟨hlow,hhigh,htest.2⟩
  obtain ⟨hlow,hhigh,hmod⟩ := hint
  obtain ⟨j,rfl⟩ := Int.dvd_of_tmod_eq_zero hmod
  obtain hneg | hpos := Int.lt_or_le j 1
  · have hturns : ((8 * j).tdiv 8).toNat = 0 := by
      rw [Int.mul_tdiv_cancel_left _ (by decide)]
      omega
    have hnil : keydata = [] := by
      rw [parseKey,hturns] at hkey
      simp only [keyLoop] at hkey
      split at hkey
      · cases hkey
      · exact (Except.ok.inj hkey).symm
    subst hnil
    obtain hneg | rfl : j < 0 ∨ j = 0 := by omega
    · exact .inr ⟨rfl,j,rfl,hneg,hlow⟩
    · exact .inl ⟨rfl,hhigh⟩
  · obtain ⟨k,rfl⟩ := Int.eq_ofNat_of_zero_le (by omega : 0 ≤ j)
    obtain ⟨-,-,rfl⟩ := (parseKey_ok_iff bareX (by omega) argv5 keydata).mp hkey
    rw [List.length_map,List.length_range]
    exact .inl ⟨rfl,hhigh⟩

/-- The key is copied from inside `keydata` and to inside `buf`. -/
theorem addKey_some {b b' : Builder} (h : addKey keybits keydata b = some b') :
    keyBytes keybits ≤ keydata.length ∧ b.p + 8 + keyBytes keybits ≤ b.buf.length := by
  simp only [addKey,Option.bind_eq_bind,Option.bind_eq_some_iff] at h
  obtain ⟨buf,hhdr,key,hload,buf',hbody,-⟩ := h
  have hkeylen := load_length hload
  have hbuf := store_length hhdr
  have hsource := load_bound hload
  have htarget := store_bound hbody
  omega

variable {src dst : Inet} {pid type alg spi : Nat}

theorem sadbAdd_some {b : Builder}
    (h : sadbAdd pid src.bytes dst.bytes type alg spi keybits keydata = some b) :
    keyBytes keybits ≤ keydata.length ∧ keyAt src dst + 8 + keyBytes keybits ≤ 4096 := by
  obtain ⟨b₂,hfilled,hadd⟩ := sadbAdd_addresses pid src dst type alg spi keybits keydata
  rw [hadd] at h
  obtain ⟨b₃,hkey,-⟩ := Option.bind_eq_some_iff.mp h
  have hle := addressWords_le src
  have hle' := addressWords_le dst
  have hroom := addKey_some hkey
  rw [hfilled.p,hfilled.buf] at hroom
  simp only [List.length_append,sadbMsg_length,sadbSa_length,addressExt_length,
    List.length_replicate] at hroom
  unfold keyAt
  omega

theorem sadbAdd_recorded
    (hroom : keyAt src dst + 8 + keydata.length ≤ 4096) :
    ∃ b, sadbAdd pid src.bytes dst.bytes type alg spi (8 * keydata.length : Nat) keydata = some b ∧
      Recorded src dst (8 * keydata.length : Nat) b := by
  have hle := addressWords_le src
  have hle' := addressWords_le dst
  unfold keyAt at hroom
  have hwords : keyExtWords (8 * keydata.length : Nat) = keyWords keydata := by
    rw [keyExtWords,keyBytes_eq (by omega),keyWords]
  have htotal : totalLength src dst keydata ≤ 4096 := by
    unfold totalLength keyWords
    omega
  have hwordsLe : keyWords keydata < 65536 := by
    unfold keyWords
    omega
  obtain ⟨b,hadd,hlen,hbuf⟩ := sadbAdd_eq pid src dst type alg spi keydata htotal
  -- each length stands in the first two bytes of its extension
  have hfirst (words : Nat) (tail : List Byte) (hlt : words < 256 ^ 2) :
      loadBig (big 2 words ++ tail) 0 2 = some words := by
    rw [loadBig_here,Nat.mod_eq_of_lt hlt]
  have hbuf : b.buf = sadbMsg type pid (totalLength src dst keydata / 8) ++ (sadbSa spi alg ++
      (addressExt SADB_EXT_ADDRESS_SRC src ++ (addressExt SADB_EXT_ADDRESS_DST dst ++
        (keyExt keydata ++ List.replicate (4096 - totalLength src dst keydata) 0)))) := by
    rw [hbuf]
    simp [extensions]
  have hafter (m : List Byte) (i : Nat) (h : 32 ≤ i) : loadBig
      (sadbMsg type pid (totalLength src dst keydata / 8) ++ (sadbSa spi alg ++ m)) i 2 =
        loadBig m (i - 32) 2 := by
    rw [loadBig_shift (by rw [sadbMsg_length]; omega),
      loadBig_shift (by rw [sadbMsg_length,sadbSa_length]; omega),sadbMsg_length,sadbSa_length,
      Nat.sub_sub]
  refine ⟨b,hadd,?_,?_,?_,?_,?_,?_⟩
  · rw [hlen,hwords,totalLength,keyAt]
    omega
  · rw [hlen,hbuf,sadbMsg]
    simp [loadBig_here,loadBig_shift]
    omega
  · rw [hbuf,loadBig_shift (by simp),sadbMsg_length,sadbSa]
    simp only [List.append_assoc]
    exact hfirst _ _ (by decide)
  · rw [hbuf,hafter _ _ (Nat.le_refl _)]
    simp only [addressExt,pad,sadbAddress,List.append_assoc]
    exact hfirst _ _ (by omega)
  · rw [hbuf,hafter _ _ (Nat.le_add_right _ _),Nat.add_sub_cancel_left,
      loadBig_shift (by rw [addressExt_length]),addressExt_length,Nat.sub_self]
    simp only [addressExt,pad,sadbAddress,List.append_assoc]
    exact hfirst _ _ (by omega)
  · have hsub : keyAt src dst - 32 - addressWords src * 8 = addressWords dst * 8 := by
      unfold keyAt
      omega
    rw [hbuf,hafter _ _ (by unfold keyAt; omega),
      loadBig_shift (by rw [addressExt_length]; unfold keyAt; omega),addressExt_length,hsub,
      loadBig_shift (by rw [addressExt_length]),addressExt_length,Nat.sub_self,hwords]
    simp only [keyExt,pad,sadbKey,List.append_assoc]
    exact hfirst _ _ (by omega)

end

/-- The message is built inside the buffer, with its true lengths, exactly when the number of bits
is not negative and its bytes find room behind the rest of the message. -/
theorem sadbAdd_room_iff {bareX : Bool} {argv4 argv5 keydata : List Byte} {keybits : Int}
    (hbits : parseKeybits argv4 = .ok keybits) (hkey : parseKey bareX keybits argv5 = .ok keydata)
    (pid type alg spi : Nat) (src dst : Inet) :
    (∃ b, sadbAdd pid src.bytes dst.bytes type alg spi keybits keydata = some b ∧
      Recorded src dst keybits b) ↔ 0 ≤ keybits ∧ keyAt src dst + 8 + keybits / 8 ≤ 4096 := by
  obtain ⟨rfl,hint⟩ | ⟨rfl,j,rfl,hneg,hlow⟩ := accepted hbits hkey
  · have hdiv : 8 * (keydata.length : Int) / 8 = keydata.length := by omega
    have hcast : (8 * (keydata.length : Int)) = (8 * keydata.length : Nat) := by omega
    rw [hdiv]
    constructor
    · rintro ⟨b,hadd,-⟩
      rw [hcast] at hadd
      have hroom := (sadbAdd_some hadd).2
      rw [keyBytes_eq (by omega)] at hroom
      omega
    · rintro ⟨-,hroom⟩
      rw [hcast]
      exact sadbAdd_recorded (by omega)
  · refine iff_of_false ?_ (by omega)
    rintro ⟨b,hadd,-⟩
    have hbytes := (sadbAdd_some hadd).1
    have hhuge : 0 < keyBytes (8 * j) := by
      rw [keyBytes,Int.mul_tdiv_cancel_left _ (by decide)]
      omega
    rw [List.length_nil] at hbytes
    omega

/-- The address that `getaddrinfo` gives for 127.0.0.1. -/
def loopback : Inet := ⟨[16,2,0,0, 127,0,0,1, 0,0,0,0, 0,0,0,0],_,.inl ⟨rfl,rfl⟩⟩

/-- The smallest key, of no bits. -/
theorem sadbAdd_room_empty :
    (∃ b, sadbAdd 1 loopback.bytes loopback.bytes 2 2 0x9876 0 [] = some b ∧
      Recorded loopback loopback 0 b) ↔
        (0 : Int) ≤ 0 ∧ (keyAt loopback loopback : Int) + 8 + 0 / 8 ≤ 4096 :=
  have hbits : parseKeybits [48] = .ok 0 := by decide +kernel
  have hkey : parseKey false 0 [] = .ok [] := by decide +kernel
  sadbAdd_room_iff hbits hkey 1 2 2 0x9876 loopback loopback

/-- `-8` with an empty key is accepted, and so is `32072` with as many zeros as it needs. -/
theorem sadbAdd_no_room :
    (parseKeybits [45,56] = .ok (-8) ∧ parseKey false (-8) [] = .ok [] ∧
      sadbAdd 1 loopback.bytes loopback.bytes 2 2 0x9876 (-8) [] = none) ∧
    ∃ text keydata, parseKeybits [51,50,48,55,50] = .ok 32072 ∧
      parseKey false 32072 text = .ok keydata ∧
        sadbAdd 1 loopback.bytes loopback.bytes 2 2 0x9876 32072 keydata = none := by
  have hnone (keybits : Int) (keydata : List Byte)
      (h : keydata.length < keyBytes keybits ∨ 4096 < 88 + keyBytes keybits) :
      sadbAdd 1 loopback.bytes loopback.bytes 2 2 0x9876 keybits keydata = none := by
    refine Option.eq_none_iff_forall_ne_some.mpr fun b hb => ?_
    have hroom := sadbAdd_some hb
    have hat : keyAt loopback loopback = 80 := rfl
    omega
  refine ⟨⟨by decide +kernel,by decide +kernel,hnone (-8) [] (.inl (by decide +kernel))⟩,?_⟩
  have htext : keyText (List.replicate 8018 48) = List.replicate 8018 48 := rfl
  have hhex : HexText (8 * (4009 : Nat)) (keyText (List.replicate 8018 48)) := by
    rw [htext]
    refine ⟨by rw [List.length_replicate]; rfl,fun c hc => ?_⟩
    rw [List.eq_of_mem_replicate hc]
    decide
  have hkey := hexText_accepted false (by decide) (by decide) hhex
  exact ⟨_,_,by decide +kernel,hkey,hnone _ _ (.inr (by decide +kernel))⟩

end UnixNet.PfKey
