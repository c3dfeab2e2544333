import Mathlib.Data.List.Range
import UnixNet.RoutingMessage
set_option autoImplicit false

/-! `get_rtaddrs` as the inverse of the packing: every pointer, and where the last one stops. -/

namespace UnixNet.Route
open Memory

/-- The loop of `get_rtaddrs` with the `sa` that it ends with. -/
def rtaddrsLoop (addrs : Nat) :
    Nat → Nat → List Byte → Option (List (Option (List Byte)) × List Byte)
  | 0, _, sa => some ([],sa)
  | n+1, i, sa =>
    if addrs.testBit i then do
      let sa_len ← loadBig sa 0 1
      let r ← rtaddrsLoop addrs n (i + 1) (sa.drop (nextSa sa_len))
      return (some sa :: r.1,r.2)
    else (rtaddrsLoop addrs n (i + 1) sa).map fun r => (none :: r.1,r.2)

theorem rtaddrsLoop_rti (addrs n i : Nat) (sa : List Byte) :
    (rtaddrsLoop addrs n i sa).map Prod.fst = rtaddrsFrom addrs n i sa := by
  induction n generalizing i sa with
  | zero => rfl
  | succ n ih =>
    rw [rtaddrsLoop,rtaddrsFrom]
    split
    · cases loadBig sa 0 1 with
      | none => rfl
      | some sa_len =>
        simp only [Option.bind_eq_bind,Option.bind_some,← ih]
        cases rtaddrsLoop addrs n (i + 1) (sa.drop (nextSa sa_len)) <;> rfl
    · rw [← ih]
      cases rtaddrsLoop addrs n (i + 1) sa <;> rfl

/-- An address with its padding. -/
structure PackedSa where
  sa_len : UInt8
  behind : List Byte
  padded : behind.length + 1 =
    if sa_len = 0 then ULONG else ULONG * ((sa_len.toNat + (ULONG - 1)) / ULONG)

def PackedSa.bytes (p : PackedSa) : List Byte := p.sa_len :: p.behind

/-- How many of the `n` bits from the `i`-th on are set. -/
def bits (addrs i n : Nat) : Nat := ((List.range' i n).filter addrs.testBit).length

theorem nextSa_eq : ∀ sa_len < 256, nextSa sa_len =
    if sa_len = 0 then ULONG else ULONG * ((sa_len + (ULONG - 1)) / ULONG) := by
  decide +kernel

theorem PackedSa.bytes_length (p : PackedSa) : p.bytes.length = nextSa p.sa_len.toNat := by
  have hzero : p.sa_len = 0 ↔ p.sa_len.toNat = 0 := UInt8.toNat_inj.symm
  rw [nextSa_eq _ p.sa_len.toNat_lt,bytes,List.length_cons,p.padded]
  simp only [hzero]

theorem PackedSa.loadBig_bytes (p : PackedSa) (rest : List Byte) :
    loadBig (p.bytes ++ rest) 0 1 = some p.sa_len.toNat := by
  simp [loadBig,load,bytes,ByteOrder.value]

theorem bits_succ (addrs i n : Nat) :
    bits addrs i (n + 1) = bits addrs (i + 1) n + (if addrs.testBit i then 1 else 0) := by
  rw [bits,List.range'_succ,List.filter_cons]
  split <;> rfl

theorem bits_lt {addrs i n : Nat} (hi : i < n) (h : addrs.testBit i = true) :
    bits addrs 0 i < bits addrs 0 n := by
  obtain ⟨k,rfl⟩ := Nat.exists_eq_add_of_lt hi
  have hsplit : List.range' 0 (i + (k + 1)) = List.range' 0 i ++ List.range' i (k + 1) := by
    simpa using (List.range'_append_1 (s := 0) (m := i) (n := k + 1)).symm
  rw [bits,bits,Nat.add_assoc,hsplit,List.filter_append,List.length_append]
  have hbit := bits_succ addrs i k
  rw [if_pos h,bits] at hbit
  omega

/-- The pointers, when the addresses of the bits from the `i`-th on lie at `sa`. -/
theorem rtaddrsLoop_packed (addrs n i : Nat) {sas : List PackedSa}
    (hsas : sas.length = bits addrs i n) (rest : List Byte) :
    rtaddrsLoop addrs n i (sas.flatMap PackedSa.bytes ++ rest) =
      some ((List.range n).map fun k => if addrs.testBit (i + k) then
        some ((sas.drop (bits addrs i k)).flatMap PackedSa.bytes ++ rest) else none,rest) := by
  induction n generalizing i sas with
  | zero =>
    rw [List.eq_nil_of_length_eq_zero hsas]
    rfl
  | succ n ih =>
    have hindex : ∀ k, i + (k + 1) = i + 1 + k := fun k => by omega
    rw [bits_succ] at hsas
    rw [rtaddrsLoop,List.range_succ_eq_map,List.map_cons,List.map_map]
    by_cases hbit : addrs.testBit i
    · rw [if_pos hbit] at hsas
      obtain ⟨p,sas,rfl⟩ := List.exists_cons_of_length_eq_add_one hsas
      have hlen : sas.length = bits addrs (i + 1) n := Nat.succ.inj hsas
      rw [if_pos hbit,List.flatMap_cons,List.append_assoc,p.loadBig_bytes,Option.bind_eq_bind,
        Option.bind_some,← p.bytes_length,List.drop_left,ih (i + 1) hlen,
        Option.bind_eq_bind,Option.bind_some,if_pos (show addrs.testBit (i + 0) = true from hbit)]
      refine congrArg some (Prod.ext (congrArg₂ _ ?_ (List.map_congr_left fun k _ => ?_)) rfl)
      · simp [bits]
      · rw [Function.comp_apply,Nat.succ_eq_add_one,hindex k,bits_succ,if_pos hbit,
          List.drop_succ_cons]
    · rw [if_neg hbit] at hsas
      rw [if_neg hbit,ih (i + 1) hsas,Option.map_some,
        if_neg (show ¬ addrs.testBit (i + 0) = true from hbit)]
      refine congrArg some (Prod.ext (congrArg₂ _ rfl (List.map_congr_left fun k _ => ?_)) rfl)
      rw [Function.comp_apply,Nat.succ_eq_add_one,hindex k,bits_succ,if_neg hbit]
      rfl

/-- The pointer of a set bit is to the address with as many before it as there are lower bits; the
loop ends right behind the addresses. -/
theorem getRtaddrs_packed (addrs : Nat) (sas : List PackedSa)
    (hsas : sas.length = bits addrs 0 RTAX_MAX) (rest : List Byte) :
    ∃ rti, rtaddrsLoop addrs RTAX_MAX 0 (sas.flatMap PackedSa.bytes ++ rest) = some (rti,rest) ∧
      getRtaddrs addrs (sas.flatMap PackedSa.bytes ++ rest) = some rti ∧
      ∀ i < RTAX_MAX, (addrs.testBit i = true → ∃ before p after,
        sas = before ++ p :: after ∧ before.length = bits addrs 0 i ∧
        rti[i]? = some (some (p.bytes ++ after.flatMap PackedSa.bytes ++ rest))) ∧
        (addrs.testBit i = false → rti[i]? = some none) := by
  have hloop := rtaddrsLoop_packed addrs RTAX_MAX 0 hsas rest
  refine ⟨_,hloop,?_,fun i hi => ⟨fun hbit => ?_,fun hbit => ?_⟩⟩
  · rw [getRtaddrs,← rtaddrsLoop_rti,hloop,Option.map_some]
  · have hlt : bits addrs 0 i < sas.length := hsas ▸ bits_lt hi hbit
    refine ⟨sas.take (bits addrs 0 i),sas[bits addrs 0 i],sas.drop (bits addrs 0 i + 1),?_,?_,?_⟩
    · rw [← List.drop_eq_getElem_cons hlt,List.take_append_drop]
    · rw [List.length_take,Nat.min_eq_left (Nat.le_of_lt hlt)]
    · rw [List.getElem?_map,List.getElem?_range hi,Option.map_some,Nat.zero_add,if_pos hbit,
        List.drop_eq_getElem_cons hlt,List.flatMap_cons]
  · rw [List.getElem?_map,List.getElem?_range hi,Option.map_some,Nat.zero_add,hbit]
    rfl

/-- An address of 20 bytes and one of length 0. -/
def link20 : PackedSa := ⟨20,List.replicate 23 0,by decide⟩
def empty8 : PackedSa := ⟨0,List.replicate 7 0,by decide⟩

theorem getRtaddrs_packed_two :
    ∃ rti, rtaddrsLoop 20 RTAX_MAX 0 ([empty8,link20].flatMap PackedSa.bytes ++ [1]) =
        some (rti,[1]) ∧
      getRtaddrs 20 ([empty8,link20].flatMap PackedSa.bytes ++ [1]) = some rti ∧
      ∀ i < RTAX_MAX, (Nat.testBit 20 i = true → ∃ before p after,
        [empty8,link20] = before ++ p :: after ∧ before.length = bits 20 0 i ∧
        rti[i]? = some (some (p.bytes ++ after.flatMap PackedSa.bytes ++ [1]))) ∧
        (Nat.testBit 20 i = false → rti[i]? = some none) :=
  getRtaddrs_packed 20 [empty8,link20] (by decide) [1]

end UnixNet.Route
