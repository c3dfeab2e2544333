import UnixNet.Library.BinaryFloat
import UnixNet.PacketFields
import UnixNet.RttTimer
import UnixNet.SumServer
set_option autoImplicit false

/-! ssntp: the clock difference that `sntp_proc` prints. -/

namespace UnixNet
open Inspect

def VERSION_MASK : UInt8 := 0x38
def MODE_MASK : UInt8 := 0x07
def MODE_CLIENT : UInt8 := 3

/-- 1970 - 1900 in seconds. -/
def JAN_1970 : Nat := 2208988800

/-- `sizeof(struct ntpdata)`, and where `xmt` is in it. -/
def sizeofNtpdata : Nat := 48
def ntpXmt : Nat := 40

def netLong (i : Nat) : Field Nat := do
  let bs ← cells i 4
  pure (netValue bs)

@[simp] theorem within_netLong {n : Nat} {buf : Nat → Byte} (i : Nat) :
    (netLong i).Within n buf ↔ i + 4 ≤ n := by
  simp [netLong]

def binary64 : BinaryFormat := ⟨53,-1074,by decide⟩

abbrev Double : Type := BinaryFloat binary64

def uint32 (v : Int) : Int := v % 2^32

inductive SntpLine where
  | tooSmall (n : Int)
  | client (version mode stratum : Nat)
  | difference (version mode stratum : Nat) (usec : Int)
  deriving DecidableEq, Repr

/-- `useci`, from the 32-bit fraction to parts per million. -/
def fractionUsec (fraction : Nat) : Int :=
  let usecf : Double := .round fraction
  let usecf := usecf.div (.round 4294967296)
  uint32 (trunc (usecf.mul (.round 1000000)).val)

/-- The difference from a server stamp, and what `%d` makes of the `uint32_t` that holds it. -/
def clockDifference (now : Timeval) (int_part fraction : Nat) : Int :=
  let nsec := uint32 (int_part - JAN_1970)
  let useci := fractionUsec fraction
  let sec := toLong (now.sec - nsec)
  let usec := toLong (now.usec - useci)
  let diff : Timeval := if usec < 0 then ⟨toLong (sec - 1),toLong (usec + 1000000)⟩ else ⟨sec,usec⟩
  toInt (uint32 (toLong (toLong (diff.sec * 1000000) + diff.usec)))

def sntpProc (n : Int) (now : Timeval) : Field SntpLine := do
  if n < sizeofNtpdata then pure (.tooSmall n)
  else
    let status ← cell 0
    let stratum ← cell 1
    let version := ((status &&& VERSION_MASK) >>> 3).toNat
    let mode := status &&& MODE_MASK
    if mode = MODE_CLIENT then pure (.client version mode.toNat stratum.toNat)
    else
      let int_part ← netLong ntpXmt
      let fraction ← netLong (ntpXmt + 4)
      pure (.difference version mode.toNat stratum.toNat (clockDifference now int_part fraction))

/-! The exact times in microseconds since 1970; the fraction of the server is rounded down. -/

def xmtSeconds (buf : Nat → Byte) : Nat := (netLong ntpXmt).run buf
def xmtFraction (buf : Nat → Byte) : Nat := (netLong (ntpXmt + 4)).run buf

def localUsec (now : Timeval) : Int := now.sec * 1000000 + now.usec

def stampUsec (int_part fraction : Nat) : Int :=
  ((int_part : Int) - JAN_1970) * 1000000 + fraction * 1000000 / 2^32

def xmtUsec (buf : Nat → Byte) : Int := stampUsec (xmtSeconds buf) (xmtFraction buf)

/-- A packet that is not from a client, with a stamp from 1970 on. -/
structure ServerPacket (n : Int) (buf : Nat → Byte) : Prop where
  long : sizeofNtpdata ≤ n
  mode : buf 0 &&& MODE_MASK ≠ MODE_CLIENT
  since : JAN_1970 ≤ xmtSeconds buf

def SntpLine.usec : SntpLine → Option Int
  | .difference _ _ _ usec => some usec
  | _ => none

theorem represents_natCast {k : Nat} (e : Nat) (h : k < 2^53) (he : e ≤ 1074) :
    binary64.Represents (k / (2 : ℚ) ^ e) := by
  refine ⟨k,-e,?_,?_,?_⟩
  · rw [Nat.abs_cast]
    exact_mod_cast h
  · simp only [binary64]
    omega
  · rw [zpow_neg,zpow_natCast,div_eq_mul_inv,Int.cast_natCast]

/-- No operation rounds. -/
theorem fractionUsec_eq {fraction : Nat} (h : fraction < 2^32) :
    fractionUsec fraction = fraction * 1000000 / 2^32 := by
  have h₁ := represents_natCast (k := fraction) 0 (by omega) (by decide)
  have h₂ := represents_natCast (k := 4294967296) 0 (by decide) (by decide)
  have h₃ := represents_natCast (k := 1000000) 0 (by decide) (by decide)
  have h₄ := represents_natCast (k := fraction) 32 (by omega) (by decide)
  have h₅ := represents_natCast (k := fraction * 1000000) 32 (by omega) (by decide)
  rw [pow_zero,div_one] at h₁ h₂ h₃
  push_cast at h₂ h₃ h₅
  have hdiv : (fraction : ℚ) / 4294967296 = fraction / 2 ^ 32 := by norm_num
  have hmul : (fraction : ℚ) / 2 ^ 32 * 1000000 = fraction * 1000000 / 2 ^ 32 := by ring
  have hval : (fraction : ℚ) * 1000000 / 2 ^ 32 =
      ((fraction * 1000000 : Nat) : ℚ) / (2 ^ 32 : Nat) := by
    push_cast
    rfl
  simp only [fractionUsec,BinaryFloat.div,BinaryFloat.mul,BinaryFloat.val_round h₁,
    BinaryFloat.val_round h₂,BinaryFloat.val_round h₃,hdiv,BinaryFloat.val_round h₄,hmul,
    BinaryFloat.val_round h₅]
  rw [RttInfo.trunc_floor (by positivity),hval,Rat.floor_natCast_div_natCast,uint32]
  push_cast
  omega

theorem toLong_mod (v : Int) : toLong v % 2^32 = v % 2^32 := by
  have h := Int.bmod_emod (x := v) (m := 2^64)
  rw [toLong]
  push_cast at h ⊢
  omega

theorem toInt_uint32 {v w : Int} (h : v % 2^32 = w % 2^32) : toInt (uint32 v) = toInt w := by
  rw [toInt,toInt,uint32,h]
  exact Int.emod_bmod w (2^32)

/-- The overflows go out of sight when the last 32 bits are taken. -/
theorem clockDifference_eq (now : Timeval) {int_part fraction : Nat} (h : JAN_1970 ≤ int_part)
    (hi : int_part < 2^32) (hf : fraction < 2^32) :
    clockDifference now int_part fraction =
      toInt (localUsec now - stampUsec int_part fraction) := by
  have hsec : uint32 (int_part - JAN_1970) = int_part - JAN_1970 := by
    unfold uint32 JAN_1970 at *
    omega
  simp only [clockDifference,hsec,fractionUsec_eq hf]
  apply toInt_uint32
  rw [toLong_mod,localUsec,stampUsec]
  have h₁ := toLong_mod (now.sec - (int_part - JAN_1970))
  have h₂ := toLong_mod (now.usec - fraction * 1000000 / 2^32)
  generalize toLong (now.sec - (int_part - JAN_1970)) = sec at *
  generalize toLong (now.usec - fraction * 1000000 / 2^32) = usec at *
  split
  · have h₃ := toLong_mod (sec - 1)
    have h₄ := toLong_mod (usec + 1000000)
    have h₅ := toLong_mod (toLong (sec - 1) * 1000000)
    dsimp only
    omega
  · have h₅ := toLong_mod (sec * 1000000)
    dsimp only
    omega

theorem netLong_lt (i : Nat) (buf : Nat → Byte) : (netLong i).run buf < 2^32 := by
  have h := ByteOrder.value_lt ((cells i 4).run buf).reverse
  rw [List.length_reverse,run_cells,List.length_map,List.length_range] at h
  exact h

theorem sntpProc_usec {n : Int} {buf : Nat → Byte} (now : Timeval) (h : ServerPacket n buf) :
    ((sntpProc n now).run buf).usec = some (toInt (localUsec now - xmtUsec buf)) := by
  have hdiff := clockDifference_eq now h.since (netLong_lt _ _) (netLong_lt (ntpXmt + 4) buf)
  simp only [sntpProc,if_neg (not_lt.mpr h.long),run_bind,run_cell,if_neg h.mode,run_pure,
    SntpLine.usec]
  exact congrArg some hdiff

/-- The number is the difference exactly when 31 bits hold it. -/
theorem sntpProc_exact (n : Int) (buf : Nat → Byte) (now : Timeval) (h : ServerPacket n buf) :
    ((sntpProc n now).run buf).usec = some (localUsec now - xmtUsec buf) ↔
      -2^31 ≤ localUsec now - xmtUsec buf ∧ localUsec now - xmtUsec buf < 2^31 := by
  rw [sntpProc_usec now h,Option.some.injEq]
  generalize localUsec now - xmtUsec buf = d
  constructor
  · intro hd
    have hlow : -((2^32 : Nat) / 2) ≤ d.bmod (2^32) := Int.le_bmod (by decide)
    have hhigh : d.bmod (2^32) < ((2^32 : Nat) + 1) / 2 := Int.bmod_lt (by decide)
    rw [toInt] at hd
    rw [hd] at hlow hhigh
    omega
  · rintro ⟨hlow,hhigh⟩
    exact Int.bmod_eq_of_le (by omega) (by omega)

def sampleReply : Nat → Byte := fun i => if i = 0 then 0x24 else if i = ntpXmt then 0xE9 else 0

theorem sampleReply_packet : ServerPacket 48 sampleReply := ⟨by decide,by decide,by decide⟩

theorem sntpProc_exact_hour :
    ((sntpProc 48 ⟨1700102529,0⟩).run sampleReply).usec =
      some (localUsec ⟨1700102529,0⟩ - xmtUsec sampleReply) :=
  (sntpProc_exact 48 sampleReply ⟨1700102529,0⟩ sampleReply_packet).mpr (by decide)

theorem sntpProc_wraps :
    ¬ ∀ (n : Int) (buf : Nat → Byte) (now : Timeval), ServerPacket n buf →
      ((sntpProc n now).run buf).usec = some (localUsec now - xmtUsec buf) := by
  intro h
  have hexact := h 48 sampleReply ⟨1700106128,0⟩ sampleReply_packet
  rw [sntpProc_usec _ sampleReply_packet] at hexact
  exact absurd hexact (by decide)

end UnixNet
