import Mathlib.Algebra.Ring.Int.Defs
import Mathlib.Data.List.Flatten
import Mathlib.Tactic.Ring
import UnixNet.EventLoop
import UnixNet.WebChild
set_option autoImplicit false

/-! `get_ifi_info` with `SIOCGIFCONF`: the size of the buffer. -/

namespace UnixNet

def EINVAL : Errno := .other 22

/-- The list of the kernel, and the answers to the calls of `malloc` and `ioctl`, by number. -/
structure Ifconf where
  sizeofIfreq : Nat
  positive : 0 < sizeofIfreq
  small : 110 * sizeofIfreq < 2^31
  records : List (List Byte)
  short : ∀ r ∈ records, r.length ≤ 10 * sizeofIfreq
  malloc : Nat → Bool
  ioctl : Nat → Option Errno

/-- The longest prefix of whole records that fits in `len` bytes. -/
def fitting : Nat → List (List Byte) → List (List Byte)
  | _, [] => []
  | len, r :: rs => if r.length ≤ len then r :: fitting (len - r.length) rs else []

namespace Ifconf

/-- The loop over growing buffers: the number of the last turn, and the list or the exit. -/
def sizing (k : Ifconf) :
    Nat → Nat → Int → Int → Option (Nat × Except Exit (List (List Byte)))
  | 0, _, _, _ => none
  | fuel+1, call, len, lastlen =>
    if len < 0 ∨ k.malloc call = false then some (call,.error (.errSys "malloc error"))
    else
      match k.ioctl call with
      | some errno =>
        if errno ≠ EINVAL ∨ lastlen ≠ 0 then some (call,.error (.errSys "ioctl error"))
        else k.sizing fuel (call + 1) (toInt (len + 10 * k.sizeofIfreq)) lastlen
      | none =>
        let ifc := fitting len.toNat k.records
        let ifc_len : Int := ifc.flatten.length
        if ifc_len = lastlen then some (call,.ok ifc)
        else k.sizing fuel (call + 1) (toInt (len + 10 * k.sizeofIfreq)) ifc_len

/-- `lastlen = 0` and the first size. -/
def run (k : Ifconf) (fuel : Nat) : Option (Nat × Except Exit (List (List Byte))) :=
  k.sizing fuel 0 (100 * k.sizeofIfreq) 0

/-- The size that a turn asks for, without the limit of an `int`. -/
def len (k : Ifconf) (call : Nat) : Nat := 100 * k.sizeofIfreq + 10 * k.sizeofIfreq * call

/-- How the loop ends in its turn `call`. -/
inductive Ends (k : Ifconf) (call : Nat) : Except Exit (List (List Byte)) → Prop where
  | complete : k.Ends call (.ok k.records)
  | ioctl (errno : Errno) (hfails : k.ioctl call = some errno)
      (hwhy : errno = EINVAL → ∃ earlier < call, k.ioctl earlier = none) :
      k.Ends call (.error (.errSys "ioctl error"))
  | malloc (hfails : k.malloc call = false ∨ 2^31 ≤ k.len call) :
      k.Ends call (.error (.errSys "malloc error"))

section
variable {k : Ifconf}

theorem len_succ (call : Nat) : k.len (call + 1) = k.len call + 10 * k.sizeofIfreq := by
  unfold len
  ring

theorem fitting_le (len : Nat) (records : List (List Byte)) :
    (fitting len records).flatten.length ≤ len := by
  induction records generalizing len with
  | nil => simp [fitting]
  | cons r rs ih =>
    rw [fitting]
    split
    · have h := ih (len - r.length)
      rw [List.flatten_cons,List.length_append]
      omega
    · simp

/-- A list that is cut leaves less space than a record may need. -/
theorem fitting_cut {bound len : Nat} {records : List (List Byte)}
    (hshort : ∀ r ∈ records, r.length ≤ bound) (h : fitting len records ≠ records) :
    len < (fitting len records).flatten.length + bound := by
  induction records generalizing len with
  | nil => exact absurd rfl h
  | cons r rs ih =>
    obtain ⟨hr,hrs⟩ := List.forall_mem_cons.mp hshort
    rw [fitting] at h ⊢
    split at h
    · rename_i hfits
      have hcut := ih hrs fun heq => h (by rw [heq])
      rw [if_pos hfits,List.flatten_cons,List.length_append]
      omega
    · rename_i hfits
      rw [if_neg hfits,List.flatten_nil,List.length_nil]
      omega

/-- What the turns before `call` have left in `len` and `lastlen`. -/
structure Sizing (k : Ifconf) (call : Nat) (len lastlen : Int) : Prop where
  grown : len = k.len call ∧ len < 2^31 ∨
    len < 0 ∧ 2^31 ≤ k.len call ∧ k.len call < 2^31 + 10 * k.sizeofIfreq
  room : lastlen + 10 * k.sizeofIfreq ≤ k.len call
  answered : lastlen = 0 ∨ ∃ earlier < call, k.ioctl earlier = none

theorem Sizing.next {call : Nat} {len lastlen lastlen' : Int} (h : Sizing k call len lastlen)
    (hpos : ¬ len < 0) (hlast : lastlen' ≤ len)
    (hanswered : lastlen' = 0 ∨ ∃ earlier < call + 1, k.ioctl earlier = none) :
    Sizing k (call + 1) (toInt (len + 10 * k.sizeofIfreq)) lastlen' := by
  have hsmall := k.small
  have hsucc := k.len_succ call
  obtain ⟨heq,hlt⟩ := h.grown.resolve_right fun hneg => hpos hneg.1
  refine ⟨?_,by omega,hanswered⟩
  -- the sum is below 2^32, so past 2^31 it is negative
  rw [toInt,Int.bmod_def]
  push_cast
  split <;> omega

theorem Sizing.complete {call : Nat} {len lastlen : Int} (h : Sizing k call len lastlen)
    (hpos : ¬ len < 0) (hsame : ((fitting len.toNat k.records).flatten.length : Int) = lastlen) :
    fitting len.toNat k.records = k.records := by
  obtain ⟨heq,hlt⟩ := h.grown.resolve_right fun hneg => hpos hneg.1
  have hroom := h.room
  by_contra hne
  have hcut := fitting_cut k.short hne
  omega

theorem sizing_ends (fuel : Nat) {call : Nat} {len lastlen : Int} (h : Sizing k call len lastlen)
    (hfuel : 2^31 + 10 * k.sizeofIfreq ≤ k.len (call + fuel)) :
    ∃ last e, k.sizing fuel call len lastlen = some (last,e) ∧ k.Ends last e := by
  induction fuel generalizing call len lastlen with
  | zero =>
    rw [Nat.add_zero] at hfuel
    have hgrown := h.grown
    omega
  | succ fuel ih =>
    rw [← Nat.succ_add_eq_add_succ] at hfuel
    rw [sizing]
    by_cases hmalloc : len < 0 ∨ k.malloc call = false
    · rw [if_pos hmalloc]
      refine ⟨call,_,rfl,.malloc ?_⟩
      obtain hneg | hfails := hmalloc
      · have hgrown := h.grown
        exact .inr (by omega)
      · exact .inl hfails
    · rw [if_neg hmalloc]
      have hpos := (not_or.mp hmalloc).1
      cases hioctl : k.ioctl call with
      | some errno =>
        dsimp only
        by_cases hexit : errno ≠ EINVAL ∨ lastlen ≠ 0
        · rw [if_pos hexit]
          refine ⟨call,_,rfl,.ioctl errno hioctl fun heinval => ?_⟩
          exact h.answered.resolve_left (hexit.resolve_left (not_not.mpr heinval))
        · rw [if_neg hexit]
          have hzero := not_not.mp (not_or.mp hexit).2
          exact ih (h.next hpos (by omega) (.inl hzero)) hfuel
      | none =>
        dsimp only
        split
        · rename_i hsame
          rw [h.complete hpos hsame]
          exact ⟨call,_,rfl,.complete⟩
        · have hle := fitting_le len.toNat k.records
          exact ih (h.next hpos (by omega) (.inr ⟨call,Nat.lt_succ_self call,hioctl⟩)) hfuel

/-- The loop ends, and it is left with the whole list. -/
theorem run_ends (k : Ifconf) : ∃ fuel call e, k.run fuel = some (call,e) ∧ k.Ends call e := by
  have hpos := k.positive
  have hsmall := k.small
  have hstart : Sizing k 0 (100 * k.sizeofIfreq : Nat) 0 := by
    refine ⟨.inl ⟨?_,by omega⟩,?_,.inl rfl⟩
    · simp [len]
    · simp only [len]
      omega
  refine ⟨2^31 + 10 * k.sizeofIfreq,sizing_ends _ hstart ?_⟩
  rw [len,Nat.zero_add]
  have hle := Nat.le_mul_of_pos_left (2^31 + 10 * k.sizeofIfreq) (by omega : 0 < 10 * k.sizeofIfreq)
  omega

/-- A kernel that answers the first call and refuses the second. -/
def refuses : Ifconf where
  sizeofIfreq := 40
  positive := by decide
  small := by decide
  records := [[0]]
  short := by decide
  malloc _ := true
  ioctl call := if call = 1 then some EINVAL else none

theorem run_exits_on_einval :
    ¬ ∀ (k : Ifconf), (∀ call errno, k.ioctl call = some errno → errno = EINVAL) →
      ∀ fuel call, k.run fuel ≠ some (call,.error (.errSys "ioctl error")) := by
  intro h
  refine h refuses (fun call errno hioctl => ?_) 2 1 (by decide)
  unfold refuses at hioctl
  dsimp only at hioctl
  split at hioctl
  · exact (Option.some.inj hioctl).symm
  · cases hioctl

end

end Ifconf

end UnixNet
