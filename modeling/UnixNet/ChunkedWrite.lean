import UnixNet.WebChild
import UnixNet.Library.Segments
set_option autoImplicit false

/-! sock: `dowrite`, which writes a buffer in one call, in chunks, or with `writev`. -/

namespace UnixNet
open Segments

/-- `iov_base`, as an offset from `vptr`, and `iov_len`. -/
abbrev Iovec : Type := Nat × Nat

inductive WriteCall where
  | write (bs : List Byte) : WriteCall
  | writev (bss : List (List Byte)) : WriteCall

def WriteCall.bytes : WriteCall → List Byte
  | .write bs => bs
  | .writev bss => bss.flatten

/-- What the system returns for a call, after the calls that there have been. -/
abbrev WriteSystem : Type := List WriteCall → WriteCall → Int

/-- The calls that were made, and the value returned; `none` is the err_quit. -/
structure Dowrite where
  calls : List WriteCall
  ret : Option Int

/-- The `int` chunksize that `dowrite` comes to. -/
def chunksize (maxiov nbytes : Nat) : Int :=
  let size := toInt (nbytes / maxiov : Nat)
  if size ≤ 0 then 1 else if nbytes % maxiov ≠ 0 then size + 1 else size

/-- The loop that fills `iov`, from `ptr` on, and whether it ended with `i == UIO_MAXIOV`. -/
def fillIov (size : Int) : Nat → Nat → Int → List Iovec × Bool
  | 0, _, _ => ([],true)
  | left+1, ptr, nleft =>
    let n := if size ≤ nleft then size else nleft
    if nleft - n = 0 then ([(ptr,n.toNat)],false)
    else
      let r := fillIov size left (ptr + n.toNat) (nleft - n)
      ((ptr,n.toNat) :: r.1,r.2)

/-- The loop over `iov` that calls `write`. -/
def writeEach (sys : WriteSystem) (vptr : List Byte) : List Iovec → List WriteCall → Int → Dowrite
  | [], calls, ntotal => ⟨calls,some ntotal⟩
  | v :: iov, calls, ntotal =>
    let call := .write (slice vptr v)
    let nwritten := sys calls call
    if nwritten ≠ v.2 then ⟨calls ++ [call],some (-1)⟩
    else writeEach sys vptr iov (calls ++ [call]) (ntotal + nwritten)

def dowrite (maxiov : Nat) (chunkwrite usewritev : Bool) (sys : WriteSystem) (vptr : List Byte) :
    Dowrite :=
  if !chunkwrite && !usewritev then ⟨[.write vptr],some (sys [] (.write vptr))⟩
  else
    let iov := fillIov (chunksize maxiov vptr.length) maxiov 0 (toInt vptr.length)
    if iov.2 then ⟨[],none⟩
    else if usewritev then
      let call := .writev (iov.1.map (slice vptr))
      ⟨[call],some (sys [] call)⟩
    else writeEach sys vptr iov.1 [] 0

def Transfers (sys : WriteSystem) : Prop := ∀ calls call, sys calls call = call.bytes.length

def Dowrite.sent (d : Dowrite) : List Byte := (d.calls.map WriteCall.bytes).flatten

structure Chunked (maxiov nbytes : Nat) (r : List Iovec × Bool) : Prop where
  consecutive : Consecutive 0 r.1 nbytes
  count : r.1.length ≤ maxiov
  broke : r.2 = false

/-- A chunk size that needs no more turns than there are entries. -/
theorem fillIov_chunked {size : Int} (hsize : 0 < size) (left ptr nleft : Nat) (hleft : 0 < left)
    (hfits : (nleft : Int) ≤ size * left) :
    Consecutive ptr (fillIov size left ptr nleft).1 (ptr + nleft) ∧
      (fillIov size left ptr nleft).1.length ≤ left ∧ (fillIov size left ptr nleft).2 = false := by
  induction left generalizing ptr nleft with
  | zero => omega
  | succ left ih =>
    rw [fillIov]
    have hmul : size * ((left + 1 : Nat) : Int) = size * left + size := by
      rw [Nat.cast_succ,Int.mul_add,Int.mul_one]
    rw [hmul] at hfits
    by_cases hle : size ≤ nleft
    · obtain ⟨n,rfl⟩ := Int.eq_ofNat_of_zero_le (Int.le_of_lt hsize)
      obtain ⟨m,rfl⟩ := Nat.exists_eq_add_of_le (Int.ofNat_le.mp hle)
      have hsub : ((n + m : Nat) : Int) - n = m := by omega
      simp only [if_pos hle,hsub,Int.toNat_natCast]
      split
      · rename_i hzero
        exact ⟨⟨rfl,by change ptr + n = _; omega⟩,Nat.succ_le_succ (Nat.zero_le _),rfl⟩
      · rename_i hne
        -- a whole chunk has been taken, and something is left for the other turns
        have hpos : 0 < left := by
          by_contra hzero
          rw [Nat.eq_zero_of_not_pos hzero] at hfits
          omega
        obtain ⟨hcons,hcount,hbroke⟩ := ih (ptr + n) m hpos (by omega)
        refine ⟨⟨rfl,?_⟩,Nat.succ_le_succ hcount,hbroke⟩
        rwa [← Nat.add_assoc]
    · simp only [if_neg hle,Int.sub_self,if_true,Int.toNat_natCast]
      exact ⟨⟨rfl,rfl⟩,Nat.succ_le_succ (Nat.zero_le _),trivial⟩

theorem toInt_of_lt {n : Nat} (h : n < 2^31) : toInt n = n := by
  rw [toInt]
  exact Int.bmod_eq_of_le (by omega) (by omega)

/-- The division rounded up, and at least 1. -/
theorem chunksize_fits {maxiov nbytes : Nat} (hmax : 0 < maxiov) (hn : nbytes < 2^31) :
    0 < chunksize maxiov nbytes ∧ (nbytes : Int) ≤ chunksize maxiov nbytes * maxiov := by
  have hdiv := Nat.div_add_mod nbytes maxiov
  have hmod := Nat.mod_lt nbytes hmax
  have hle : nbytes / maxiov ≤ nbytes := Nat.div_le_self nbytes maxiov
  simp only [chunksize,toInt_of_lt (Nat.lt_of_le_of_lt hle hn)]
  generalize nbytes / maxiov = q at *
  have hmul : (q : Int) * maxiov = (maxiov * q : Nat) := by rw [Nat.mul_comm,Int.natCast_mul]
  split
  · rename_i hq
    have hzero : maxiov * q = 0 := by rw [Nat.le_zero.mp (Int.ofNat_le.mp hq),Nat.mul_zero]
    omega
  · split
    · rw [Int.add_mul,Int.one_mul,hmul]
      omega
    · rw [hmul]
      omega

theorem fillIov_chunks {maxiov nbytes : Nat} (hmax : 0 < maxiov) (hn : nbytes < 2^31) :
    Chunked maxiov nbytes (fillIov (chunksize maxiov nbytes) maxiov 0 (toInt nbytes)) := by
  obtain ⟨hsize,hfits⟩ := chunksize_fits hmax hn
  obtain ⟨hcons,hcount,hbroke⟩ := fillIov_chunked hsize maxiov 0 nbytes hmax hfits
  rw [Nat.zero_add] at hcons
  rw [toInt_of_lt hn]
  exact ⟨hcons,hcount,hbroke⟩

/-- The loop writes every chunk and adds up what the calls return. -/
theorem writeEach_transfers {sys : WriteSystem} (hsys : Transfers sys) {vptr : List Byte}
    {iov : List Iovec} (hiov : ∀ v ∈ iov, v.1 + v.2 ≤ vptr.length) (calls : List WriteCall)
    (ntotal : Int) :
    writeEach sys vptr iov calls ntotal =
      ⟨calls ++ iov.map fun v => .write (slice vptr v),some (ntotal + (iov.map Prod.snd).sum)⟩ := by
  induction iov generalizing calls ntotal with
  | nil => simp [writeEach]
  | cons v iov ih =>
    obtain ⟨hv,hiov⟩ := List.forall_mem_cons.mp hiov
    have hlen : (sys calls (.write (slice vptr v))) = v.2 := by
      rw [hsys,WriteCall.bytes,slice,List.length_take,List.length_drop]
      omega
    rw [writeEach]
    simp only [hlen,Ne,not_true_eq_false,if_false]
    rw [ih hiov]
    simp [Int.add_assoc]

theorem slices_whole {vptr : List Byte} {iov : List Iovec}
    (h : Consecutive 0 iov vptr.length) : (iov.map (slice vptr)).flatten = vptr := by
  rw [h.slices,List.drop_zero,Nat.sub_zero,List.take_length]

theorem dowrite_transfers {maxiov : Nat} (hmax : 0 < maxiov) {sys : WriteSystem}
    (hsys : Transfers sys) {vptr : List Byte} (hn : vptr.length < 2^31)
    (chunkwrite usewritev : Bool) :
    (dowrite maxiov chunkwrite usewritev sys vptr).sent = vptr ∧
      (dowrite maxiov chunkwrite usewritev sys vptr).ret = some (vptr.length : Int) := by
  obtain ⟨hcons,-,hbroke⟩ := fillIov_chunks hmax hn
  rw [dowrite]
  split
  · exact ⟨by simp [Dowrite.sent,WriteCall.bytes],by rw [hsys]; rfl⟩
  · simp only [hbroke]
    split
    · rename_i hfalse
      cases hfalse
    split
    · refine ⟨?_,?_⟩
      · simp only [Dowrite.sent,List.map_cons,List.map_nil,WriteCall.bytes,slices_whole hcons,
          List.flatten_cons,List.flatten_nil,List.append_nil]
      · rw [hsys,WriteCall.bytes,slices_whole hcons]
    · have hsum := hcons.add_sum
      rw [writeEach_transfers hsys hcons.le]
      refine ⟨?_,?_⟩
      · rw [Dowrite.sent,List.nil_append,List.map_map]
        exact slices_whole hcons
      · rw [Nat.zero_add] at hsum
        simp only [Int.zero_add,hsum]

/-- The chunks are consecutive, do not overlap, cover the buffer and fit in `iov`; and in each of
the modes the buffer is sent and its length is returned. -/
theorem dowrite_chunks {maxiov : Nat} (hmax : 0 < maxiov) {vptr : List Byte}
    (hn : vptr.length < 2^31) :
    let r := fillIov (chunksize maxiov vptr.length) maxiov 0 (toInt vptr.length)
    Chunked maxiov vptr.length r ∧ (r.1.Pairwise fun v w => v.1 + v.2 ≤ w.1) ∧
      (r.1.map (slice vptr)).flatten = vptr ∧
      ∀ sys, Transfers sys → ∀ chunkwrite usewritev,
        (dowrite maxiov chunkwrite usewritev sys vptr).sent = vptr ∧
          (dowrite maxiov chunkwrite usewritev sys vptr).ret = some (vptr.length : Int) := by
  have hchunks := fillIov_chunks hmax hn
  exact ⟨hchunks,hchunks.consecutive.pairwise.2,slices_whole hchunks.consecutive,
    fun sys hsys => dowrite_transfers hmax hsys hn⟩

/-- 40 bytes in chunks of 3, with 16 entries. -/
theorem dowrite_chunks_40 :
    let vptr : List Byte := List.replicate 40 0
    let r := fillIov (chunksize 16 vptr.length) 16 0 (toInt vptr.length)
    Chunked 16 vptr.length r ∧ (r.1.Pairwise fun v w => v.1 + v.2 ≤ w.1) ∧
      (r.1.map (slice vptr)).flatten = vptr ∧
      ∀ sys, Transfers sys → ∀ chunkwrite usewritev,
        (dowrite 16 chunkwrite usewritev sys vptr).sent = vptr ∧
          (dowrite 16 chunkwrite usewritev sys vptr).ret = some (vptr.length : Int) :=
  dowrite_chunks (by decide) (by decide)

end UnixNet
