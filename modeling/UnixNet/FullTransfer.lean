import Mathlib.Algebra.Group.Nat.Defs
import Mathlib.Algebra.Ring.Int.Defs
import UnixNet.LineReaders
set_option autoImplicit false

/-! `readn` and `writen` of lib.c: transfers that go on until all bytes are moved. -/

namespace UnixNet
open LineReader (Transient read_transient)

def SSIZE_MAX : Nat := 2^63 - 1

/-- A `size_t` returned as a `ssize_t`. -/
def ssize (n : Nat) : Int := (n : Int).bmod (2^64)

theorem ssize_eq {n : Nat} (h : n ≤ SSIZE_MAX) : ssize n = n := by
  unfold SSIZE_MAX at h
  exact Int.bmod_eq_of_le (by omega) (by omega)

/-- An array of the program. There are no larger ones. -/
structure Buffer where
  bytes : List Byte
  fits : bytes.length ≤ SSIZE_MAX

def Buffer.size (b : Buffer) : Nat := b.bytes.length

/-- What the kernel does with one `write`: it takes up to `k` bytes, or fails. After the last
grant it takes all that it is given. -/
inductive Grant where
  | take (k : Nat) : Grant
  | fail (e : Errno) : Grant
  deriving DecidableEq, Repr

inductive WriteResult where
  | wrote (k : Nat) : WriteResult
  | fail (e : Errno) : WriteResult
  deriving DecidableEq, Repr

def write (n : Nat) : List Grant → WriteResult × List Grant
  | [] => (.wrote n,[])
  | .take k :: gs => (.wrote (min k n),gs)
  | .fail e :: gs => (.fail e,gs)

/-- A grant after which `writen` goes on. -/
def Grant.Moves : Grant → Prop
  | .take k => 0 < k
  | .fail e => e = .eintr

structure WritenResult where
  ret : Int
  sent : List Byte
  rest : List Grant
  deriving DecidableEq, Repr

/-- `while (nleft > 0)`, where `left` are the `nleft` bytes at `ptr`. -/
def writenLoop (n : Nat) (left sent : List Byte) (gs : List Grant) : Nat → WritenResult
  | 0 => ⟨ssize n,sent,gs⟩
  | fuel+1 =>
    if left = [] then ⟨ssize n,sent,gs⟩
    else
      match write left.length gs with
      | (.fail e,gs) => if e = .eintr then writenLoop n left sent gs fuel else ⟨-1,sent,gs⟩
      | (.wrote k,gs) =>
        if k = 0 then ⟨-1,sent,gs⟩
        else writenLoop n (left.drop k) (sent ++ left.take k) gs fuel

/-- Every pass takes a grant or, when there are none, all that is left. -/
def writen (buf : List Byte) (gs : List Grant) : WritenResult :=
  writenLoop buf.length buf [] gs (buf.length + gs.length)

structure ReadnResult where
  ret : Int
  stored : List Byte
  rest : List Arrival
  deriving DecidableEq, Repr

def readnLoop (n nleft : Nat) (stored : List Byte) (es : List Arrival) : Nat → ReadnResult
  | 0 => ⟨ssize (n - nleft),stored,es⟩
  | fuel+1 =>
    if nleft = 0 then ⟨ssize (n - nleft),stored,es⟩
    else
      match read nleft es with
      | (.fail e,es) => if e = .eintr then readnLoop n nleft stored es fuel else ⟨-1,stored,es⟩
      | (.eof,es) => ⟨ssize (n - nleft),stored,es⟩
      | (.data bs,es) => readnLoop n (nleft - bs.length) (stored ++ bs) es fuel

/-- Every pass takes an arrival or completes the transfer. -/
def readn (n : Nat) (es : List Arrival) : ReadnResult := readnLoop n n [] es (n + es.length)

/-- The array `old` after `new` was stored at its start. -/
def overwrite (old new : List Byte) : List Byte := new ++ old.drop new.length

/-- With this much fuel the loop of `readn` ends by itself, at the end of file or with `nleft`
bytes more. -/
theorem readnLoop_spec {n : Nat} (nleft : Nat) (stored : List Byte) {es : List Arrival} {fuel : Nat}
    (hfuel : nleft + es.length ≤ fuel) (hes : Transient es) :
    let r := readnLoop n nleft stored es fuel
    r.ret = ssize (n - (nleft - (stream es).length)) ∧
      r.stored = stored ++ (stream es).take nleft ∧ stream r.rest = (stream es).drop nleft ∧
      Transient r.rest := by
  induction fuel generalizing nleft stored es with
  | zero =>
    obtain rfl : nleft = 0 := by omega
    simp [readnLoop,hes]
  | succ fuel ih =>
    simp only [readnLoop]
    split
    · rename_i hzero
      simp [hzero,hes]
    · rename_i hpos
      have hnext : ∀ r es', read nleft es = (r,es') → Transient es' := fun r es' hr => by
        simpa [hr] using read_transient (n := nleft) hes
      split
      · rename_i e es' hr
        have hrest := hnext _ _ hr
        obtain rfl := read_fail hr
        obtain rfl := hes e (List.mem_cons_self ..)
        simp only [List.length_cons] at hfuel
        simpa using ih nleft stored (by omega) hrest
      · rename_i es' hr
        obtain ⟨rfl,rfl⟩ := read_eof hr
        simp [hes]
      · rename_i bs es' hr
        obtain ⟨hbs,hle,hs⟩ := read_data (by omega) hr
        have hlen := read_length hr
        have hpos := List.length_pos_iff.mpr hbs
        obtain ⟨hret,hstored,hleft,hcalm⟩ := ih (nleft - bs.length) (stored ++ bs)
          (by omega) (hnext _ _ hr)
        rw [hs]
        refine ⟨?_,?_,?_,hcalm⟩
        · rw [hret,List.length_append]
          congr 2
          omega
        · rw [hstored,List.append_assoc,List.take_append,List.take_of_length_le hle]
        · rw [hleft,List.drop_append,List.drop_eq_nil_of_le hle,List.nil_append]

/-- A call that only EINTR disturbs takes what there is of the `n` bytes. -/
theorem readn_spec {n : Nat} (hn : n ≤ SSIZE_MAX) {es : List Arrival} (hes : Transient es) :
    (readn n es).ret = (min n (stream es).length : Nat) ∧
      (readn n es).stored = (stream es).take n ∧ stream (readn n es).rest = (stream es).drop n ∧
      Transient (readn n es).rest := by
  obtain ⟨hret,hstored,hrest,hcalm⟩ := readnLoop_spec (n := n) n [] (Nat.le_refl _) hes
  refine ⟨?_,hstored,hrest,hcalm⟩
  rw [readn,hret,ssize_eq (by omega)]
  omega

/-- The loop of `writen` sends all that is left, or -1 is returned and the rest is not sent. -/
theorem writenLoop_spec (n : Nat) (left sent : List Byte) (gs : List Grant)
    {fuel : Nat} (hfuel : left.length + gs.length ≤ fuel) :
    let r := writenLoop n left sent gs fuel
    r.ret = ssize n ∧ r.sent = sent ++ left ∨
      r.ret = -1 ∧ (∃ done rest, left = done ++ rest ∧ rest ≠ [] ∧ r.sent = sent ++ done) ∧
        ∃ g ∈ gs, ¬ g.Moves := by
  induction fuel generalizing left sent gs with
  | zero =>
    obtain rfl : left = [] := List.length_eq_zero_iff.mp (by omega)
    exact .inl (by simp [writenLoop])
  | succ fuel ih =>
    simp only [writenLoop]
    split
    · rename_i hnil
      exact .inl (by simp [hnil])
    · rename_i hne
      have hpos := List.length_pos_iff.mpr hne
      cases gs with
      | nil =>
        have hih := ih (left.drop left.length) (sent ++ left.take left.length) [] (by simp)
        simpa [write,hne] using hih
      | cons g gs =>
        simp only [List.length_cons] at hfuel
        cases g with
        | take k =>
          simp only [write]
          split
          · rename_i hzero
            have hno : ¬ (Grant.take k).Moves := by
              simp only [Grant.Moves]
              omega
            exact .inr ⟨rfl,⟨[],left,rfl,hne,by simp⟩,.take k,by simp,hno⟩
          · have hih := ih (left.drop (min k left.length))
              (sent ++ left.take (min k left.length)) gs
              (by simp only [List.length_drop]; omega)
            rcases hih with ⟨hret,hsent⟩ | ⟨hret,⟨done,rest,hleft,hrest,hsent⟩,g,hg,hno⟩
            · refine .inl ⟨hret,?_⟩
              rw [hsent,List.append_assoc,List.take_append_drop]
            · refine .inr ⟨hret,⟨left.take (min k left.length) ++ done,rest,?_,hrest,?_⟩,g,
                by simp [hg],hno⟩
              · rw [List.append_assoc,← hleft,List.take_append_drop]
              · rw [hsent,List.append_assoc]
        | fail e =>
          simp only [write]
          split
          · exact (ih left sent gs (by omega)).imp_right fun ⟨hret,hrest,g,hg,hno⟩ =>
              ⟨hret,hrest,g,by simp [hg],hno⟩
          · rename_i he
            exact .inr ⟨rfl,⟨[],left,rfl,hne,by simp⟩,.fail e,by simp,he⟩

theorem writenLoop_rest (n : Nat) (left sent : List Byte) (gs : List Grant) (fuel : Nat) :
    (writenLoop n left sent gs fuel).rest <:+ gs := by
  induction fuel generalizing left sent gs with
  | zero => exact List.suffix_rfl
  | succ fuel ih =>
    simp only [writenLoop]
    split
    · exact List.suffix_rfl
    · cases gs with
      | nil =>
        simp only [write]
        split
        · exact List.suffix_rfl
        · exact ih _ _ []
      | cons g gs =>
        have htail : gs <:+ g :: gs := List.suffix_cons g gs
        cases g with
        | take k =>
          simp only [write]
          split
          · exact htail
          · exact (ih _ _ gs).trans htail
        | fail e =>
          simp only [write]
          split
          · exact (ih _ _ gs).trans htail
          · exact htail

theorem writen_spec {buf : List Byte} (hbuf : buf.length ≤ SSIZE_MAX) (gs : List Grant) :
    (writen buf gs).ret = buf.length ∧ (writen buf gs).sent = buf ∨
      (writen buf gs).ret = -1 ∧ (∃ rest, buf = (writen buf gs).sent ++ rest ∧ rest ≠ []) ∧
        ∃ g ∈ gs, ¬ g.Moves := by
  have hspec := writenLoop_spec buf.length buf [] gs (Nat.le_refl _)
  simp only [List.nil_append,ssize_eq hbuf] at hspec
  rcases hspec with hdone | ⟨hret,⟨done,rest,hbytes,hrest,hsent⟩,hbad⟩
  · exact .inl hdone
  · exact .inr ⟨hret,⟨rest,hbytes.trans (congrArg (· ++ rest) hsent.symm),hrest⟩,hbad⟩

/-- Partial writes and interruptions do not keep `writen` from sending everything. -/
theorem writen_moves {buf : List Byte} (hbuf : buf.length ≤ SSIZE_MAX) {gs : List Grant}
    (h : ∀ g ∈ gs, g.Moves) : (writen buf gs).ret = buf.length ∧ (writen buf gs).sent = buf ∧
      ∀ g ∈ (writen buf gs).rest, g.Moves := by
  rcases writen_spec hbuf gs with ⟨hret,hsent⟩ | ⟨_,_,g,hg,hno⟩
  · exact ⟨hret,hsent,fun g hg => h g ((writenLoop_rest _ _ _ _ _).subset hg)⟩
  · exact absurd (h g hg) hno

/-- `writen` sends the whole buffer or returns -1 with a proper part of it sent, and `readn` takes
what it is asked for from the stream, up to the end of file. -/
theorem writen_readn_exact (src : Buffer) (gs : List Grant) :
    ((writen src.bytes gs).ret = src.size ∨ (writen src.bytes gs).ret = -1) ∧
      ((writen src.bytes gs).ret = src.size → (writen src.bytes gs).sent = src.bytes) ∧
      ((writen src.bytes gs).ret = -1 →
        (writen src.bytes gs).sent <+: src.bytes ∧ (writen src.bytes gs).sent ≠ src.bytes) ∧
      ∀ (dst : Buffer) (es : List Arrival), Transient es →
        let r := readn dst.size es
        r.ret = (min dst.size (stream es).length : Nat) ∧
          overwrite dst.bytes r.stored =
            (stream es).take dst.size ++ dst.bytes.drop (stream es).length ∧
          stream r.rest = (stream es).drop dst.size ∧
          ((writen src.bytes gs).ret = src.size → stream es = (writen src.bytes gs).sent →
            dst.size = src.size → r.ret = src.size ∧ overwrite dst.bytes r.stored = src.bytes) := by
  have hneg : (src.size : Int) ≠ -1 := by omega
  refine ⟨(writen_spec src.fits gs).imp And.left And.left,fun hret => ?_,fun hret => ?_,?_⟩
  · rcases writen_spec src.fits gs with hdone | hfail
    · exact hdone.2
    · exact absurd (hret.symm.trans hfail.1) hneg
  · rcases writen_spec src.fits gs with hdone | ⟨_,⟨rest,hbytes,hrest⟩,_⟩
    · exact absurd (hdone.1.symm.trans hret) hneg
    · exact ⟨⟨rest,hbytes.symm⟩,fun heq => hrest (by simpa [heq] using hbytes)⟩
  · intro dst es hes
    obtain ⟨hret,hstored,hrest,_⟩ := readn_spec (n := dst.size) dst.fits hes
    have hover : overwrite dst.bytes (readn dst.size es).stored =
        (stream es).take dst.size ++ dst.bytes.drop (stream es).length := by
      rw [overwrite,hstored,List.length_take]
      congr 1
      unfold Buffer.size
      rcases Nat.le_total dst.bytes.length (stream es).length with hle | hle
      · rw [Nat.min_eq_left hle,List.drop_length,List.drop_eq_nil_of_le hle]
      · rw [Nat.min_eq_right hle]
    refine ⟨hret,hover,hrest,fun hsent heq hsize => ?_⟩
    have hbytes : stream es = src.bytes := by
      rcases writen_spec src.fits gs with hdone | hfail
      · exact heq.trans hdone.2
      · exact absurd (hsent.symm.trans hfail.1) hneg
    have hlen : (stream es).length = dst.size := by rw [hbytes,hsize]; rfl
    refine ⟨by rw [hret,hlen,hsize,Nat.min_self],?_⟩
    rw [hover,List.take_of_length_le hlen.le,hlen,Buffer.size,List.drop_length,List.append_nil,
      hbytes]

/-- "abc" is sent in two parts and arrives in two others, interrupted on both sides. -/
theorem writen_readn_exact_abc : ∃ (src dst : Buffer) (gs : List Grant) (es : List Arrival),
    src.bytes = [97,98,99] ∧ gs = [.take 1,.fail .eintr] ∧
      es = [.data 97 [98],.fail .eintr,.data 99 []] ∧
      overwrite dst.bytes (readn dst.size es).stored = [97,98,99] := by
  let src : Buffer := ⟨[97,98,99],by decide +kernel⟩
  let dst : Buffer := ⟨[0,0,0],by decide +kernel⟩
  let gs : List Grant := [.take 1,.fail .eintr]
  let es : List Arrival := [.data 97 [98],.fail .eintr,.data 99 []]
  have hes : Transient es := fun e he => by simpa [es] using he
  have hret : (writen src.bytes gs).ret = src.size := by decide +kernel
  have hall := (writen_readn_exact src gs).2.2.2 dst es hes
  exact ⟨src,dst,gs,es,rfl,rfl,rfl,(hall.2.2.2 hret (by decide +kernel) rfl).2⟩

end UnixNet
