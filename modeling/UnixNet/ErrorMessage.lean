import Mathlib.Algebra.Ring.Int.Defs
import UnixNet.Descriptor
import UnixNet.Library.CString
set_option autoImplicit false

/-! `err_doit` of error.c, which formats every message in one buffer. -/

namespace UnixNet

/-- `char buf[MAXLINE + 1]`, with what the stack happens to hold. -/
def MessageBuffer : Type := { m : List Byte // m.length = MAXLINE + 1 }

/-- Where the message goes: `syslog(level, "%s", buf)` or `fputs(buf, stderr)`. -/
inductive ErrorOutput where
  | syslog (level : Int) (text : List Byte) : ErrorOutput
  | stderr (text : List Byte) : ErrorOutput
  deriving DecidableEq, Repr

/-- `n` and `MAXLINE-n` as `err_doit` computes them, the buffer at its end and the output. -/
structure ErrorMessage where
  n : Int
  room : Int
  buf : List Byte
  output : ErrorOutput
  deriving DecidableEq, Repr

/-- An `int` given as a `size_t`. -/
def sizeArg (x : Int) : Nat := (x % 2 ^ 64).toNat

/-- `": "` -/
def colonSpace : List Byte := [58,32]

/-- The test `#ifdef HAVE_VSNPRINTF`; `expansion` is what the conversions of `fmt` give. -/
def vformat (haveVsnprintf : Bool) (expansion buf : List Byte) : Option (List Byte) :=
  if haveVsnprintf then CString.snprintf 0 buf 0 MAXLINE expansion
  else CString.sprintf 0 buf 0 expansion

/-- `none` is a read or a write outside of `buf`. -/
def errDoit (haveVsnprintf : Bool) (daemonProc errnoflag level : Int)
    (expansion strerror : List Byte) (buf : MessageBuffer) : Option ErrorMessage :=
  (vformat haveVsnprintf expansion buf.val).bind fun buf =>
    (CString.strlen 0 buf).bind fun n =>
      let room : Int := MAXLINE - n
      (if errnoflag ≠ 0 then
        CString.snprintf 0 buf n (sizeArg room) (colonSpace ++ CString.text 0 strerror)
      else some buf).bind fun buf =>
        (CString.strcat 0 buf [newline]).bind fun buf =>
          let text := CString.text 0 buf
          some ⟨n,room,buf,if daemonProc ≠ 0 then .syslog level text else .stderr text⟩

/-- What the caller has to say, whatever its length. -/
def errText (errnoflag : Int) (expansion strerror : List Byte) : List Byte :=
  CString.text 0 expansion ++
    if errnoflag ≠ 0 then colonSpace ++ CString.text 0 strerror else []

/-- The message of `err_doit`: a newline always has room. -/
def errLine (errnoflag : Int) (expansion strerror : List Byte) : List Byte :=
  (errText errnoflag expansion strerror).take (MAXLINE-1) ++ [newline]

variable {daemonProc errnoflag level : Int} {expansion strerror : List Byte}

theorem sizeArg_sub {n : Nat} (h : n < MAXLINE) : sizeArg (MAXLINE - n) = MAXLINE - n := by
  have hmax : MAXLINE = 4096 := rfl
  unfold sizeArg
  omega

theorem text_colonSpace (s : List Byte) :
    CString.text 0 (colonSpace ++ CString.text 0 s) = colonSpace ++ CString.text 0 s := by
  have hnul : 0 ∉ CString.text 0 s := CString.nul_notMem_text s
  exact CString.text_eq_self (by simp [colonSpace,hnul])

theorem take_take_append {α : Type} (l m : List α) (n : Nat) :
    l.take n ++ m.take (n - (l.take n).length) = (l ++ m).take n := by
  rw [List.take_append,List.length_take]
  rcases Nat.le_total l.length n with hle | hle
  · rw [Nat.min_eq_right hle]
  · rw [Nat.min_eq_left hle,Nat.sub_self,Nat.sub_eq_zero_of_le hle]

/-- From a formatted text that leaves room for the newline, `err_doit` goes on within `buf`. -/
theorem errDoit_holds {haveVsnprintf : Bool} {buf : MessageBuffer} {m : List Byte}
    (hm : vformat haveVsnprintf expansion buf.val = some m) (hlen : m.length = MAXLINE + 1)
    (h : CString.Holds 0 m ((CString.text 0 expansion).take (MAXLINE-1))) :
    ∃ r, errDoit haveVsnprintf daemonProc errnoflag level expansion strerror buf = some r ∧
      0 < r.room ∧ CString.Holds 0 r.buf (errLine errnoflag expansion strerror) ∧
      r.output = if daemonProc ≠ 0 then .syslog level (errLine errnoflag expansion strerror)
        else .stderr (errLine errnoflag expansion strerror) := by
  set t := (CString.text 0 expansion).take (MAXLINE-1) with ht
  have hmax : MAXLINE = 4096 := rfl
  have hlt : t.length < MAXLINE := by
    rw [ht,List.length_take]
    omega
  -- The second `snprintf` fills up to the same mark as the first.
  obtain ⟨m₂,hm₂,hlen₂,h₂⟩ : ∃ m₂, (if errnoflag ≠ 0 then
      CString.snprintf 0 m t.length (sizeArg (MAXLINE - t.length))
        (colonSpace ++ CString.text 0 strerror) else some m) = some m₂ ∧ m₂.length = m.length ∧
      CString.Holds 0 m₂ ((errText errnoflag expansion strerror).take (MAXLINE-1)) := by
    by_cases hflag : errnoflag ≠ 0
    · have hput := h.snprintf (show 0 < MAXLINE - t.length by omega) (by omega)
        (colonSpace ++ CString.text 0 strerror)
      rw [text_colonSpace,Nat.sub_right_comm,ht,take_take_append,← ht] at hput
      rw [if_pos hflag,sizeArg_sub hlt,errText,if_pos hflag]
      exact hput
    · rw [if_neg hflag,errText,if_neg hflag,List.append_nil]
      exact ⟨m,rfl,rfl,h⟩
  obtain ⟨m₃,hm₃,-,h₃⟩ := h₂.strcat (l := [newline]) (by decide) (by
    rw [List.length_take,List.length_singleton,hlen₂,hlen]
    omega)
  rw [← errLine] at h₃
  have hroom : 0 < (MAXLINE : Int) - t.length := by omega
  rw [errDoit,hm,Option.bind_some,h.strlen_eq,Option.bind_some]
  simp only [hm₂,hm₃,Option.bind_some,h₃.text_eq]
  exact ⟨_,rfl,hroom,h₃,rfl⟩

theorem errDoit_stays (daemonProc errnoflag level : Int) (expansion strerror : List Byte)
    (buf : MessageBuffer) :
    ∃ r, errDoit true daemonProc errnoflag level expansion strerror buf = some r ∧
      0 < r.room ∧ CString.Holds 0 r.buf (errLine errnoflag expansion strerror) ∧
      r.output = if daemonProc ≠ 0 then .syslog level (errLine errnoflag expansion strerror)
        else .stderr (errLine errnoflag expansion strerror) := by
  obtain ⟨m,hm,hlen,h⟩ := CString.snprintf_front (0 : Byte) (show 0 < MAXLINE by decide)
    (show MAXLINE ≤ buf.val.length by rw [buf.property]; omega) expansion
  exact errDoit_holds hm (hlen.trans buf.property) h

/-- The branch with `vsprintf`, "not safe": a text that just fits into `buf` leaves no room
for the newline. -/
theorem errDoit_vsprintf_iff (buf : MessageBuffer) :
    (∃ r, errDoit false daemonProc errnoflag level expansion strerror buf = some r) ↔
      expansion.length ≤ MAXLINE ∧ (CString.text 0 expansion).length < MAXLINE := by
  have hbuf := buf.property
  constructor
  · rintro ⟨r,hr⟩
    obtain ⟨m,hm,hr⟩ := Option.bind_eq_some_iff.mp hr
    have hfit := Memory.store_bound hm
    rw [List.length_append,List.length_singleton] at hfit
    obtain ⟨m',hm',hlen,h⟩ := CString.sprintf_front (0 : Byte)
      (show expansion.length < buf.val.length by omega)
    obtain rfl := Option.some.inj (hm.symm.trans hm')
    refine ⟨by omega,?_⟩
    by_contra hfull
    have hle : (CString.text 0 expansion).length ≤ expansion.length :=
      (List.takeWhile_sublist _).length_le
    have heq : (CString.text 0 expansion).length = MAXLINE := by omega
    rw [h.strlen_eq,Option.bind_some,heq] at hr
    obtain ⟨m₂,hm₂,hr⟩ := Option.bind_eq_some_iff.mp hr
    obtain ⟨m₃,hm₃,-⟩ := Option.bind_eq_some_iff.mp hr
    -- The size is 0, so that `snprintf` writes nothing.
    have hsame : m = m₂ := by
      have hzero : sizeArg (MAXLINE - (MAXLINE : Nat)) = 0 := rfl
      split at hm₂
      · rw [hzero] at hm₂
        exact Option.some.inj hm₂
      · exact Option.some.inj hm₂
    rw [← hsame,(CString.strcat_eq_none_iff h).mpr] at hm₃
    · cases hm₃
    · simp [heq,hlen,hbuf]
  · rintro ⟨hfit,hlt⟩
    obtain ⟨m,hm,hlen,h⟩ := CString.sprintf_front (0 : Byte)
      (show expansion.length < buf.val.length by omega)
    have htake : (CString.text 0 expansion).take (MAXLINE-1) = CString.text 0 expansion :=
      List.take_of_length_le (by omega)
    rw [← htake] at h
    have hformat : vformat false expansion buf.val = some m := hm
    exact (errDoit_holds hformat (hlen.trans hbuf) h).imp fun r hr => hr.1

end UnixNet
