import Mathlib.Data.List.Range
import UnixNet.Descriptor
import UnixNet.Library.Units
set_option autoImplicit false

/-! The buffered line reader of lib.c: `my_read`, `readline` and `readlinebuf`. -/

namespace UnixNet
open Units

/-- The file-level statics `read_cnt`, `read_ptr` (as an offset into `read_buf`)
and `read_buf`. Every call of the process shares them. -/
structure LineBuffer where
  readCnt : Int
  readPtr : Nat
  readBuf : Nat → Byte

def LineBuffer.init : LineBuffer := ⟨0,0,fun _ => 0⟩

/-- The `read_cnt` bytes at `read_ptr`. -/
def LineBuffer.unread (lb : LineBuffer) : List Byte :=
  (List.range' lb.readPtr lb.readCnt.toNat).map lb.readBuf

/-- Everything the next calls can still return, buffered or not yet read. -/
def pending (lb : LineBuffer) (es : List Arrival) : List Byte := lb.unread ++ stream es

/-- `read` overwrites the front of the array and leaves the rest. -/
def fill (buf : Nat → Byte) (bs : List Byte) (i : Nat) : Byte := bs.getD i (buf i)

theorem map_fill (buf : Nat → Byte) (bs : List Byte) :
    (List.range' 0 bs.length).map (fill buf bs) = bs := by
  apply List.ext_getElem
  · simp
  · intro i h₁ h₂
    simp [fill,List.getElem_range',h₂]

theorem LineBuffer.unread_empty {lb : LineBuffer} (h : lb.readCnt ≤ 0) : lb.unread = [] := by
  have h0 : lb.readCnt.toNat = 0 := by omega
  simp [LineBuffer.unread,h0]

/-- What `my_read` returns: 1 with a byte, 0, or -1. -/
inductive MyRead where
  | byte : Byte → MyRead
  | eof : MyRead
  | err : Errno → MyRead
  deriving DecidableEq, Repr

/-- `read_cnt--; *ptr = *read_ptr++;` -/
def LineBuffer.next (lb : LineBuffer) : LineBuffer :=
  { lb with readCnt := lb.readCnt - 1, readPtr := lb.readPtr + 1 }

theorem LineBuffer.unread_next {lb : LineBuffer} (h : 0 < lb.readCnt) :
    lb.unread = lb.readBuf lb.readPtr :: lb.next.unread := by
  have hs : lb.readCnt.toNat = (lb.readCnt - 1).toNat + 1 := by omega
  simp only [LineBuffer.unread,LineBuffer.next,hs,List.range'_succ,List.map_cons]

/-- The buffer after a `read` that brought `bs`. -/
theorem LineBuffer.unread_fill (buf : Nat → Byte) {bs : List Byte} (hbs : bs ≠ []) :
    let lb : LineBuffer := ⟨bs.length,0,fill buf bs⟩
    bs = lb.readBuf lb.readPtr :: lb.next.unread := by
  intro lb
  have hpos : 0 < lb.readCnt := Int.natCast_pos.mpr (List.length_pos_iff.mpr hbs)
  have hfull : lb.unread = bs := by simp [lb,LineBuffer.unread,map_fill]
  rw [← LineBuffer.unread_next hpos,hfull]

/-- The label `again`: EINTR reads once more, with -1 left in `read_cnt` meanwhile. -/
def again (lb : LineBuffer) : List Arrival → MyRead × LineBuffer × List Arrival
  | .fail .eintr :: es => again { lb with readCnt := -1 } es
  | es =>
    match read MAXLINE es with
    | (.fail e,rest) => (.err e,{ lb with readCnt := -1 },rest)
    | (.eof,rest) => (.eof,{ lb with readCnt := 0 },rest)
    | (.data bs,rest) =>
      let lb : LineBuffer := ⟨bs.length,0,fill lb.readBuf bs⟩
      (.byte (lb.readBuf lb.readPtr),lb.next,rest)

def myRead (lb : LineBuffer) (es : List Arrival) : MyRead × LineBuffer × List Arrival :=
  if lb.readCnt ≤ 0 then again lb es
  else (.byte (lb.readBuf lb.readPtr),lb.next,es)

theorem maxline_pos : 0 < MAXLINE := by decide

/-- What a call of `my_read` can do when `s` is all that could still be returned. -/
inductive Yields (s : List Byte) : MyRead × LineBuffer × List Arrival → Prop where
  | byte {c : Byte} {lb : LineBuffer} {es : List Arrival} :
      s = c :: pending lb es → 0 ≤ lb.readCnt → Yields s (.byte c,lb,es)
  | eof {lb : LineBuffer} : s = [] → lb.readCnt = 0 → Yields s (.eof,lb,[])
  | err {e : Errno} {lb : LineBuffer} {es : List Arrival} :
      s = stream es → lb.readCnt = -1 → Yields s (.err e,lb,es)

/-- What the reads of `again` come to: nothing but EINTR is passed over. -/
inductive Refilled : List Arrival → MyRead × LineBuffer × List Arrival → Prop where
  | interrupted {es : List Arrival} {out : MyRead × LineBuffer × List Arrival} :
      Refilled es out → Refilled (.fail .eintr :: es) out
  | fail {e : Errno} {lb : LineBuffer} {es : List Arrival} :
      e ≠ .eintr → lb.readCnt = -1 → Refilled (.fail e :: es) (.err e,lb,es)
  | eof {lb : LineBuffer} : lb.readCnt = 0 → Refilled [] (.eof,lb,[])
  | data {c : Byte} {lb : LineBuffer} {es rest : List Arrival} :
      read MAXLINE es = (.data (c :: lb.unread),rest) → 0 ≤ lb.readCnt →
        Refilled es (.byte c,lb,rest)

theorem again_refilled (lb : LineBuffer) (es : List Arrival) : Refilled es (again lb es) := by
  induction lb, es using again.induct with
  | case1 lb es ih => exact .interrupted (by simpa only [again] using ih)
  | case2 lb es hne e rest hr =>
    rw [again.eq_2 lb es hne]
    obtain rfl := read_fail hr
    have he : e ≠ .eintr := by
      rintro rfl
      exact hne rest rfl
    simp only [hr]
    exact .fail he rfl
  | case3 lb es hne rest hr =>
    obtain ⟨rfl,rfl⟩ := read_eof hr
    exact .eof rfl
  | case4 lb es hne bs rest hr =>
    rw [again.eq_2 lb es hne]
    simp only [hr]
    have hbs := (read_data maxline_pos hr).1
    have hpos : 0 < bs.length := List.length_pos_iff.mpr hbs
    refine .data ?_ ?_
    · rw [hr]
      exact congrArg (·,rest) (congrArg _ (LineBuffer.unread_fill lb.readBuf hbs))
    · simp only [LineBuffer.next]
      omega

theorem Refilled.yields {es : List Arrival} {out : MyRead × LineBuffer × List Arrival}
    (h : Refilled es out) : Yields (stream es) out := by
  induction h with
  | interrupted _ ih => simpa only [stream_fail] using ih
  | fail _ hcnt => exact .err (stream_fail ..) hcnt
  | eof hcnt => exact .eof rfl hcnt
  | data hr hcnt =>
    refine .byte ?_ hcnt
    rw [(read_data maxline_pos hr).2.2,List.cons_append,pending]

theorem myRead_yields (lb : LineBuffer) (es : List Arrival) :
    Yields (pending lb es) (myRead lb es) := by
  unfold myRead
  split
  · rename_i h
    rw [pending,LineBuffer.unread_empty h]
    exact (again_refilled lb es).yields
  · rename_i h
    refine .byte ?_ (by simp only [LineBuffer.next]; omega)
    rw [pending,LineBuffer.unread_next (by omega)]
    rfl

theorem myRead_buffered {lb : LineBuffer} (h : 0 < lb.readCnt) (es : List Arrival) :
    ∃ c lb', myRead lb es = (.byte c,lb',es) ∧ lb.unread = c :: lb'.unread :=
  ⟨_,_,if_neg (by omega),LineBuffer.unread_next h⟩

theorem myRead_segment {lb : LineBuffer} (h : lb.readCnt ≤ 0) {b : Byte} {bs : List Byte}
    (hlen : (b :: bs).length ≤ MAXLINE) :
    ∃ lb', myRead lb [.data b bs] = (.byte b,lb',[]) ∧ lb'.unread = bs := by
  have hread : read MAXLINE [.data b bs] = (.data (b :: bs),[]) := by
    simp only [read,List.drop_eq_nil_of_le hlen]
  have hfill := LineBuffer.unread_fill lb.readBuf (List.cons_ne_nil b bs)
  refine ⟨LineBuffer.next ⟨(b :: bs).length,0,fill lb.readBuf (b :: bs)⟩,?_,?_⟩
  · rw [myRead,if_pos h,again,hread]
    · rfl
    · intro es h
      cases h
  · exact (List.cons.inj hfill).2.symm

/-- How one pass of the loop in `readline` ends: the loop goes on, or the call
returns `ret` having stored `line`, with a terminating NUL or without. -/
inductive Progress where
  | more : Nat → List Byte → Progress
  | done (ret : Int) (line : List Byte) (nul : Bool) : Progress
  deriving DecidableEq, Repr

/-- The body of `for (n = 1; n < maxlen; n++)`, given what `my_read` returned. -/
def readlineBody (n : Nat) (line : List Byte) : MyRead → Progress
  | .byte c => if c = newline then .done n (line ++ [c]) true else .more (n+1) (line ++ [c])
  | .eof => .done (n-1) line true
  | .err _ => .done (-1) line false

structure ReadlineResult where
  ret : Int
  line : List Byte
  nul : Bool
  lb : LineBuffer
  rest : List Arrival

/-- The bytes that the call wrote from `vptr` on. -/
def ReadlineResult.written (r : ReadlineResult) : List Byte :=
  r.line ++ if r.nul then [0] else []

/-- The loop with `k = maxlen - n` passes left. When it runs out, `n` is `maxlen`. -/
def readlineLoop (lb : LineBuffer) (es : List Arrival) (n : Nat) (line : List Byte) :
    Nat → ReadlineResult
  | 0 => ⟨n,line,true,lb,es⟩
  | k+1 =>
    match myRead lb es with
    | (r,lb,es) =>
      match readlineBody n line r with
      | .more n line => readlineLoop lb es n line k
      | .done ret line nul => ⟨ret,line,nul,lb,es⟩

def readline (maxlen : Nat) (lb : LineBuffer) (es : List Arrival) : ReadlineResult :=
  readlineLoop lb es 1 [] (maxlen-1)

/-- `readlinebuf`: the returned count, and `*vptrptr` when it is assigned. -/
def readlinebuf (lb : LineBuffer) : Int × Option Nat :=
  (lb.readCnt,if lb.readCnt = 0 then none else some lb.readPtr)

theorem readlineLoop_spec (lb : LineBuffer) (es : List Arrival) (n : Nat) (line : List Byte)
    (k : Nat) (hn : 0 < n) (h : (readlineLoop lb es n line k).ret ≠ -1) :
    (readlineLoop lb es n line k).line = line ++ unit newline k (pending lb es) ∧
      pending lb es = unit newline k (pending lb es) ++
        pending (readlineLoop lb es n line k).lb (readlineLoop lb es n line k).rest := by
  induction k generalizing lb es n line with
  | zero => simp [readlineLoop]
  | succ k ih =>
    have hy := myRead_yields lb es
    revert h
    simp only [readlineLoop]
    generalize myRead lb es = m at hy
    intro h
    cases hy with
    | @byte c lb' es' hs _ =>
      by_cases hc : c = newline
      · simp [readlineBody,hs,hc,unit]
      · simp only [readlineBody,hc,if_false] at h ⊢
        obtain ⟨hline,hrest⟩ := ih lb' es' (n+1) (line ++ [c]) (by omega) h
        rw [hs]
        refine ⟨by simp [hline,unit,hc],?_⟩
        simp only [unit,hc,if_false,List.cons_append]
        rw [← hrest]
    | eof hs hcnt =>
      rw [hs]
      simp [readlineBody,pending,LineBuffer.unread_empty (Int.le_of_eq hcnt)]
    | err hs hcnt => simp [readlineBody] at h

theorem readlineLoop_ret (lb : LineBuffer) (es : List Arrival) (n : Nat) (line : List Byte)
    (k : Nat) (hn : 0 < n) : let r := readlineLoop lb es n line k
    r.ret = -1 ∨ 0 < r.ret ∨
      r.ret = 0 ∧ n = 1 ∧ pending lb es = [] ∧ r.lb.readCnt = 0 ∧ r.rest = [] := by
  induction k generalizing lb es n line with
  | zero => exact .inr (.inl (by simpa [readlineLoop] using hn))
  | succ k ih =>
    have hy := myRead_yields lb es
    simp only [readlineLoop]
    generalize myRead lb es = m at hy
    cases hy with
    | @byte c lb' es' hs _ =>
      by_cases hc : c = newline
      · exact .inr (.inl (by simpa [readlineBody,hc] using hn))
      · have h := ih lb' es' (n+1) (line ++ [c]) (by omega)
        simp only [readlineBody,hc,if_false]
        rcases h with h | h | h
        · exact .inl h
        · exact .inr (.inl h)
        · omega
    | eof hs hcnt =>
      simp only [readlineBody]
      by_cases h1 : n = 1
      · exact .inr (.inr (by simp [h1,hs,hcnt]))
      · exact .inr (.inl (by omega))
    | err hs hcnt => exact .inl rfl

/-- A call that returns 0 met end of file at once, and `my_read` left the buffer empty. -/
theorem readline_zero {maxlen : Nat} {lb : LineBuffer} {es : List Arrival}
    (h : (readline maxlen lb es).ret = 0) :
    pending lb es = [] ∧ (readline maxlen lb es).lb.readCnt = 0 ∧
      (readline maxlen lb es).rest = [] := by
  have hr := readlineLoop_ret lb es 1 [] (maxlen-1) (by omega)
  rw [readline] at h ⊢
  rcases hr with hr | hr | hr
  · omega
  · omega
  · exact hr.2.2

theorem readline_neg {maxlen : Nat} {lb : LineBuffer} {es : List Arrival} :
    (readline maxlen lb es).ret < 0 ↔ (readline maxlen lb es).ret = -1 := by
  have hr := readlineLoop_ret lb es 1 [] (maxlen-1) (by omega)
  rw [readline]
  constructor
  · intro h
    rcases hr with hr | hr | hr <;> omega
  · intro h
    omega

theorem readline_longest {maxlen : Nat} {lb : LineBuffer} {es : List Arrival}
    (h : (readline maxlen lb es).ret ≠ -1) :
    Longest newline (maxlen-1) (pending lb es) (readline maxlen lb es).line := by
  obtain ⟨hline,_⟩ := readlineLoop_spec lb es 1 [] (maxlen-1) (by omega) h
  rw [readline,hline]
  exact unit_longest newline (maxlen-1) (pending lb es)

theorem readline_pending {maxlen : Nat} {lb : LineBuffer} {es : List Arrival}
    (h : (readline maxlen lb es).ret ≠ -1) :
    pending lb es = (readline maxlen lb es).line ++
      pending (readline maxlen lb es).lb (readline maxlen lb es).rest := by
  obtain ⟨hline,hrest⟩ := readlineLoop_spec lb es 1 [] (maxlen-1) (by omega) h
  rw [readline,hline]
  exact hrest

/-- Successive calls on one descriptor: their results and what they leave behind. -/
def readlines (lb : LineBuffer) (es : List Arrival) :
    List Nat → List ReadlineResult × LineBuffer × List Arrival
  | [] => ([],lb,es)
  | maxlen :: ms =>
    let r := readline maxlen lb es
    let (rs,lb,es) := readlines r.lb r.rest ms
    (r :: rs,lb,es)

/-- The bytes that `readlinebuf` shows its caller. -/
def exposed (lb : LineBuffer) : List Byte :=
  match readlinebuf lb with
  | (n,some p) => (List.range' p n.toNat).map lb.readBuf
  | (_,none) => []

theorem exposed_eq (lb : LineBuffer) : exposed lb = lb.unread := by
  unfold exposed readlinebuf
  by_cases h : lb.readCnt = 0
  · simp [h,LineBuffer.unread_empty]
  · simp [h,LineBuffer.unread]

theorem readlines_cut (lb : LineBuffer) (es : List Arrival) (ms : List Nat)
    (h : ∀ r ∈ (readlines lb es ms).1, r.ret ≠ -1) :
    Cut newline (ms.map (· - 1)) (pending lb es)
      ((readlines lb es ms).1.map ReadlineResult.line)
      (pending (readlines lb es ms).2.1 (readlines lb es ms).2.2) := by
  induction ms generalizing lb es with
  | nil => exact .nil
  | cons maxlen ms ih =>
    simp only [readlines,List.mem_cons,forall_eq_or_imp] at h
    exact .cons (readline_longest h.1) (readline_pending h.1) (ih _ _ h.2)

/-- Byte-stream conservation. Nothing is lost, duplicated or reordered by any
sequence of calls, and how `read` split the stream has no influence on the lines. -/
theorem readlines_conserve_stream (es : List Arrival) (ms : List Nat)
    (h : ∀ r ∈ (readlines .init es ms).1, r.ret ≠ -1) :
    let out := readlines .init es ms
    (out.1.map ReadlineResult.line).flatten ++ exposed out.2.1 ++ stream out.2.2 = stream es ∧
      Cut newline (ms.map (· - 1)) (stream es) (out.1.map ReadlineResult.line)
        (exposed out.2.1 ++ stream out.2.2) ∧
      ∀ es', stream es' = stream es → (∀ r ∈ (readlines .init es' ms).1, r.ret ≠ -1) →
        (readlines .init es' ms).1.map ReadlineResult.line = out.1.map ReadlineResult.line := by
  have hinit : ∀ es', pending .init es' = stream es' := fun _ => rfl
  have hcut := readlines_cut .init es ms h
  rw [hinit] at hcut
  simp only [exposed_eq]
  refine ⟨?_,hcut,?_⟩
  · rw [List.append_assoc]
    exact hcut.flatten_append
  · intro es' hs h'
    have hcut' := readlines_cut .init es' ms h'
    rw [hinit,hs] at hcut'
    exact (hcut'.unique hcut).1

/-- "ab\ncde" arrives as "a", EINTR, "b\nc", "de"; the bounds are 8, 3 and 2. -/
theorem readlines_conserve_stream_split :
    let es := [.data 97 [],.fail .eintr,.data 98 [10,99],.data 100 [101]]
    let out := readlines .init es [8,3,2]
    out.1.map ReadlineResult.line = [[97,98,10],[99,100],[101]] ∧
      (out.1.map ReadlineResult.line).flatten ++ exposed out.2.1 ++ stream out.2.2 =
        [97,98,10,99,100,101] :=
  ⟨by decide,(readlines_conserve_stream _ [8,3,2] (by decide)).1⟩

end UnixNet
