import UnixNet.LineReaders
set_option autoImplicit false

/-! What the value returned by `readline` tells about the bytes that it stored. -/

namespace UnixNet
open Units LineReader

/-- `my_read` carries on over data and EINTR. -/
def Arrival.passes : Arrival → Bool
  | .data _ _ => true
  | .fail e => e = .eintr

def untilFailure (es : List Arrival) : List Arrival := es.takeWhile Arrival.passes

/-- The bytes that come before end of file and before any failure that is returned. -/
def deliverable (lb : LineBuffer) (es : List Arrival) : List Byte := pending lb (untilFailure es)

theorem read_untilFailure {n : Nat} {es es' : List Arrival} {bs : List Byte}
    (h : read n es = (.data bs,es')) : read n (untilFailure es) = (.data bs,untilFailure es') := by
  cases es with
  | nil => simp [read] at h
  | cons a es =>
    cases a with
    | fail e => simp [read] at h
    | data b cs =>
      simp only [read] at h
      simp only [untilFailure,List.takeWhile_cons,Arrival.passes,if_true,read]
      split at h
      · obtain ⟨rfl,rfl⟩ := by simpa using h
        rfl
      · obtain ⟨rfl,rfl⟩ := by simpa using h
        rfl

/-- What a call of `my_read` does to the deliverable bytes. -/
def Consumes (s : List Byte) : MyRead × LineBuffer × List Arrival → Prop
  | (.byte c,lb,es) => s = c :: deliverable lb es
  | _ => s = []

theorem Refilled.consumes {es : List Arrival} {out : MyRead × LineBuffer × List Arrival}
    (h : Refilled es out) : Consumes (stream (untilFailure es)) out := by
  induction h with
  | interrupted _ ih => simpa [untilFailure,Arrival.passes] using ih
  | fail he _ =>
    simp only [Consumes,untilFailure,List.takeWhile_cons,Arrival.passes,he,decide_false]
    rfl
  | eof _ => rfl
  | data hr _ =>
    simp only [Consumes,deliverable,pending]
    rw [(read_data maxline_pos (read_untilFailure hr)).2.2,List.cons_append]

theorem myRead_consumes (lb : LineBuffer) (es : List Arrival) :
    Consumes (deliverable lb es) (myRead lb es) := by
  unfold myRead
  split
  · rename_i h
    rw [deliverable,pending,LineBuffer.unread_empty h]
    exact (again_refilled lb es).consumes
  · rename_i h
    simp only [Consumes,deliverable,pending]
    rw [LineBuffer.unread_next (by omega)]
    rfl

/-- The loop fails before the unit is complete, or stores it and returns one more than its
length when it has neither a newline nor met the end of file. -/
theorem readlineLoop_count (lb : LineBuffer) (es : List Arrival) (line : List Byte) (k : Nat) :
    let r := readlineLoop lb es (line.length + 1) line k
    let u := unit newline k (deliverable lb es)
    r.ret = -1 ∧ u.length < k ∧ ¬ Ended u ∨
      r.line = line ++ u ∧ r.nul = true ∧
        r.ret = line.length + u.length + if u.length = k ∧ ¬ Ended u then 1 else 0 := by
  induction k generalizing lb es line with
  | zero => exact .inr (by simp [readlineLoop,not_ended_nil])
  | succ k ih =>
    have hc := myRead_consumes lb es
    simp only [readlineLoop]
    generalize myRead lb es = m at hc
    obtain ⟨r,lb',es'⟩ := m
    cases r with
    | byte c =>
      have hs : deliverable lb es = c :: deliverable lb' es' := hc
      rw [hs]
      by_cases hnl : c = newline
      · exact .inr (by simp [readlineBody,hnl,unit,Ended])
      · have hih := ih lb' es' (line ++ [c])
        simp only [List.length_append,List.length_singleton] at hih
        simp only [readlineBody,hnl,if_false,unit,ended_cons hnl,List.length_cons,
          Nat.add_right_cancel_iff,Nat.add_lt_add_iff_right]
        rcases hih with hfail | ⟨hline,hnul,hret⟩
        · exact .inl hfail
        · refine .inr ⟨by simp [hline],hnul,?_⟩
          rw [hret]
          push_cast
          omega
    | eof =>
      have hs : deliverable lb es = [] := hc
      rw [hs]
      exact .inr (by simp [readlineBody])
    | err e =>
      have hs : deliverable lb es = [] := hc
      rw [hs]
      exact .inl (by simp [readlineBody,not_ended_nil])

/-- A unit without a newline that is as long as it may be. -/
theorem unit_full (m : Nat) (s : List Byte) :
    (unit newline m s).length = m ∧ ¬ Ended (unit newline m s) ↔
      m ≤ s.length ∧ newline ∉ s.take m := by
  induction m generalizing s with
  | zero => simp [not_ended_nil]
  | succ m ih =>
    cases s with
    | nil => simp
    | cons c s =>
      by_cases hc : c = newline
      · simp [unit,hc,Ended]
      · simp [unit,hc,ended_cons hc,ih,Ne.symm hc]

/-- The value returned is the number of bytes stored in front of the NUL, they fit into `maxlen`
bytes, and 0 means end of file. -/
def Counts (maxlen : Nat) (lb : LineBuffer) (es : List Arrival) : Prop :=
  let r := readline maxlen lb es
  0 ≤ r.ret → r.ret = r.line.length ∧ r.nul = true ∧ r.ret + 1 ≤ maxlen ∧
    r.written.length ≤ maxlen ∧ (r.ret = 0 → pending lb es = [] ∨ maxlen = 1)

/-- `readline` counts what it stores unless the first `maxlen - 1` bytes have no newline. -/
theorem readline_counts_iff (maxlen : Nat) (hmax : 1 ≤ maxlen) (lb : LineBuffer)
    (es : List Arrival) : Counts maxlen lb es ↔
      (deliverable lb es).length < maxlen - 1 ∨
        newline ∈ (deliverable lb es).take (maxlen - 1) := by
  have hcount := readlineLoop_count lb es [] (maxlen - 1)
  have hfull := unit_full (maxlen - 1) (deliverable lb es)
  have hlen := unit_length_le newline (maxlen - 1) (deliverable lb es)
  have hzero := @readline_zero maxlen lb es
  unfold Counts readline at *
  simp only [List.length_nil,Nat.zero_add,List.nil_append,Int.natCast_zero,Int.zero_add]
    at hcount
  rcases hcount with ⟨hret,hlt,_⟩ | ⟨hline,hnul,hret⟩
  · refine iff_of_true (fun h => by omega) ?_
    by_contra hno
    push Not at hno
    have hfilled := (hfull.mpr hno).1
    omega
  · have hnot : ¬ (maxlen - 1 ≤ (deliverable lb es).length ∧
        newline ∉ (deliverable lb es).take (maxlen - 1)) ↔
        (deliverable lb es).length < maxlen - 1 ∨
          newline ∈ (deliverable lb es).take (maxlen - 1) := by
      rw [not_and_or,Nat.not_le,not_not]
    rw [← hnot,← hfull]
    simp only [ReadlineResult.written,hline,hnul,hret,if_true,List.length_append,
      List.length_singleton]
    constructor
    · intro h hbad
      have hsame := (h (by omega)).1
      rw [if_pos hbad] at hsame
      omega
    · intro hgood _
      rw [if_neg hgood]
      refine ⟨by omega,trivial,by omega,by omega,fun h0 => .inl (hzero ?_).1⟩
      rw [hret,if_neg hgood]
      exact h0

/-- "ab\n" with an interruption into an array of 8 bytes. -/
theorem readline_counts_line :
    let es := [.data 97 [],.fail .eintr,.data 98 [10]]
    Counts 8 .init es ∧ (readline 8 .init es).ret = 3 := by
  intro es
  exact ⟨(readline_counts_iff 8 (by decide) .init es).mpr (.inl (by decide)),by decide⟩

/-- "ab\n" into an array of 3 bytes: 3 is returned for the 2 bytes stored. -/
theorem readline_miscounts : ¬ ∀ (maxlen : Nat) (lb : LineBuffer) (es : List Arrival),
    1 ≤ maxlen → Transient es → Counts maxlen lb es := by
  intro h
  have hcounts := h 3 .init [.data 97 [98,10]] (by decide) (fun e he => by simp at he) (by decide)
  exact absurd hcounts.1 (by decide)

end UnixNet
