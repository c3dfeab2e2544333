import UnixNet.LineBuffer
set_option autoImplicit false

/-!
The other line readers: threads/readline.c, which is lib/readline.c with a buffer for each
thread, server/readline_r.c, and the unbuffered server/readline.c.
-/

namespace UnixNet.LineReader
open Units

def INT_MAX : Nat := 2147483647

/-- What one call returns and stores: the bytes of the line, and whether a NUL follows them. -/
structure LineOut where
  ret : Int
  line : List Byte
  nul : Bool
  deriving DecidableEq, Repr

/-- What a caller sees of the line, and the bytes it finds written. -/
def LineOut.seen (o : LineOut) : Int × List Byte := (o.ret,o.line)

def LineOut.written (o : LineOut) : List Byte := o.line ++ if o.nul then [0] else []

/-- The loop `for (n = 1; n < maxlen; n++)` with `k` passes left, for any way to get the next
byte. There is no result when `n++` leaves the type of `n`. -/
def lineLoop {σ : Type} (next : σ → MyRead × σ) (body : Nat → List Byte → MyRead → Progress)
    (fits : Nat → Bool) (st : σ) (n : Nat) (line : List Byte) : Nat → Option (LineOut × σ)
  | 0 => some (⟨n,line,true⟩,st)
  | k+1 =>
    match next st with
    | (r,st) =>
      match body n line r with
      | .more n line => if fits n then lineLoop next body fits st n line k else none
      | .done ret line nul => some (⟨ret,line,nul⟩,st)

/-- lib/readline.c on its static buffer. -/
def libReadline (maxlen : Nat) (st : LineBuffer × List Arrival) :
    Option (LineOut × LineBuffer × List Arrival) :=
  let r := readline maxlen st.1 st.2
  some (⟨r.ret,r.line,r.nul⟩,r.lb,r.rest)

/-- threads/readline.c, whose `tsd` starts as zeros. -/
def threadsReadline (maxlen : Nat) (tsd : LineBuffer × List Arrival) :
    Option (LineOut × LineBuffer × List Arrival) :=
  libReadline maxlen tsd

/-- The loop body of the two server readers. -/
def serverBody (n : Nat) (line : List Byte) : MyRead → Progress
  | .byte c => if c = newline then .done n (line ++ [c]) true else .more (n+1) (line ++ [c])
  | .eof => if n = 1 then .done 0 line false else .done n line true
  | .err _ => .done (-1) line false

/-- `my_read_r` on the buffer in the caller's `Rline`. -/
def myReadR (st : LineBuffer × List Arrival) : MyRead × LineBuffer × List Arrival :=
  myRead st.1 st.2

/-- server/readline_r.c, with `n` an `int`. -/
def readlineR (maxlen : Nat) (rl : LineBuffer × List Arrival) :
    Option (LineOut × LineBuffer × List Arrival) :=
  lineLoop myReadR serverBody (fun n => n ≤ INT_MAX) rl 1 [] (maxlen-1)

/-- `readline_rinit`, which leaves `rl_buf` as it is. -/
def readlineRinit (rl_buf : Nat → Byte) : LineBuffer := ⟨0,0,rl_buf⟩

/-- `read(fd, &c, 1)`. -/
def readByte (es : List Arrival) : MyRead × List Arrival :=
  match read 1 es with
  | (.data bs,es) => (.byte (bs.headD 0),es)
  | (.eof,es) => (.eof,es)
  | (.fail e,es) => (.err e,es)

/-- server/readline.c, which has no buffer. -/
def serverReadline (maxlen : Nat) (es : List Arrival) : Option (LineOut × List Arrival) :=
  lineLoop readByte serverBody (fun _ => true) es 1 [] (maxlen-1)

/-- The results of `k` calls, one after another. -/
def calls {σ : Type} (call : σ → Option (LineOut × σ)) : Nat → σ → List (Option LineOut)
  | 0, _ => []
  | k+1, st =>
    match call st with
    | none => [none]
    | some (out,st) => some out :: calls call k st

/-- The next byte of the content itself. -/
def takeByte : List Byte → MyRead × List Byte
  | [] => (.eof,[])
  | c :: s => (.byte c,s)

section
variable {σ : Type} {next : σ → MyRead × σ} {content : σ → List Byte} {valid : σ → Prop}

/-- The reader gives the bytes of the content, one after another. -/
structure Feeds (next : σ → MyRead × σ) (content : σ → List Byte) (valid : σ → Prop) : Prop where
  result : ∀ st, valid st → (next st).1 = (takeByte (content st)).1
  content : ∀ st, valid st → content (next st).2 = (takeByte (content st)).2
  valid : ∀ st, valid st → valid (next st).2

/-- The loop depends on the content only. -/
theorem lineLoop_feeds (h : Feeds next content valid) (body : Nat → List Byte → MyRead → Progress)
    (fits : Nat → Bool) (st : σ) (hst : valid st) (n : Nat) (line : List Byte) (k : Nat) :
    (lineLoop next body fits st n line k).map (Prod.map id content) =
        lineLoop takeByte body fits (content st) n line k ∧
      ∀ out st', lineLoop next body fits st n line k = some (out,st') → valid st' := by
  induction k generalizing st n line with
  | zero => exact ⟨rfl,fun out st' h => by cases h; exact hst⟩
  | succ k ih =>
    have hresult := h.result st hst
    have hcontent := h.content st hst
    have hvalid := h.valid st hst
    simp only [lineLoop,← hresult,← hcontent]
    cases body n line (next st).1 with
    | more n' line' =>
      simp only
      split
      · exact ih _ hvalid n' line'
      · exact ⟨rfl,fun _ _ h => by cases h⟩
    | done ret line' nul => exact ⟨rfl,fun out st' h => by cases h; exact hvalid⟩

end

/-- The line ends in a newline. -/
def Ended (u : List Byte) : Prop := u.getLast? = some newline

instance decidableEnded (u : List Byte) : Decidable (Ended u) :=
  inferInstanceAs (Decidable (_ = _))

theorem not_ended_nil : ¬ Ended [] := by simp [Ended]

theorem ended_cons {c : Byte} {u : List Byte} (hc : c ≠ newline) : Ended (c :: u) ↔ Ended u := by
  cases u with
  | nil => simp [Ended,hc]
  | cons b u => simp [Ended]

/-- What lib/readline.c makes of a unit of the stream. -/
def libOut (m : Nat) (u : List Byte) : LineOut :=
  ⟨if u.length = m ∧ ¬ Ended u then m + 1 else u.length,u,true⟩

/-- What the server readers make of it. -/
def serverOut (u : List Byte) : LineOut :=
  if u = [] then ⟨0,[],false⟩ else ⟨if Ended u then u.length else u.length + 1,u,true⟩

theorem lib_loop (s : List Byte) (n : Nat) (line : List Byte) (k : Nat) :
    let u := unit newline k s
    lineLoop takeByte readlineBody (fun _ => true) s n line k =
      some (⟨if u.length = k ∧ ¬ Ended u then n + k else n + u.length - 1,line ++ u,true⟩,
        s.drop u.length) := by
  induction k generalizing s n line with
  | zero => simp [lineLoop,not_ended_nil]
  | succ k ih =>
    cases s with
    | nil => simp [lineLoop,takeByte,readlineBody]
    | cons c s =>
      by_cases hc : c = newline
      · simp [lineLoop,takeByte,readlineBody,unit,hc,Ended]
      · have hih := ih s (n + 1) (line ++ [c])
        simp only [lineLoop,takeByte,readlineBody,hc,if_false,if_true,unit,ended_cons hc] at hih ⊢
        rw [hih]
        simp only [List.length_cons,Nat.add_right_cancel_iff,List.append_assoc,
          List.singleton_append,List.drop_succ_cons,Option.some.injEq,Prod.mk.injEq,
          LineOut.mk.injEq,and_true]
        split <;> omega

/-- How many bytes of a unit are stored before `n++` is done no more. -/
def run (u : List Byte) : Nat := (u.takeWhile fun c => c ≠ newline).length

theorem run_cons {c : Byte} {u : List Byte} (hc : c ≠ newline) : run (c :: u) = run u + 1 := by
  simp [run,hc]

theorem server_loop {fits : Nat → Bool} (s : List Byte) (n : Nat) (line : List Byte) (k : Nat)
    (hn : 0 < n) (hfits : ∀ j, 0 < j → j ≤ run (unit newline k s) → fits (n + j) = true) :
    let u := unit newline k s
    lineLoop takeByte serverBody fits s n line k =
      some (if n = 1 ∧ u = [] ∧ 0 < k then ⟨0,line,false⟩ else
        ⟨if Ended u then n + u.length - 1 else n + u.length,line ++ u,true⟩,s.drop u.length) := by
  induction k generalizing s n line with
  | zero => simp [lineLoop,not_ended_nil]
  | succ k ih =>
    cases s with
    | nil =>
      simp only [lineLoop,takeByte,serverBody,unit]
      by_cases h1 : n = 1
      · simp [h1]
      · simp [h1,not_ended_nil]
    | cons c s =>
      by_cases hc : c = newline
      · simp [lineLoop,takeByte,serverBody,unit,hc,Ended]
      · simp only [unit,hc,if_false,run_cons hc] at hfits
        have hih := ih s (n + 1) (line ++ [c]) (by omega) fun j hj hle => by
          rw [Nat.add_assoc,Nat.add_comm 1]
          exact hfits (j + 1) (by omega) (by omega)
        have hnext := hfits 1 (by omega) (by omega)
        simp only [lineLoop,takeByte,serverBody,hc,if_false,hnext,if_true,unit,ended_cons hc]
          at hih ⊢
        rw [hih]
        simp only [Nat.add_eq_right,show n ≠ 0 by omega,reduceCtorEq,false_and,and_false,if_false,
          List.length_cons,List.append_assoc,List.singleton_append,List.drop_succ_cons,
          Option.some.injEq,Prod.mk.injEq,LineOut.mk.injEq,and_true]
        split <;> omega

/-- `n++` overflows in a line without a newline among its first `INT_MAX` bytes. -/
theorem server_loop_overflow (s : List Byte) (n : Nat) (line : List Byte) (k : Nat)
    (hover : INT_MAX < n + run (unit newline k s)) (hn : n ≤ INT_MAX) :
    lineLoop takeByte serverBody (fun n => n ≤ INT_MAX) s n line k = none := by
  induction k generalizing s n line with
  | zero =>
    simp [run] at hover
    omega
  | succ k ih =>
    cases s with
    | nil =>
      simp [run] at hover
      omega
    | cons c s =>
      by_cases hc : c = newline
      · simp [unit,hc,run] at hover
        omega
      · simp only [unit,hc,if_false,run_cons hc] at hover
        simp only [lineLoop,takeByte,serverBody,hc,if_false]
        split
        · rename_i hle
          exact ih s (n + 1) _ (by omega) (by simpa using hle)
        · rfl

/-- A call on the content itself: one unit, where `ok` says whether there is a result. -/
def unitCall (m : Nat) (ok : List Byte → Prop) [DecidablePred ok] (out : List Byte → LineOut)
    (s : List Byte) : Option (LineOut × List Byte) :=
  if ok (unit newline m s) then some (out (unit newline m s),rest newline m s) else none

section
variable {σ : Type} {content : σ → List Byte} {valid : σ → Prop}
  {call : σ → Option (LineOut × σ)} {m : Nat} {ok : List Byte → Prop} [DecidablePred ok]
  {out : List Byte → LineOut}

theorem calls_content
    (h : ∀ st, valid st → (call st).map (Prod.map id content) = unitCall m ok out (content st) ∧
      ∀ o st', call st = some (o,st') → valid st') (k : Nat) (st : σ) (hst : valid st) :
    calls call k st = calls (unitCall m ok out) k (content st) := by
  induction k generalizing st with
  | zero => rfl
  | succ k ih =>
    obtain ⟨hcall,hvalid⟩ := h st hst
    cases hst' : call st with
    | none =>
      rw [hst'] at hcall
      simp only [calls,hst',← hcall,Option.map_none]
    | some r =>
      rw [hst'] at hcall
      simp only [calls,hst',← hcall,Option.map_some,Prod.map_fst,Prod.map_snd,id]
      rw [ih r.2 (hvalid r.1 r.2 hst')]

end

/-- The unit fills the caller's buffer or ends in a newline. -/
def Whole (m : Nat) (u : List Byte) : Prop := u.length = m ∨ Ended u

theorem seen_eq_iff {m : Nat} (hm : 0 < m) (u : List Byte) :
    (libOut m u).seen = (serverOut u).seen ↔ u = [] ∨ Whole m u := by
  unfold libOut serverOut Whole LineOut.seen
  by_cases hu : u = []
  · subst hu
    simp [show ¬ 0 = m by omega]
  · simp only [hu,if_false,false_or,Prod.mk.injEq,and_true]
    by_cases hended : Ended u
    · simp [hended]
    · simp only [hended,not_false_eq_true,and_true,or_false,if_false]
      split <;> omega

/-- Two readers agree on a stream when they do on each of its units. -/
theorem agree_iff {m : Nat} (hm : 0 < m) {ok : List Byte → Prop} [DecidablePred ok] (hok : ok [])
    (s : List Byte) :
    (∀ k, (calls (unitCall m (fun _ => True) (libOut m)) k s).map (Option.map LineOut.seen) =
      (calls (unitCall m ok serverOut) k s).map (Option.map LineOut.seen)) ↔
      ∀ u ∈ units newline m s, Whole m u ∧ ok u := by
  induction s using units.induct newline m with
  | case1 s h ih =>
    have hne : unit newline m s ≠ [] := List.length_pos_iff.mp (unit_pos h.1 h.2)
    rw [units_cons h.1 h.2,List.forall_mem_cons,← ih]
    constructor
    · intro hall
      have hone := hall 1
      by_cases hu : ok (unit newline m s)
      · simp only [calls,unitCall,hu,if_true,List.map_cons,List.map_nil,Option.map_some,
          List.cons.injEq,Option.some.injEq,and_true] at hone
        refine ⟨⟨((seen_eq_iff hm _).mp hone).resolve_left hne,hu⟩,fun k => ?_⟩
        have hnext := hall (k + 1)
        simp only [calls,unitCall,hu,if_true,List.map_cons,List.cons.injEq] at hnext
        exact hnext.2
      · simp [calls,unitCall,hu] at hone
    · rintro ⟨⟨hwhole,hu⟩,hrest⟩ k
      cases k with
      | zero => rfl
      | succ k =>
        simp only [calls,unitCall,hu,if_true,List.map_cons,Option.map_some]
        rw [(seen_eq_iff hm _).mpr (.inr hwhole)]
        exact congrArg _ (hrest k)
  | case2 s h =>
    obtain rfl : s = [] := by simpa [hm] using h
    refine iff_of_true (fun k => ?_) (by simp)
    induction k with
    | zero => rfl
    | succ k ih =>
      have hseen := (seen_eq_iff hm []).mpr (.inl rfl)
      have hrest : rest newline m [] = [] := by simp [rest]
      simp only [calls,unitCall,unit_nil,hok,if_true,List.map_cons,Option.map_some,hseen,hrest]
      exact congrArg _ ih

theorem read_mem {n : Nat} {es : List Arrival} {a : Arrival} (h : a ∈ (read n es).2)
    (ha : ∀ b bs, a ≠ .data b bs) : a ∈ es := by
  cases es with
  | nil => exact h
  | cons x es =>
    cases x with
    | fail e => exact List.mem_cons_of_mem _ h
    | data b bs =>
      simp only [read] at h
      split at h
      · exact List.mem_cons_of_mem _ h
      · rcases List.mem_cons.mp h with rfl | h
        · exact absurd rfl (ha _ _)
        · exact List.mem_cons_of_mem _ h

/-- All failures are EINTR. -/
def Transient (es : List Arrival) : Prop := ∀ e, .fail e ∈ es → e = .eintr

theorem read_transient {n : Nat} {es : List Arrival} (h : Transient es) :
    Transient (read n es).2 := fun e he => h e (read_mem he (by simp))

theorem refilled_transient {es : List Arrival} {out : MyRead × LineBuffer × List Arrival}
    (hout : Refilled es out) (h : Transient es) :
    Transient out.2.2 ∧ ∀ e, out.1 ≠ .err e := by
  induction hout with
  | interrupted _ ih => exact ih fun e he => h e (List.mem_cons_of_mem _ he)
  | fail he _ => exact absurd (h _ (List.mem_cons_self ..)) he
  | eof _ => exact ⟨h,by simp⟩
  | data hr _ =>
    have hrest := read_transient (n := MAXLINE) h
    rw [hr] at hrest
    exact ⟨hrest,by simp⟩

theorem myRead_feeds : Feeds myReadR (fun st => pending st.1 st.2) fun st => Transient st.2 := by
  have hkey : ∀ st : LineBuffer × List Arrival, Transient st.2 →
      Transient (myReadR st).2.2 ∧ ∀ e, (myReadR st).1 ≠ .err e := by
    rintro ⟨lb,es⟩ h
    simp only [myReadR,myRead]
    split
    · exact refilled_transient (again_refilled lb es) h
    · exact ⟨h,by simp⟩
  have hyields := fun st : LineBuffer × List Arrival => myRead_yields st.1 st.2
  refine ⟨fun st h => ?_,fun st h => ?_,fun st h => (hkey st h).1⟩
  · have hy := hyields st
    have hne := (hkey st h).2
    unfold myReadR at hne ⊢
    generalize myRead st.1 st.2 = r at hy hne
    cases hy with
    | byte hs => rw [hs]; rfl
    | eof hs => rw [hs]; rfl
    | @err e => exact absurd rfl (hne e)
  · have hy := hyields st
    have hne := (hkey st h).2
    unfold myReadR at hne ⊢
    generalize myRead st.1 st.2 = r at hy hne
    cases hy with
    | byte hs => rw [hs]; rfl
    | eof hs hcnt =>
      rw [hs]
      simp [pending,takeByte,LineBuffer.unread_empty (Int.le_of_eq hcnt)]
    | @err e => exact absurd rfl (hne e)

/-- lib/readline.c is the same loop. -/
theorem readlineLoop_eq (lb : LineBuffer) (es : List Arrival) (n : Nat) (line : List Byte)
    (k : Nat) : let r := readlineLoop lb es n line k
    lineLoop myReadR readlineBody (fun _ => true) (lb,es) n line k =
      some (⟨r.ret,r.line,r.nul⟩,r.lb,r.rest) := by
  induction k generalizing lb es n line with
  | zero => rfl
  | succ k ih =>
    simp only [lineLoop,readlineLoop,myReadR]
    cases readlineBody n line (myRead lb es).1 with
    | more n' line' => exact ih _ _ n' line'
    | done ret line' nul => rfl

theorem lib_content {maxlen : Nat} (st : LineBuffer × List Arrival)
    (hst : Transient st.2) :
    (libReadline maxlen st).map (Prod.map id fun st => pending st.1 st.2) =
        unitCall (maxlen - 1) (fun _ => True) (libOut (maxlen - 1)) (pending st.1 st.2) ∧
      ∀ o st', libReadline maxlen st = some (o,st') → Transient st'.2 := by
  have hsame := readlineLoop_eq st.1 st.2 1 [] (maxlen - 1)
  have hfeeds := lineLoop_feeds myRead_feeds readlineBody (fun _ => true) st hst 1 [] (maxlen - 1)
  have hloop := lib_loop (pending st.1 st.2) 1 [] (maxlen - 1)
  have hcall : libReadline maxlen st =
      lineLoop myReadR readlineBody (fun _ => true) st 1 [] (maxlen - 1) := hsame.symm
  rw [hcall]
  refine ⟨hfeeds.1.trans (hloop.trans ?_),hfeeds.2⟩
  simp only [unitCall,if_true,libOut,rest,List.nil_append,Option.some.injEq,Prod.mk.injEq,
    LineOut.mk.injEq,and_true]
  split <;> omega

/-- A call that only EINTR disturbs takes the next unit. -/
theorem readline_unit (maxlen : Nat) (lb : LineBuffer) {es : List Arrival} (hes : Transient es) :
    let r := readline maxlen lb es
    let u := unit newline (maxlen - 1) (pending lb es)
    r.ret = (libOut (maxlen - 1) u).ret ∧ r.line = u ∧
      pending r.lb r.rest = rest newline (maxlen - 1) (pending lb es) ∧ Transient r.rest := by
  obtain ⟨hcall,hrest⟩ := @lib_content maxlen (lb,es) hes
  simp only [libReadline,unitCall,if_true,Option.map_some,Option.some.injEq,Prod.map_apply,id,
    Prod.mk.injEq] at hcall
  exact ⟨congrArg LineOut.ret hcall.1,congrArg LineOut.line hcall.1,hcall.2,hrest _ _ rfl⟩

theorem readline_pos {maxlen : Nat} (hmax : 1 < maxlen) {lb : LineBuffer} {es : List Arrival}
    (hes : Transient es) (hne : pending lb es ≠ []) : 0 < (readline maxlen lb es).ret := by
  obtain ⟨hret,_⟩ := readline_unit maxlen lb hes
  have hpos := @unit_pos _ _ newline (maxlen - 1) _ (by omega) hne
  rw [hret]
  simp only [libOut]
  split <;> omega

/-- The line has less than `INT_MAX` bytes before its newline. -/
def Short (u : List Byte) : Prop := run u < INT_MAX

instance decidableShort (u : List Byte) : Decidable (Short u) := inferInstanceAs (Decidable (_ < _))

theorem server_content {fits : Nat → Bool} {m : Nat} (hm : 0 < m) (s : List Byte)
    (hfits : ∀ j, 0 < j → j ≤ run (unit newline m s) → fits (1 + j) = true) :
    lineLoop takeByte serverBody fits s 1 [] m =
      some (serverOut (unit newline m s),rest newline m s) := by
  have hloop := server_loop s 1 [] m (by omega) hfits
  rw [hloop]
  simp only [serverOut,rest,true_and,hm,and_true,List.nil_append]
  by_cases hu : unit newline m s = []
  · simp [hu]
  · simp only [hu,if_false,Option.some.injEq,Prod.mk.injEq,LineOut.mk.injEq,and_true]
    split <;> omega

theorem readlineR_content {maxlen : Nat} (hmax : 2 ≤ maxlen) (st : LineBuffer × List Arrival)
    (hst : Transient st.2) :
    (readlineR maxlen st).map (Prod.map id fun st => pending st.1 st.2) =
        unitCall (maxlen - 1) Short serverOut (pending st.1 st.2) ∧
      ∀ o st', readlineR maxlen st = some (o,st') → Transient st'.2 := by
  have hfeeds := lineLoop_feeds myRead_feeds serverBody (fun n => n ≤ INT_MAX) st hst 1 []
    (maxlen - 1)
  refine ⟨hfeeds.1.trans ?_,hfeeds.2⟩
  by_cases hshort : Short (unit newline (maxlen - 1) (pending st.1 st.2))
  · have hlt : run (unit newline (maxlen - 1) (pending st.1 st.2)) < INT_MAX := hshort
    rw [unitCall,if_pos hshort]
    exact server_content (by omega) _ fun j _ hj => decide_eq_true (by omega)
  · have hge : ¬ run (unit newline (maxlen - 1) (pending st.1 st.2)) < INT_MAX := hshort
    rw [unitCall,if_neg hshort]
    exact server_loop_overflow _ 1 [] _ (by omega) (by decide)

theorem readByte_data (b : Byte) (bs : List Byte) (es : List Arrival) :
    readByte (.data b bs :: es) =
      (.byte b,match bs with | [] => es | c :: cs => .data c cs :: es) := by
  cases bs <;> simp [readByte,read]

/-- No failures at all. -/
def Calm (es : List Arrival) : Prop := ∀ e, .fail e ∉ es

theorem readByte_feeds : Feeds readByte stream Calm := by
  have hkey : ∀ es, Calm es → (readByte es).1 = (takeByte (stream es)).1 ∧
      stream (readByte es).2 = (takeByte (stream es)).2 ∧ Calm (readByte es).2 := by
    intro es h
    cases es with
    | nil => exact ⟨rfl,rfl,h⟩
    | cons a es =>
      cases a with
      | fail e => exact absurd (List.mem_cons_self ..) (h e)
      | data b bs =>
        have hrest : Calm es := fun e he => h e (List.mem_cons_of_mem _ he)
        rw [readByte_data]
        cases bs with
        | nil => exact ⟨rfl,rfl,hrest⟩
        | cons c cs => exact ⟨rfl,rfl,fun e he => hrest e (by simpa using he)⟩
  exact ⟨fun es h => (hkey es h).1,fun es h => (hkey es h).2.1,fun es h => (hkey es h).2.2⟩

theorem serverReadline_content {maxlen : Nat} (hmax : 2 ≤ maxlen) (es : List Arrival)
    (hes : Calm es) :
    (serverReadline maxlen es).map (Prod.map id stream) =
        unitCall (maxlen - 1) (fun _ => True) serverOut (stream es) ∧
      ∀ o es', serverReadline maxlen es = some (o,es') → Calm es' := by
  have hfeeds := lineLoop_feeds readByte_feeds serverBody (fun _ => true) es hes 1 [] (maxlen - 1)
  refine ⟨hfeeds.1.trans ?_,hfeeds.2⟩
  rw [unitCall,if_pos trivial]
  exact server_content (by omega) _ fun _ _ _ => rfl

/-- How much the reads of one byte have still to take. -/
def size (es : List Arrival) : Nat := (stream es).length + es.length

/-- The unbuffered reader meets every failure: a call returns -1, or takes something and leaves
the failures to the next calls. -/
theorem server_takes (es : List Arrival) (n : Nat) (line : List Byte) (k : Nat) :
    ∃ out es', lineLoop readByte serverBody (fun _ => true) es n line k = some (out,es') ∧
      (out.ret = -1 ∨ (∀ e, .fail e ∈ es → .fail e ∈ es') ∧ size es' ≤ size es ∧
        (0 < k → es ≠ [] → size es' < size es)) := by
  induction k generalizing es n line with
  | zero => exact ⟨_,_,rfl,.inr ⟨fun _ h => h,Nat.le_refl _,by simp⟩⟩
  | succ k ih =>
    cases es with
    | nil =>
      simp only [lineLoop,readByte,read,serverBody]
      by_cases h1 : n = 1
      · simp only [h1,if_true]
        exact ⟨_,_,rfl,.inr ⟨fun _ h => h,Nat.le_refl _,by simp⟩⟩
      · simp only [h1,if_false]
        exact ⟨_,_,rfl,.inr ⟨fun _ h => h,Nat.le_refl _,by simp⟩⟩
    | cons a es =>
      cases a with
      | fail e => exact ⟨_,_,rfl,.inl rfl⟩
      | data b bs =>
        have hsize : size (readByte (.data b bs :: es)).2 < size (.data b bs :: es) := by
          rw [readByte_data]
          cases bs <;> simp only [size,stream_data,List.length_cons,List.length_append] <;> omega
        have hfails : ∀ e, .fail e ∈ Arrival.data b bs :: es →
            .fail e ∈ (readByte (.data b bs :: es)).2 := by
          intro e he
          rw [readByte_data]
          cases bs <;> simpa using he
        simp only [lineLoop]
        rw [show (readByte (.data b bs :: es)).1 = .byte b by rw [readByte_data]]
        by_cases hc : b = newline
        · simp only [serverBody,hc,if_true]
          exact ⟨_,_,rfl,.inr ⟨hc ▸ hfails,by rw [← hc]; omega,fun _ _ => hc ▸ hsize⟩⟩
        · simp only [serverBody,hc,if_false,if_true]
          obtain ⟨out,es',hout,hret⟩ := ih (readByte (.data b bs :: es)).2 (n + 1) (line ++ [b])
          refine ⟨out,es',hout,?_⟩
          rcases hret with hret | ⟨hf,hle,-⟩
          · exact .inl hret
          · exact .inr ⟨fun e he => hf e (hfails e he),by omega,fun _ _ => by omega⟩

theorem server_fails {maxlen : Nat} (hmax : 2 ≤ maxlen) {es : List Arrival} {e : Errno}
    (he : .fail e ∈ es) :
    ∃ k out, some out ∈ calls (serverReadline maxlen) k es ∧ out.ret = -1 := by
  induction hn : size es using Nat.strongRecOn generalizing es with
  | ind r ih =>
    obtain ⟨out,es',hout,hret⟩ := server_takes es 1 [] (maxlen - 1)
    have hcall : serverReadline maxlen es = some (out,es') := hout
    rcases hret with hret | ⟨hfails,-,hlt⟩
    · exact ⟨1,out,by simp [calls,hcall],hret⟩
    · have hne : es ≠ [] := List.ne_nil_of_mem he
      obtain ⟨k,o,hmem,ho⟩ := ih (size es') (hn ▸ hlt (by omega) hne) (hfails e he) rfl
      exact ⟨k + 1,o,by simp [calls,hcall,hmem],ho⟩

/-- With the NUL that ends a line counted, every stream shows the difference at its end. -/
theorem written_differ {m : Nat} (hm : 0 < m) {ok : List Byte → Prop} [DecidablePred ok]
    (hok : ok []) (s : List Byte) :
    ∃ k, (calls (unitCall m (fun _ => True) (libOut m)) k s).map (Option.map LineOut.written) ≠
      (calls (unitCall m ok serverOut) k s).map (Option.map LineOut.written) := by
  induction s using units.induct newline m with
  | case1 s h ih =>
    obtain ⟨k,hk⟩ := ih
    refine ⟨k + 1,fun heq => hk ?_⟩
    by_cases hu : ok (unit newline m s)
    · simp only [calls,unitCall,hu,if_true,List.map_cons,List.cons.injEq] at heq
      exact heq.2
    · simp [calls,unitCall,hu] at heq
  | case2 s h =>
    obtain rfl : s = [] := by simpa [hm] using h
    refine ⟨1,?_⟩
    simp [calls,unitCall,hok,libOut,serverOut,LineOut.written]

/-- `s` arrives in any pieces, with EINTR failures only. -/
structure Splits (s : List Byte) (es : List Arrival) : Prop where
  stream : stream es = s
  transient : Transient es

theorem libOut_ret (m : Nat) (u : List Byte) : (libOut m u).ret ≠ -1 := by
  unfold libOut
  simp only
  split <;> omega

theorem unitCall_ret {m : Nat} (k : Nat) (s : List Byte) (out : LineOut)
    (h : some out ∈ calls (unitCall m (fun _ => True) (libOut m)) k s) : out.ret ≠ -1 := by
  induction k generalizing s with
  | zero => cases h
  | succ k ih =>
    simp only [calls,unitCall,if_true,List.mem_cons,Option.some.injEq] at h
    rcases h with rfl | h
    · exact libOut_ret m _
    · exact ih _ h

/-- The line readers agree when the reads of the unbuffered one are not interrupted, the last line
is complete, and no line has `INT_MAX` bytes. -/
theorem readers_agree_iff (maxlen : Nat) (hmax : 2 ≤ maxlen) (s : List Byte)
    (es₁ es₂ es₃ es₄ : List Arrival) (rl_buf : Nat → Byte) (h₁ : Splits s es₁)
    (h₂ : Splits s es₂) (h₃ : Splits s es₃) (h₄ : Splits s es₄) :
    let seen := List.map (Option.map LineOut.seen)
    ((∀ k,
        seen (calls (libReadline maxlen) k (.init,es₁)) =
          seen (calls (threadsReadline maxlen) k (.init,es₂)) ∧
        seen (calls (libReadline maxlen) k (.init,es₁)) =
          seen (calls (readlineR maxlen) k (readlineRinit rl_buf,es₃)) ∧
        seen (calls (libReadline maxlen) k (.init,es₁)) =
          seen (calls (serverReadline maxlen) k es₄)) ↔
      .fail .eintr ∉ es₄ ∧
        ∀ u ∈ units newline (maxlen - 1) s, Whole (maxlen - 1) u ∧ Short u) ∧
    ∃ k, (calls (libReadline maxlen) k (.init,es₁)).map (Option.map LineOut.written) ≠
      (calls (readlineR maxlen) k (readlineRinit rl_buf,es₃)).map (Option.map LineOut.written) := by
  intro seen
  have hm : 0 < maxlen - 1 := by omega
  have hshort : Short [] := by decide
  have hlib : ∀ es, Splits s es → ∀ k, calls (libReadline maxlen) k (.init,es) =
      calls (unitCall (maxlen - 1) (fun _ => True) (libOut (maxlen - 1))) k s := fun es h k => by
    rw [calls_content lib_content k (.init,es) h.transient]
    exact congrArg _ h.stream
  have hreadR : ∀ k, calls (readlineR maxlen) k (readlineRinit rl_buf,es₃) =
      calls (unitCall (maxlen - 1) Short serverOut) k s := fun k => by
    rw [calls_content (readlineR_content hmax) k (readlineRinit rl_buf,es₃) h₃.transient]
    exact congrArg _ h₃.stream
  have hserver : .fail .eintr ∉ es₄ → ∀ k, calls (serverReadline maxlen) k es₄ =
      calls (unitCall (maxlen - 1) (fun _ => True) serverOut) k s := fun hno k => by
    have hcalm : Calm es₄ := fun e he => hno (h₄.transient e he ▸ he)
    rw [calls_content (serverReadline_content hmax) k es₄ hcalm]
    exact congrArg _ h₄.stream
  simp only [hlib es₁ h₁,hreadR]
  refine ⟨⟨fun hall => ⟨fun he => ?_,?_⟩,fun ⟨hno,hunits⟩ k => ⟨?_,?_,?_⟩⟩,
    written_differ hm hshort s⟩
  · obtain ⟨k,out,hout,hret⟩ := server_fails hmax he
    have hmem : Option.map LineOut.seen (some out) ∈ seen (calls (serverReadline maxlen) k es₄) :=
      List.mem_map_of_mem hout
    rw [← (hall k).2.2] at hmem
    obtain ⟨o,ho,heq⟩ := List.mem_map.mp hmem
    obtain ⟨o,rfl,hseen⟩ := Option.map_eq_some_iff.mp heq
    exact unitCall_ret k s o ho ((congrArg Prod.fst hseen).trans hret)
  · exact (agree_iff hm hshort s).mp fun k => (hall k).2.1
  · exact congrArg seen (hlib es₂ h₂ k).symm
  · exact (agree_iff hm hshort s).mpr hunits k
  · rw [hserver hno]
    exact (agree_iff hm trivial s).mpr (fun u hu => ⟨(hunits u hu).1,trivial⟩) k

/-- "ab\n" in one piece, interrupted, and byte by byte. -/
theorem readers_agree_line :
    let es₃ := [.data 97 [],.fail .eintr,.data 98 [10]]
    let es₄ := [.data 97 [],.data 98 [],.data 10 []]
    ∀ k, (calls (readlineR 8) k (readlineRinit fun _ => 0,es₃)).map (Option.map LineOut.seen) =
      (calls (serverReadline 8) k es₄).map (Option.map LineOut.seen) := by
  intro es₃ es₄ k
  have hunits : units newline 7 [97,98,10] = [[97,98,10]] := by
    rw [units_cons (by decide) (by decide)]
    simp [unit,rest,newline]
  have hs : ∀ es, stream es = [97,98,10] → (∀ a ∈ es, a = .fail .eintr ∨ a.bytes ≠ []) →
      Splits [97,98,10] es := by
    intro es hstream hall
    refine ⟨hstream,fun e he => ?_⟩
    rcases hall _ he with heq | hne
    · cases heq
      rfl
    · exact absurd rfl hne
  have h₃ := hs es₃ rfl (by simp [es₃,Arrival.bytes])
  have h₄ := hs es₄ rfl (by simp [es₄,Arrival.bytes])
  have hall := (readers_agree_iff 8 (by decide) [97,98,10] es₄ es₄ es₃ es₄ (fun _ => 0)
    h₄ h₄ h₃ h₄).1.mpr ⟨by decide,by rw [hunits]; simp [Whole,Ended,newline]; decide⟩ k
  exact hall.2.1.symm.trans hall.2.2

/-- At the end of file inside a line one reader returns 1 and the other 2. -/
theorem readers_differ : ¬ ∀ (maxlen : Nat) (s : List Byte) (es₁ es₂ es₃ es₄ : List Arrival),
    2 ≤ maxlen → Splits s es₁ → Splits s es₂ → Splits s es₃ → Splits s es₄ → ∀ k,
      let seen := List.map (Option.map LineOut.seen)
      seen (calls (libReadline maxlen) k (.init,es₁)) =
        seen (calls (threadsReadline maxlen) k (.init,es₂)) ∧
      seen (calls (libReadline maxlen) k (.init,es₁)) =
        seen (calls (readlineR maxlen) k (readlineRinit fun _ => 0,es₃)) ∧
      seen (calls (libReadline maxlen) k (.init,es₁)) =
        seen (calls (serverReadline maxlen) k es₄) := by
  intro h
  have hs : Splits [97] [.data 97 []] := ⟨rfl,fun e he => by simp at he⟩
  exact absurd (h 8 [97] _ _ _ _ (by decide) hs hs hs hs 1).2.1 (by decide)

end UnixNet.LineReader
