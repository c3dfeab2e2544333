import UnixNet.ReadlineCount
import UnixNet.Library.History
set_option autoImplicit false

/-! What calls of `readline` and `readlinebuf` leave in `read_cnt` and `read_ptr`. -/

namespace UnixNet
open Units LineReader

/-- Some read is to report an error that `my_read` returns. -/
def Failing (es : List Arrival) : Prop := ∃ a ∈ es, a.passes = false

theorem not_failing_nil : ¬ Failing [] := by simp [Failing]

theorem failing_data (b : Byte) (bs : List Byte) (es : List Arrival) :
    Failing (.data b bs :: es) ↔ Failing es := by simp [Failing,Arrival.passes]

theorem read_failing {n : Nat} {es es' : List Arrival} {bs : List Byte}
    (h : read n es = (.data bs,es')) : Failing es ↔ Failing es' := by
  cases es with
  | nil => simp [read] at h
  | cons a es =>
    cases a with
    | fail e => simp [read] at h
    | data b cs =>
      rw [failing_data]
      simp only [read] at h
      split at h
      · obtain ⟨-,rfl⟩ := by simpa using h
        rfl
      · obtain ⟨-,rfl⟩ := by simpa using h
        rw [failing_data]

/-- `my_read` passes over no error but EINTR. -/
def Reports (failing : Prop) : MyRead × LineBuffer × List Arrival → Prop
  | (.byte _,_,es) => failing ↔ Failing es
  | (.eof,_,_) => ¬ failing
  | (.err _,_,_) => failing

theorem Refilled.reports {es : List Arrival} {out : MyRead × LineBuffer × List Arrival}
    (h : Refilled es out) : Reports (Failing es) out := by
  induction h with
  | @interrupted es out _ ih =>
    have hsame : Failing (.fail .eintr :: es) ↔ Failing es := by simp [Failing,Arrival.passes]
    rwa [hsame]
  | @fail e lb es he _ => exact ⟨.fail e,List.mem_cons_self,by simp [Arrival.passes,he]⟩
  | eof _ => exact not_failing_nil
  | data hr _ => exact read_failing hr

theorem myRead_reports (lb : LineBuffer) (es : List Arrival) :
    Reports (Failing es) (myRead lb es) := by
  unfold myRead
  split
  · exact (again_refilled lb es).reports
  · exact Iff.rfl

def LineBuffer.Inside (lb : LineBuffer) : Prop :=
  lb.readCnt ≤ MAXLINE ∧ (0 < lb.readCnt → lb.readPtr + lb.readCnt ≤ MAXLINE)

theorem LineBuffer.Inside.next {lb : LineBuffer} (h : lb.Inside) (hcnt : 0 < lb.readCnt) :
    lb.next.Inside := by
  have hin := h.2 hcnt
  simp only [LineBuffer.Inside,LineBuffer.next]
  omega

theorem again_inside (lb : LineBuffer) (es : List Arrival) : (again lb es).2.1.Inside := by
  induction lb, es using again.induct with
  | case1 lb es ih => simpa only [again] using ih
  | case2 lb es hne e rest hr =>
    rw [again.eq_2 lb es hne]
    simp only [hr]
    exact ⟨(by decide : (-1 : Int) ≤ MAXLINE),
      fun hpos => absurd hpos (by decide : ¬ (0 : Int) < -1)⟩
  | case3 lb es hne rest hr =>
    rw [again.eq_2 lb es hne]
    simp only [hr]
    exact ⟨(by decide : (0 : Int) ≤ MAXLINE),fun hpos => absurd hpos (Int.lt_irrefl 0)⟩
  | case4 lb es hne bs rest hr =>
    rw [again.eq_2 lb es hne]
    simp only [hr]
    obtain ⟨hbs,hle,-⟩ := read_data maxline_pos hr
    have hpos : 0 < bs.length := List.length_pos_iff.mpr hbs
    refine LineBuffer.Inside.next ⟨?_,fun _ => ?_⟩ ?_ <;> simp only <;> omega

theorem myRead_inside {lb : LineBuffer} (h : lb.Inside) (es : List Arrival) :
    (myRead lb es).2.1.Inside := by
  unfold myRead
  split
  · exact again_inside lb es
  · rename_i hcnt
    exact h.next (by omega)

theorem Refilled.suffix {es : List Arrival} {out : MyRead × LineBuffer × List Arrival}
    (h : Refilled es out) : stream out.2.2 <:+ stream es := by
  induction h with
  | interrupted _ ih => exact ih
  | fail _ _ => exact List.suffix_refl _
  | eof _ => exact List.suffix_refl _
  | data hr _ => exact ⟨_,(read_data maxline_pos hr).2.2.symm⟩

theorem myRead_suffix (lb : LineBuffer) (es : List Arrival) :
    stream (myRead lb es).2.2 <:+ stream es := by
  unfold myRead
  split
  · exact (again_refilled lb es).suffix
  · exact List.suffix_refl _

theorem readlineLoop_suffix (lb : LineBuffer) (es : List Arrival) (n : Nat) (line : List Byte)
    (k : Nat) : stream (readlineLoop lb es n line k).rest <:+ stream es := by
  induction k generalizing lb es n line with
  | zero => exact List.suffix_refl _
  | succ k ih =>
    have hsuffix := myRead_suffix lb es
    simp only [readlineLoop]
    generalize myRead lb es = m at hsuffix
    obtain ⟨r,lb',es'⟩ := m
    simp only
    split
    · exact (ih ..).trans hsuffix
    · exact hsuffix

/-- What a call keeps, also when it fails: nothing that `read` brought is lost. -/
theorem readlineLoop_keeps {lb : LineBuffer} (h : lb.Inside) (es : List Arrival) (n : Nat)
    (line : List Byte) (k : Nat) :
    let r := readlineLoop lb es n line k
    r.lb.Inside ∧ line ++ pending lb es = r.line ++ pending r.lb r.rest := by
  induction k generalizing lb es n line with
  | zero => exact ⟨h,rfl⟩
  | succ k ih =>
    have hin := myRead_inside h es
    have hy := myRead_yields lb es
    simp only [readlineLoop]
    generalize myRead lb es = m at hin hy
    cases hy with
    | @byte c lb' es' hs _ =>
      by_cases hc : c = newline
      · simp only [readlineBody,if_pos hc]
        exact ⟨hin,by rw [hs,List.append_assoc,List.singleton_append]⟩
      · simp only [readlineBody,if_neg hc]
        obtain ⟨hlast,hline⟩ := ih hin es' (n+1) (line ++ [c])
        exact ⟨hlast,by rw [hs,List.append_cons]; exact hline⟩
    | eof hs hcnt =>
      simp only [readlineBody]
      refine ⟨hin,?_⟩
      rw [hs,pending,LineBuffer.unread_empty (Int.le_of_eq hcnt)]
      rfl
    | err hs hcnt =>
      simp only [readlineBody]
      refine ⟨hin,?_⟩
      rw [hs,pending,LineBuffer.unread_empty (by omega)]
      rfl

/-- An error is to come, and before it less than `m` bytes without a newline. -/
def MeetsError (m : Nat) (lb : LineBuffer) (es : List Arrival) : Prop :=
  Failing es ∧ (deliverable lb es).length < m ∧ newline ∉ deliverable lb es

theorem readlineLoop_negative {lb : LineBuffer} (h : 0 ≤ lb.readCnt) (es : List Arrival)
    (n : Nat) (line : List Byte) (k : Nat) :
    (readlineLoop lb es n line k).lb.readCnt < 0 ↔ MeetsError k lb es := by
  induction k generalizing lb es n line with
  | zero => exact iff_of_false (Int.not_lt.mpr h) fun hmeets => Nat.not_lt_zero _ hmeets.2.1
  | succ k ih =>
    have hr := myRead_reports lb es
    have hc := myRead_consumes lb es
    have hy := myRead_yields lb es
    simp only [readlineLoop,MeetsError]
    generalize myRead lb es = m at hr hc hy
    cases hy with
    | @byte c lb' es' _ hcnt =>
      have hs : deliverable lb es = c :: deliverable lb' es' := hc
      have hfail : Failing es ↔ Failing es' := hr
      by_cases hnl : c = newline
      · simp only [readlineBody,if_pos hnl]
        exact iff_of_false (Int.not_lt.mpr hcnt) fun hmeets => hmeets.2.2 (by simp [hs,hnl])
      · simp only [readlineBody,if_neg hnl]
        rw [ih hcnt es' (n+1) (line ++ [c]),MeetsError,hfail,hs]
        simp [Ne.symm hnl]
    | eof _ hcnt =>
      have hnone : ¬ Failing es := hr
      exact iff_of_false (Int.not_lt.mpr (Int.le_of_eq hcnt.symm)) fun hmeets => hnone hmeets.1
    | err _ hcnt =>
      have hfail : Failing es := hr
      have hs : deliverable lb es = [] := hc
      simp only [readlineBody,hcnt,hs]
      exact iff_of_true (by decide) ⟨hfail,Nat.succ_pos k,List.not_mem_nil⟩

/-- A call of the process; `es` is what the reads of a `readline` are to bring. -/
inductive LineCall where
  | readline (maxlen : Nat) (es : List Arrival) : LineCall
  | readlinebuf : LineCall
  deriving DecidableEq, Repr

/-- The statics after some calls. `brought` is what `read` has put into `read_buf` so far, and
`taken` what the calls of `readline` have stored for their callers. -/
structure LineRun where
  lb : LineBuffer
  brought : List Byte
  taken : List Byte

/-- The part of the stream of `es` that is gone when `rest` is left. -/
def consumed (es rest : List Arrival) : List Byte :=
  (stream es).take ((stream es).length - (stream rest).length)

theorem consumed_append {es rest : List Arrival} (h : stream rest <:+ stream es) :
    consumed es rest ++ stream rest = stream es := by
  obtain ⟨t,ht⟩ := h
  rw [consumed,← ht,List.length_append,Nat.add_sub_cancel,List.take_left]

def LineRun.call (s : LineRun) : LineCall → LineRun
  | .readline maxlen es =>
    let r := readline maxlen s.lb es
    ⟨r.lb,s.brought ++ consumed es r.rest,s.taken ++ r.line⟩
  | .readlinebuf => s

def lineRun (cs : List LineCall) : LineRun := cs.foldl LineRun.call ⟨.init,[],[]⟩

/-- What holds between the calls. The bytes at the pointer that `readlinebuf` gives, as many
as it returns, are those that were brought and not taken. -/
structure LineRun.Sound (s : LineRun) : Prop where
  nonneg : 0 ≤ s.lb.readCnt
  inside : s.lb.Inside
  unread : s.brought = s.taken ++ exposed s.lb
  count : (readlinebuf s.lb).1 = (exposed s.lb).length

/-- What holds also after a call that failed. -/
def LineRun.Kept (s : LineRun) : Prop := s.lb.Inside ∧ s.brought = s.taken ++ s.lb.unread

variable {s : LineRun}

theorem LineRun.Kept.call (h : s.Kept) (c : LineCall) : (s.call c).Kept := by
  obtain ⟨hin,hbrought⟩ := h
  cases c with
  | readlinebuf => exact ⟨hin,hbrought⟩
  | readline maxlen es =>
    obtain ⟨hin',hkeeps⟩ := readlineLoop_keeps hin es 1 [] (maxlen-1)
    have hsuffix := readlineLoop_suffix s.lb es 1 [] (maxlen-1)
    refine ⟨hin',?_⟩
    simp only [LineRun.call,readline]
    generalize readlineLoop s.lb es 1 [] (maxlen-1) = r at hkeeps hsuffix
    -- Both sides are followed by what is not read yet.
    refine List.append_cancel_right (?_ : _ ++ stream r.rest = _ ++ stream r.rest)
    calc s.brought ++ consumed es r.rest ++ stream r.rest
        = s.taken ++ pending s.lb es := by
          rw [List.append_assoc,consumed_append hsuffix,hbrought,List.append_assoc,pending]
      _ = s.taken ++ (r.line ++ pending r.lb r.rest) := by rw [← hkeeps]; rfl
      _ = s.taken ++ r.line ++ r.lb.unread ++ stream r.rest := by simp [pending]

theorem lineRun_kept (cs : List LineCall) : (lineRun cs).Kept := by
  have hinit : LineRun.Kept ⟨.init,[],[]⟩ :=
    ⟨⟨by decide,fun hpos => absurd hpos (Int.lt_irrefl 0)⟩,rfl⟩
  exact List.foldlRecOn cs LineRun.call hinit fun s h c _ => h.call c

theorem LineRun.Kept.sound_iff (h : s.Kept) : s.Sound ↔ 0 ≤ s.lb.readCnt := by
  refine ⟨LineRun.Sound.nonneg,fun hcnt => ⟨hcnt,h.1,?_,?_⟩⟩
  · rw [exposed_eq,h.2]
  · rw [exposed_eq,LineBuffer.unread,List.length_map,List.length_range']
    exact (Int.toNat_of_nonneg hcnt).symm

/-- The call does not meet an error of `read`. -/
def LineCall.Undisturbed (lb : LineBuffer) : LineCall → Prop
  | .readline maxlen es => ¬ MeetsError (maxlen-1) lb es
  | .readlinebuf => True

theorem LineRun.Sound.call_iff (h : s.Sound) (c : LineCall) :
    (s.call c).Sound ↔ c.Undisturbed s.lb := by
  have hkept : s.Kept := ⟨h.inside,by rw [h.unread,exposed_eq]⟩
  rw [(hkept.call c).sound_iff]
  cases c with
  | readlinebuf => exact iff_of_true h.nonneg trivial
  | readline maxlen es =>
    rw [LineCall.Undisturbed,← readlineLoop_negative h.nonneg es 1 [] (maxlen-1),Int.not_lt]
    rfl

theorem lineRun_concat (cs : List LineCall) (c : LineCall) :
    lineRun (cs ++ [c]) = (lineRun cs).call c := by simp [lineRun]

theorem lineRun_sound_iff (cs : List LineCall) :
    (∀ before, before <+: cs → (lineRun before).Sound) ↔
      History.Heeds (fun before c => c.Undisturbed (lineRun before).lb) cs := by
  have hinit : (lineRun []).Sound := (lineRun_kept []).sound_iff.mpr (Int.le_refl 0)
  refine (History.heeds_iff hinit (fun before c h => ?_) cs).symm
  rw [lineRun_concat]
  exact h.call_iff c

/-- A line "a\n", then a reset connection: the count is -1, with a pointer behind the old line. -/
theorem lineRun_unsound :
    let s := lineRun [.readline 8 [.data 97 [10]],.readline 8 [.fail .econnreset]]
    readlinebuf s.lb = (-1,some 2) ∧ ¬ s.Sound := by
  intro s
  have hstale : readlinebuf s.lb = (-1,some 2) := by decide
  exact ⟨hstale,fun h => absurd h.nonneg (by decide)⟩

end UnixNet
