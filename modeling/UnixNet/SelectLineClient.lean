import UnixNet.EventLoop
import UnixNet.LineClient
import UnixNet.Library.UnitReader
set_option autoImplicit false

/-! `str_cli_select01`, which watches descriptors and reads through two buffers. -/

namespace UnixNet
open Units

theorem read_shorter {n : Nat} (hn : 0 < n) {es es' : List Arrival} {r : ReadResult}
    (h : read n es = (r,es')) (hr : r ≠ .eof) :
    es'.length + (stream es').length < es.length + (stream es).length := by
  cases r with
  | data bs =>
    obtain ⟨hbs,_,hs⟩ := read_data hn h
    have hpos := List.length_pos_iff.mpr hbs
    have hle := read_length h
    rw [hs,List.length_append]
    omega
  | eof => exact absurd rfl hr
  | fail e =>
    rw [read_fail h,stream_fail,List.length_cons]
    omega

/-- What the reads of `my_read` bring, one after another, up to the first error. -/
def brought (es : List Arrival) : List (List Byte) :=
  match _ : read MAXLINE es with
  | (.data bs,es) => bs :: brought es
  | (.fail .eintr,es) => brought es
  | _ => []
termination_by es.length + (stream es).length
decreasing_by
  · rename_i h
    exact read_shorter maxline_pos h (by simp)
  · rename_i h
    exact read_shorter maxline_pos h (by simp)

@[simp] theorem brought_nil : brought [] = [] := by
  rw [brought.eq_def]
  rfl

theorem brought_data {es es' : List Arrival} {bs : List Byte}
    (h : read MAXLINE es = (.data bs,es')) : brought es = bs :: brought es' := by
  rw [brought.eq_def]
  split <;> simp_all

theorem brought_eintr (es : List Arrival) : brought (.fail .eintr :: es) = brought es := by
  rw [brought.eq_def]
  split <;> simp_all [read]

theorem brought_fail {e : Errno} (he : e ≠ .eintr) (es : List Arrival) :
    brought (.fail e :: es) = [] := by
  rw [brought.eq_def]
  split <;> simp_all [read]

/-- A refill of the static buffer takes the next segment. -/
theorem Refilled.brought_cases {es : List Arrival} {out : MyRead × LineBuffer × List Arrival}
    (h : Refilled es out) :
    (∃ c lb' es', out = (.byte c,lb',es') ∧ brought es = (c :: lb'.unread) :: brought es') ∨
    (∃ r lb' es', out = (r,lb',es') ∧ (∀ c, r ≠ .byte c) ∧ brought es = [] ∧
      lb'.unread = [] ∧ (r = .eof → es' = [])) := by
  induction h with
  | interrupted _ ih => rwa [brought_eintr]
  | @fail e lb es he hcnt =>
    have hlb : lb.unread = [] := LineBuffer.unread_empty (by omega)
    exact .inr ⟨.err e,lb,es,rfl,by simp,brought_fail he es,hlb,by simp⟩
  | @eof lb hcnt =>
    have hlb : lb.unread = [] := LineBuffer.unread_empty (by omega)
    exact .inr ⟨.eof,lb,[],rfl,by simp,brought_nil,hlb,by simp⟩
  | @data c lb es rest hr _ => exact .inl ⟨c,lb,rest,rfl,brought_data hr⟩

/-- `my_read` gives the next byte of the buffer, or of the next segment. -/
theorem myRead_gets (lb : LineBuffer) (es : List Arrival) :
    (∃ c lb' es', myRead lb es = (.byte c,lb',es') ∧
      ∀ k, gets newline (k+1) lb.unread (brought es) =
        if c = newline then ([c],lb'.unread,brought es') else
          (c :: (gets newline k lb'.unread (brought es')).1,
            (gets newline k lb'.unread (brought es')).2)) ∨
    (∃ r lb' es', myRead lb es = (r,lb',es') ∧ (∀ c, r ≠ .byte c) ∧ lb.unread = [] ∧
      brought es = [] ∧ lb'.unread = [] ∧ (r = .eof → es' = [])) := by
  by_cases hcnt : 0 < lb.readCnt
  · obtain ⟨c,lb',hread,hunread⟩ := myRead_buffered hcnt es
    refine .inl ⟨c,lb',es,hread,fun k => ?_⟩
    rw [hunread,gets_cons]
  · have hempty := LineBuffer.unread_empty (Int.not_lt.mp hcnt)
    rw [myRead,if_pos (Int.not_lt.mp hcnt),hempty]
    rcases (again_refilled lb es).brought_cases with
      ⟨c,lb',es',hread,hes⟩ | ⟨r,lb',es',hread,hr,hes,hlb,heof⟩
    · refine .inl ⟨c,lb',es',hread,fun k => ?_⟩
      rw [hes,gets_refill,gets_cons]
    · exact .inr ⟨r,lb',es',hread,hr,rfl,hes,hlb,heof⟩

theorem readlineLoop_gets (lb : LineBuffer) (es : List Arrival) {n : Nat} (hn : 0 < n)
    (line : List Byte) (k : Nat) :
    let r := readlineLoop lb es n line k
    let g := gets newline k lb.unread (brought es)
    r.ret = -1 ∧ g.2 = ([],[]) ∨ r.ret ≠ -1 ∧ (r.lb.unread,brought r.rest) = g.2 := by
  induction k generalizing lb es n line with
  | zero =>
    refine .inr ⟨by simp only [readlineLoop]; omega,?_⟩
    rw [gets_zero]
    rfl
  | succ k ih =>
    rcases myRead_gets lb es with ⟨c,lb',es',hread,hgets⟩ | ⟨r,lb',es',hread,hr,hlb,hes,hlb',heof⟩
    · simp only [readlineLoop,hread,hgets k]
      by_cases hc : c = newline
      · simp only [readlineBody,if_pos hc]
        exact .inr ⟨by omega,trivial⟩
      · simp only [readlineBody,if_neg hc]
        exact ih lb' es' (Nat.succ_pos n) (line ++ [c])
    · have hnone : (gets newline (k+1) lb.unread (brought es)).2 = ([],[]) := by
        rw [hlb,hes]
        simp [gets,rest]
      simp only [hnone,readlineLoop,hread]
      cases r with
      | byte c => exact absurd rfl (hr c)
      | eof =>
        rw [heof rfl]
        refine .inr ⟨by simp only [readlineBody]; omega,?_⟩
        simp only [readlineBody,hlb',brought_nil]
      | err e => exact .inl ⟨rfl,trivial⟩

/-- `readline` on the static buffer is a reader of units. -/
theorem readline_gets (lb : LineBuffer) (es : List Arrival) :
    let r := readline MAXLINE lb es
    let g := gets newline (MAXLINE-1) lb.unread (brought es)
    r.ret = -1 ∧ g.2 = ([],[]) ∨ r.ret ≠ -1 ∧ (r.lb.unread,brought r.rest) = g.2 :=
  readlineLoop_gets lb es Nat.one_pos [] (MAXLINE-1)

/-- `fgets` on a stream with `stdio` in its buffer; `segments` are what its reads bring.
The result is NULL when the line is empty. -/
def fgets (n : Nat) (stdio : List Byte) (segments : List (List Byte)) :
    List Byte × List Byte × List (List Byte) :=
  gets newline (n-1) stdio segments

inductive ClientEnd where
  | returned : ClientEnd
  | exited : Exit → ClientEnd
  deriving DecidableEq, Repr

/-- The client at `Select`, or where it `ended`. `stdio` is the buffer of `fp`; `arrivals`
and `segments` are what the reads of the socket and of `fp` are still to bring. -/
structure LineSelect where
  lb : LineBuffer
  arrivals : List Arrival
  stdio : List Byte
  segments : List (List Byte)
  sent : List Byte
  printed : List Byte
  ended : Option ClientEnd

namespace LineSelect

def recvline (s : LineSelect) : ReadlineResult := readline MAXLINE s.lb s.arrivals

def sendline (s : LineSelect) : List Byte × List Byte × List (List Byte) :=
  fgets MAXLINE s.stdio s.segments

/-- `if (FD_ISSET(sockfd, &rset))` -/
def reply (s : LineSelect) : LineSelect :=
  let r := s.recvline
  let t := { s with lb := r.lb, arrivals := r.rest }
  if r.ret < 0 then { t with ended := some (.exited (.errSys "readline error")) }
  else if r.ret = 0 then
    { t with ended := some (.exited (.errQuit "str_cli: server terminated prematurely")) }
  else { t with printed := s.printed ++ cString r.line }

/-- `if (FD_ISSET(fileno(fp), &rset))` -/
def request (writen : Bool) (s : LineSelect) : LineSelect :=
  let g := s.sendline
  let t := { s with stdio := g.2.1, segments := g.2.2 }
  if g.1 = [] then { t with ended := some .returned }
  else if writen then { t with sent := s.sent ++ cString g.1 }
  else { t with ended := some (.exited (.errSys "writen error")) }

end LineSelect

/-- The bits that `Select` leaves in `rset`, and whether `Writen` succeeds. -/
structure LineReady where
  sock : Bool
  input : Bool
  writen : Bool

/-- One turn of `while (1)`. -/
def LineSelect.turn (r : LineReady) (s : LineSelect) : LineSelect :=
  let s := if r.sock then s.reply else s
  if s.ended = none ∧ r.input then s.request r.writen else s

def LineSelect.start (arrivals : List Arrival) (segments : List (List Byte)) : LineSelect :=
  ⟨.init,arrivals,[],segments,[],[],none⟩

def strCliSelect01 (arrivals : List Arrival) (segments : List (List Byte)) :
    Machine LineSelect LineReady where
  init := .start arrivals segments
  step s r := if s.ended = none ∧ (r.sock ∨ r.input) then some (s.turn r) else none

/-- Neither buffer holds the end of a line. -/
structure LineSelect.Drained (s : LineSelect) : Prop where
  readline : newline ∉ s.lb.unread
  stdio : newline ∉ s.stdio

namespace LineSelect
variable {s : LineSelect}

def SockSettled (s : LineSelect) : Prop :=
  Settled newline (MAXLINE-1) s.lb.unread (brought s.arrivals)

def InputSettled (s : LineSelect) : Prop := Settled newline (MAXLINE-1) s.stdio s.segments

/-- What the answer to `FD_ISSET(sockfd, &rset)` can do. -/
inductive Replied (s : LineSelect) : LineSelect → Prop where
  | line : 0 < s.recvline.ret → Replied s { s with
      lb := s.recvline.lb
      arrivals := s.recvline.rest
      printed := s.printed ++ cString s.recvline.line }
  | exit (e : Exit) : s.recvline.ret ≤ 0 → Replied s { s with
      lb := s.recvline.lb
      arrivals := s.recvline.rest
      ended := some (.exited e) }

theorem reply_replied (s : LineSelect) : Replied s s.reply := by
  simp only [reply]
  split
  · rename_i hneg
    exact .exit _ (Int.le_of_lt hneg)
  · split
    · rename_i hzero
      exact .exit _ (Int.le_of_eq hzero)
    · exact .line (by omega)

/-- What the answer to `FD_ISSET(fileno(fp), &rset)` can do. -/
inductive Requested (writen : Bool) (s : LineSelect) : LineSelect → Prop where
  | line : s.sendline.1 ≠ [] → Requested writen s { s with
      stdio := s.sendline.2.1
      segments := s.sendline.2.2
      sent := s.sent ++ cString s.sendline.1 }
  | eof : s.sendline.1 = [] → Requested writen s { s with
      stdio := s.sendline.2.1
      segments := s.sendline.2.2
      ended := some .returned }
  | exit (e : Exit) : writen = false → Requested writen s { s with
      stdio := s.sendline.2.1
      segments := s.sendline.2.2
      ended := some (.exited e) }

theorem request_requested (writen : Bool) (s : LineSelect) :
    Requested writen s (s.request writen) := by
  simp only [request]
  split
  · rename_i hnil
    exact .eof hnil
  · rename_i hne
    split
    · exact .line hne
    · rename_i hfail
      exact .exit _ (by simpa using hfail)

theorem sendline_spec (s : LineSelect) :
    s.sendline.1 = unit newline (MAXLINE-1) (s.stdio ++ s.segments.flatten) ∧
      s.sendline.2.1 ++ s.sendline.2.2.flatten =
        rest newline (MAXLINE-1) (s.stdio ++ s.segments.flatten) :=
  gets_spec newline (MAXLINE-1) s.stdio s.segments

theorem sendline_nil (s : LineSelect) :
    s.sendline.1 = [] ↔ s.stdio ++ s.segments.flatten = [] := by
  rw [s.sendline_spec.1]
  constructor
  · intro hnil
    by_contra hsome
    have hpos := unit_pos (d := newline) EchoSession.maxline_pred_pos hsome
    exact List.ne_nil_of_length_pos hpos hnil
  · intro hnil
    rw [hnil,unit_nil]

theorem recvline_gets (s : LineSelect) :
    s.recvline.ret = -1 ∧
        (gets newline (MAXLINE-1) s.lb.unread (brought s.arrivals)).2 = ([],[]) ∨
      s.recvline.ret ≠ -1 ∧ (s.recvline.lb.unread,brought s.recvline.rest) =
        (gets newline (MAXLINE-1) s.lb.unread (brought s.arrivals)).2 :=
  readline_gets s.lb s.arrivals

theorem turn_keeps {I : LineSelect → Prop}
    (hreply : ∀ s t, s.ended = none → I s → Replied s t → I t)
    (hrequest : ∀ w s t, s.ended = none → I s → Requested w s t → I t)
    (r : LineReady) (hend : s.ended = none) (hs : I s) : I (s.turn r) := by
  have hmid : I (if r.sock then s.reply else s) := by
    split
    · exact hreply s s.reply hend hs (reply_replied s)
    · exact hs
  simp only [turn]
  generalize (if r.sock then s.reply else s) = u at hmid
  split
  · rename_i hgo
    exact hrequest r.writen u _ hgo.1 hmid (request_requested r.writen u)
  · exact hmid

theorem run_keeps {I : LineSelect → Prop} {arrivals : List Arrival} {segments : List (List Byte)}
    (h0 : I (start arrivals segments))
    (hreply : ∀ s t, s.ended = none → I s → Replied s t → I t)
    (hrequest : ∀ w s t, s.ended = none → I s → Requested w s t → I t)
    (hs : (strCliSelect01 arrivals segments).Reachable s) : I s := by
  refine hs.invariant h0 ?_
  intro u r t hu ht
  obtain ⟨⟨hend,_⟩,rfl⟩ := Option.ite_some_none_eq_some.mp ht
  exact turn_keeps hreply hrequest r hend hu

theorem settled_empty : Settled newline (MAXLINE-1) [] [] := ⟨List.not_mem_nil,trivial⟩

/-- Both readers stay settled as long as the client goes on. -/
theorem settled_run {arrivals : List Arrival} {segments : List (List Byte)}
    (hsock : (start arrivals segments).SockSettled)
    (hinput : (start arrivals segments).InputSettled)
    (hs : (strCliSelect01 arrivals segments).Reachable s) :
    s.ended = none → s.SockSettled ∧ s.InputSettled := by
  refine run_keeps (I := fun s => s.ended = none → s.SockSettled ∧ s.InputSettled)
    (fun _ => ⟨hsock,hinput⟩) ?_ ?_ hs
  · intro s t hend hI hreply hgo
    obtain ⟨hsock,hinput⟩ := hI hend
    cases hreply with
    | line hpos =>
      refine ⟨?_,hinput⟩
      rcases s.recvline_gets with ⟨hret,_⟩ | ⟨_,hnext⟩
      · omega
      · have h := (settled_gets EchoSession.maxline_pred_pos hsock.1 (brought s.arrivals)).mp hsock
        rwa [← hnext] at h
    | exit e _ => cases hgo
  · intro w s t hend hI hrequest hgo
    obtain ⟨hsock,hinput⟩ := hI hend
    cases hrequest with
    | line _ =>
      have h := settled_gets EchoSession.maxline_pred_pos hinput.1 s.segments
      exact ⟨hsock,h.mp hinput⟩
    | eof _ => cases hgo
    | exit e _ => cases hgo

/-- The socket alone is served, as long as its reader does not settle. -/
theorem sock_progress (arrivals : List Arrival) (segments : List (List Byte))
    (hs : s.ended = none ∧ ¬ s.SockSettled) (hgood : ¬ ¬ s.Drained) :
    ∃ r t, (strCliSelect01 arrivals segments).step s r = some t ∧
      (t.ended = none ∧ ¬ t.SockSettled) ∧
      (t.lb.unread ++ (brought t.arrivals).flatten).length <
        (s.lb.unread ++ (brought s.arrivals).flatten).length := by
  obtain ⟨hend,hset⟩ := hs
  obtain ⟨_,hmore,hless⟩ :=
    gets_unsettled EchoSession.maxline_pred_pos (not_not.mp hgood).readline hset
  refine ⟨⟨true,false,true⟩,s.reply,?_,?_⟩
  · simp [strCliSelect01,hend,turn]
  · have hreply := reply_replied s
    generalize s.reply = t at hreply
    cases hreply with
    | line hpos =>
      rcases s.recvline_gets with ⟨hret,_⟩ | ⟨_,hnext⟩
      · omega
      · rw [← hnext] at hmore hless
        exact ⟨⟨hend,hmore⟩,hless⟩
    | exit e hpos =>
      rcases s.recvline_gets with ⟨_,hnone⟩ | ⟨hret,hnext⟩
      · rw [hnone] at hmore
        exact absurd settled_empty hmore
      · have hzero : s.recvline.ret = 0 := by
          by_contra hne
          exact hret (readline_neg.mp (by omega : s.recvline.ret < 0))
        obtain ⟨_,hcnt,hrest⟩ := readline_zero hzero
        have hbrought : brought s.recvline.rest = [] := by rw [recvline,hrest,brought_nil]
        have hunread : s.recvline.lb.unread = [] := LineBuffer.unread_empty (Int.le_of_eq hcnt)
        rw [← hnext,hunread,hbrought] at hmore
        exact absurd settled_empty hmore

/-- `fp` alone is served, as long as its reader does not settle. -/
theorem input_progress (arrivals : List Arrival) (segments : List (List Byte))
    (hs : s.ended = none ∧ ¬ s.InputSettled) (hgood : ¬ ¬ s.Drained) :
    ∃ r t, (strCliSelect01 arrivals segments).step s r = some t ∧
      (t.ended = none ∧ ¬ t.InputSettled) ∧
      (t.stdio ++ t.segments.flatten).length < (s.stdio ++ s.segments.flatten).length := by
  obtain ⟨hend,hset⟩ := hs
  obtain ⟨hline,hmore,hless⟩ :=
    gets_unsettled EchoSession.maxline_pred_pos (not_not.mp hgood).stdio hset
  have hstep : s.request true = { s with
      stdio := s.sendline.2.1
      segments := s.sendline.2.2
      sent := s.sent ++ cString s.sendline.1 } := if_neg hline
  refine ⟨⟨false,true,true⟩,s.request true,?_,?_⟩
  · simp [strCliSelect01,hend,turn]
  · rw [hstep]
    exact ⟨⟨hend,hmore⟩,hless⟩

theorem settled_start (segs : List (List Byte)) :
    Settled newline (MAXLINE-1) [] segs ↔ Paced newline (MAXLINE-1) [] segs := by
  have hnone : ¬ Complete newline (MAXLINE-1) (unit newline (MAXLINE-1) []) := by
    simp [Complete,MAXLINE]
  simp [Settled,unfinished_short hnone]

end LineSelect

/-- `Select` is never called over buffered lines exactly when no read brings a newline
behind the end of the line that it completes. -/
theorem strCliSelect01_drained_iff (arrivals : List Arrival) (segments : List (List Byte)) :
    (∀ s, (strCliSelect01 arrivals segments).Reachable s → s.ended = none → s.Drained) ↔
      Paced newline (MAXLINE-1) [] (brought arrivals) ∧
        Paced newline (MAXLINE-1) [] segments := by
  rw [← LineSelect.settled_start,← LineSelect.settled_start]
  constructor
  · intro h
    constructor
    · by_contra hnot
      have hinit : (strCliSelect01 arrivals segments).init.ended = none ∧
          ¬ (strCliSelect01 arrivals segments).init.SockSettled := ⟨rfl,hnot⟩
      obtain ⟨s,hs,⟨hend,_⟩,hbad⟩ := Machine.reaches_of_rank _
        (fun s hI hG => LineSelect.sock_progress arrivals segments hI hG)
        hinit (Machine.reachable_init _)
      exact hbad (h s hs hend)
    · by_contra hnot
      have hinit : (strCliSelect01 arrivals segments).init.ended = none ∧
          ¬ (strCliSelect01 arrivals segments).init.InputSettled := ⟨rfl,hnot⟩
      obtain ⟨s,hs,⟨hend,_⟩,hbad⟩ := Machine.reaches_of_rank _
        (fun s hI hG => LineSelect.input_progress arrivals segments hI hG)
        hinit (Machine.reachable_init _)
      exact hbad (h s hs hend)
  · rintro ⟨hsock,hinput⟩ s hs hend
    obtain ⟨hs₁,hs₂⟩ := LineSelect.settled_run hsock hinput hs hend
    exact ⟨hs₁.1,hs₂.1⟩

/-- One segment from the server brings "a\nb\n"; the second line is not printed. -/
theorem strCliSelect01_not_drained : ¬ ∀ (arrivals : List Arrival) (segments : List (List Byte))
    (s : LineSelect), (strCliSelect01 arrivals segments).Reachable s → s.ended = none →
    s.Drained := by
  intro h
  have hrun : ((strCliSelect01 [.data 97 [10,98,10]] []).run
      (.start [.data 97 [10,98,10]] []) [⟨true,false,true⟩]).map
      (fun s => (s.ended,s.lb.unread)) = some (none,[98,10]) := by decide +kernel
  obtain ⟨s,hs,hst⟩ := Option.map_eq_some_iff.mp hrun
  obtain ⟨hend,hunread⟩ := Prod.mk.inj hst
  have hdrained := (h _ _ s ⟨_,hs⟩ hend).readline
  rw [hunread] at hdrained
  exact hdrained (by decide)

end UnixNet
