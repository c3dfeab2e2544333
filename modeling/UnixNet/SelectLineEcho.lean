import UnixNet.LineReaders
import UnixNet.SelectLineClient
set_option autoImplicit false

/-! `str_cli_select01` against an echo server. -/

namespace UnixNet
open Units
open LineReader (Transient readline_unit readline_pos)

/-- `pipe` holds what was sent and has not come back to the client's socket yet. -/
structure LineEcho where
  client : LineSelect
  pipe : List Byte

inductive LineEvent where
  | arrive : Nat → LineEvent
  | turn : Bool → LineEvent

namespace LineEcho

/-- Sent, and neither printed nor lost. -/
def outstanding (e : LineEcho) : List Byte := pending e.client.lb e.client.arrivals ++ e.pipe

/-- What has arrived ends the call of `Readline`. -/
def Answerable (e : LineEcho) : Prop :=
  Complete newline (MAXLINE-1) (unit newline (MAXLINE-1) (pending e.client.lb e.client.arrivals))

instance decidableAnswerable (e : LineEcho) : Decidable e.Answerable :=
  inferInstanceAs (Decidable (Complete _ _ _))

/-- Some bytes come back, or the loop makes a turn. `Select` reports the socket when
something has arrived; `Readline` then waits for the rest of its line. -/
def step (e : LineEcho) : LineEvent → Option LineEcho
  | .arrive k =>
    match e.pipe.take k with
    | [] => none
    | b :: bs =>
      some ⟨{ e.client with arrivals := e.client.arrivals ++ [.data b bs] },e.pipe.drop k⟩
  | .turn input =>
    let sock : Bool := e.client.arrivals ≠ []
    if e.client.ended = none ∧ (sock ∨ input) ∧ (sock → e.Answerable) then
      let t := e.client.turn ⟨sock,input,true⟩
      some ⟨t,e.pipe ++ t.sent.drop e.client.sent.length⟩
    else none

/-- This turn meets the end of file on `fp`. -/
def AtEof (input : Bool) (e : LineEcho) : Prop :=
  input = true ∧ e.client.stdio ++ e.client.segments.flatten = []

/-- What is still to come after the line that this turn reads. -/
def missed (e : LineEcho) : List Byte :=
  (if e.client.arrivals = [] then pending e.client.lb e.client.arrivals
    else rest newline (MAXLINE-1) (pending e.client.lb e.client.arrivals)) ++ e.pipe

end LineEcho

def lineEcho (segments : List (List Byte)) : Machine LineEcho LineEvent where
  init := ⟨.start [] segments,[]⟩
  step := LineEcho.step

namespace LineEcho
variable {segments : List (List Byte)} {e : LineEcho}

/-- Where the bytes of the lines are. -/
structure Kept (segments : List (List Byte)) (e : LineEcho) : Prop where
  bytes : e.client.printed ++ e.outstanding = e.client.sent
  lines : e.client.sent ++
    (chunks (e.client.stdio ++ e.client.segments.flatten)).flatMap cString =
      (chunks segments.flatten).flatMap cString
  transient : Transient e.client.arrivals

theorem Kept.noNul (h : Kept segments e) : 0 ∉ e.client.sent := by
  intro hmem
  have hall := List.mem_append_left
    ((chunks (e.client.stdio ++ e.client.segments.flatten)).flatMap cString) hmem
  rw [h.lines] at hall
  obtain ⟨c,_,hc⟩ := List.mem_flatMap.mp hall
  exact CString.nul_notMem_text c hc

/-- The client when the turn comes to `fp`. -/
def heard (e : LineEcho) : LineSelect := if e.client.arrivals = [] then e.client else e.client.reply

/-- The line is printed, and the rest of the bytes is where it was. -/
theorem reply_prints (h : Kept segments e) (hready : e.Answerable) :
    ∃ lb arrivals line, e.client.reply =
        { e.client with lb, arrivals, printed := e.client.printed ++ line } ∧
      line = unit newline (MAXLINE-1) (pending e.client.lb e.client.arrivals) ∧
      pending lb arrivals = rest newline (MAXLINE-1) (pending e.client.lb e.client.arrivals) ∧
      Transient arrivals := by
  obtain ⟨_,hline,hrest,htrans⟩ := readline_unit MAXLINE e.client.lb h.transient
  have hpos : 0 < e.client.recvline.ret := by
    refine readline_pos (by decide) h.transient fun hnil => ?_
    rw [Answerable,hnil,unit_nil] at hready
    simp [Complete,MAXLINE] at hready
  have hprinted : cString e.client.recvline.line = e.client.recvline.line := by
    refine EchoSession.cString_eq fun hmem => h.noNul ?_
    rw [← h.bytes,outstanding]
    rw [LineSelect.recvline,hline] at hmem
    have hsub := (unit_initial newline (MAXLINE-1) (pending e.client.lb e.client.arrivals)).subset
    exact List.mem_append_right _ (List.mem_append_left _ (hsub hmem))
  have hreply := LineSelect.reply_replied e.client
  generalize e.client.reply = t at hreply
  cases hreply with
  | line _ =>
    rw [hprinted]
    exact ⟨_,_,_,rfl,hline,hrest,htrans⟩
  | exit x hnot => omega

theorem heard_spec (h : Kept segments e) (hready : e.client.arrivals ≠ [] → e.Answerable) :
    ∃ lb arrivals line,
      e.heard = { e.client with lb, arrivals, printed := e.client.printed ++ line } ∧
      e.client.printed ++ line ++ (pending lb arrivals ++ e.pipe) = e.client.sent ∧
      pending lb arrivals ++ e.pipe = e.missed ∧ Transient arrivals := by
  have hbytes := h.bytes
  by_cases harr : e.client.arrivals = []
  · refine ⟨e.client.lb,e.client.arrivals,[],?_,?_,?_,h.transient⟩
    · rw [heard,if_pos harr,List.append_nil]
    · rwa [List.append_nil]
    · rw [missed,if_pos harr]
  · obtain ⟨lb,arrivals,line,hreply,hline,hrest,htrans⟩ := reply_prints h (hready harr)
    refine ⟨lb,arrivals,line,?_,?_,?_,htrans⟩
    · rw [heard,if_neg harr,hreply]
    · rw [hrest,hline,← hbytes,outstanding,List.append_assoc,← List.append_assoc (unit _ _ _),
        unit_append_rest]
    · rw [missed,if_neg harr,hrest]

theorem turn_heard (hend : e.heard.ended = none) (input : Bool) :
    e.client.turn ⟨decide (e.client.arrivals ≠ []),input,true⟩ =
      if input then e.heard.request true else e.heard := by
  have hsame : (if decide (e.client.arrivals ≠ []) = true then e.client.reply else e.client) =
      e.heard := by
    by_cases harr : e.client.arrivals = [] <;> simp [heard,harr]
  simp only [LineSelect.turn,hsame,hend,true_and]

theorem turn_of_step {t : LineEcho} {input : Bool} (h : Kept segments e)
    (ht : e.step (.turn input) = some t) : e.client.ended = none ∧
      ∃ lb arrivals line,
        (e.client.printed ++ line ++ (pending lb arrivals ++ e.pipe) = e.client.sent ∧
          pending lb arrivals ++ e.pipe = e.missed ∧ Transient arrivals) ∧
        let u : LineSelect :=
          { e.client with lb, arrivals, printed := e.client.printed ++ line }
        t.client = (if input then u.request true else u) ∧
          t.pipe = e.pipe ++ t.client.sent.drop e.client.sent.length := by
  obtain ⟨⟨hend,_,hready⟩,rfl⟩ := Option.ite_some_none_eq_some.mp ht
  obtain ⟨lb,arrivals,line,hheard,hbytes⟩ := heard_spec h fun harr => hready (by simpa using harr)
  refine ⟨hend,lb,arrivals,line,hbytes,?_,rfl⟩
  rw [← hheard]
  exact turn_heard (by rw [hheard]; exact hend) input

/-- A turn keeps the bytes, and ends the loop exactly where it meets the end of file. -/
theorem turn_kept {t : LineEcho} {input : Bool} (h : Kept segments e)
    (ht : e.step (.turn input) = some t) : Kept segments t ∧
      (e.AtEof input → t.client.ended = some .returned ∧
        t.client.printed ++ e.missed = t.client.sent) ∧
      (¬ e.AtEof input → t.client.ended = none) := by
  obtain ⟨hend,lb,arrivals,line,⟨hbytes,hmissed,htrans⟩,hclient,hpipe⟩ := turn_of_step h ht
  obtain ⟨client,pipe⟩ := t
  dsimp only at hclient hpipe ⊢
  cases input with
  | false =>
    simp only [Bool.false_eq_true,if_false] at hclient
    subst hclient hpipe
    refine ⟨⟨?_,h.lines,htrans⟩,fun heof => by simp [AtEof] at heof,fun _ => hend⟩
    simpa [outstanding] using hbytes
  | true =>
    simp only [if_true] at hclient
    generalize hsame : ({ e.client with
      lb, arrivals, printed := e.client.printed ++ line } : LineSelect) = u at hclient
    have hu := LineSelect.request_requested true u
    rw [← hclient] at hu
    obtain ⟨hunit,hrest⟩ := u.sendline_spec
    have hnil := u.sendline_nil
    have hlines := h.lines
    subst hsame
    dsimp only at hunit hrest hnil
    cases hu with
    | line hne =>
      have hsome := mt hnil.mpr hne
      subst hpipe
      refine ⟨⟨?_,?_,htrans⟩,fun heof => absurd heof.2 hsome,fun _ => hend⟩
      · rw [← hbytes]
        simp [outstanding]
      · rw [chunks,units_cons EchoSession.maxline_pred_pos hsome,← hunit,← hrest,
          List.flatMap_cons] at hlines
        exact (List.append_assoc _ _ _).trans hlines
    | eof hline =>
      have hnone := hnil.mp hline
      subst hpipe
      refine ⟨⟨?_,?_,htrans⟩,fun _ => ⟨rfl,?_⟩,fun hnot => absurd ⟨rfl,hnone⟩ hnot⟩
      · simpa [outstanding] using hbytes
      · have hleft : rest newline (MAXLINE-1) [] = [] := by simp [rest]
        rw [hnone] at hlines hrest
        rw [← hleft,← hrest] at hlines
        exact hlines
      · rw [← hmissed]
        exact hbytes
    | exit x hfail => cases hfail

theorem arrive_kept {t : LineEcho} {k : Nat} (h : Kept segments e)
    (ht : e.step (.arrive k) = some t) : Kept segments t ∧
      t.client.ended = e.client.ended ∧ t.client.printed = e.client.printed ∧
      t.client.sent = e.client.sent := by
  simp only [step] at ht
  split at ht
  · cases ht
  · rename_i b bs htake
    cases ht
    have hpipe := List.take_append_drop k e.pipe
    rw [htake] at hpipe
    refine ⟨⟨?_,h.lines,fun x hx => h.transient x (by simpa using hx)⟩,rfl,rfl,rfl⟩
    have hbytes := h.bytes
    rw [outstanding,← hpipe] at hbytes
    rw [← hbytes]
    simp [outstanding,pending,stream,Arrival.bytes]

theorem kept_init (segments : List (List Byte)) : Kept segments (lineEcho segments).init :=
  ⟨rfl,rfl,fun x hx => by cases hx⟩

/-- Where a turn of the run met the end of file, nothing more was to come. -/
def Caught (l : List (LineEcho × LineEvent)) : Prop :=
  ∀ q input, (q,.turn input) ∈ l → q.AtEof input → q.missed = []

/-- What is known of a run that has led to `e`. -/
structure Followed (segments : List (List Byte)) (l : List (LineEcho × LineEvent))
    (e : LineEcho) : Prop where
  kept : Kept segments e
  going : e.client.ended = none → ∀ q input, (q,.turn input) ∈ l → ¬ q.AtEof input
  back : e.client.ended = some .returned → (e.client.printed = e.client.sent ↔ Caught l)

theorem caught_arrive {l : List (LineEcho × LineEvent)} {k : Nat} :
    Caught (l ++ [(e,.arrive k)]) ↔ Caught l := by
  simp [Caught]

theorem followed_step {l : List (LineEcho × LineEvent)} {a : LineEvent} {t : LineEcho}
    (h : Followed segments l e) (ht : e.step a = some t) :
    Followed segments (l ++ [(e,a)]) t := by
  cases a with
  | arrive k =>
    obtain ⟨hkept,hended,hprinted,hsent⟩ := arrive_kept h.kept ht
    refine ⟨hkept,fun hgo q input hq => ?_,fun hret => ?_⟩
    · rw [hended] at hgo
      exact h.going hgo q input (by simpa using hq)
    · rw [hended] at hret
      rw [hprinted,hsent,caught_arrive]
      exact h.back hret
  | turn input =>
    obtain ⟨hkept,heof,hgoes⟩ := turn_kept h.kept ht
    have hgo := h.going (turn_of_step h.kept ht).1
    refine ⟨hkept,fun hend q i hq hat => ?_,fun hret => ?_⟩
    · rcases List.mem_append.mp hq with hq | hq
      · exact hgo q i hq hat
      · obtain ⟨rfl,rfl⟩ := by simpa using hq
        rw [(heof hat).1] at hend
        cases hend
    · have hat : e.AtEof input := by
        by_contra hnot
        rw [hgoes hnot] at hret
        cases hret
      have hbytes := (heof hat).2
      constructor
      · intro hall q i hq hat'
        rcases List.mem_append.mp hq with hq | hq
        · exact absurd hat' (hgo q i hq)
        · obtain ⟨rfl,rfl⟩ := by simpa using hq
          rw [hall] at hbytes
          exact List.append_right_eq_self.mp hbytes
      · intro hcaught
        have hnone := hcaught e input (by simp) hat
        rwa [hnone,List.append_nil] at hbytes

/-- A run in which nothing comes back before the end of file. -/
structure Silent (segments : List (List Byte)) (e : LineEcho) : Prop where
  kept : Kept segments e
  arrivals : e.client.arrivals = []
  printed : e.client.printed = []
  ends : e.client.ended = none ∨
    e.client.ended = some .returned ∧ e.client.sent = (chunks segments.flatten).flatMap cString

def inputLeft (e : LineEcho) : Nat :=
  (e.client.stdio ++ e.client.segments.flatten).length + if e.client.ended = none then 1 else 0

theorem silent_progress (h : Silent segments e) (hno : ¬ e.client.ended = some .returned) :
    ∃ a t, (lineEcho segments).step e a = some t ∧ Silent segments t ∧
      inputLeft t < inputLeft e := by
  have hend : e.client.ended = none := h.ends.resolve_right fun hret => hno hret.1
  have hheard : e.heard = e.client := if_pos h.arrivals
  have hturn := turn_heard (e := e) (by rwa [hheard]) true
  rw [hheard,if_pos rfl] at hturn
  have hstep : e.step (.turn true) = some ⟨e.client.request true,
      e.pipe ++ (e.client.request true).sent.drop e.client.sent.length⟩ := by
    rw [← hturn]
    simp [step,h.arrivals,hend]
  obtain ⟨hkept,_,_⟩ := turn_kept h.kept hstep
  refine ⟨.turn true,_,hstep,?_⟩
  have hlines := hkept.lines
  have hreq := LineSelect.request_requested true e.client
  obtain ⟨_,hrest⟩ := e.client.sendline_spec
  generalize e.client.request true = t at hreq hkept hlines
  cases hreq with
  | line hne =>
    have hsome := mt e.client.sendline_nil.mpr hne
    have hless := length_rest_lt (d := newline) EchoSession.maxline_pred_pos hsome
    rw [← hrest] at hless
    refine ⟨⟨hkept,h.arrivals,h.printed,.inl hend⟩,?_⟩
    simp only [inputLeft,if_pos hend]
    exact Nat.add_lt_add_right hless 1
  | eof hline =>
    rw [e.client.sendline_nil.mp hline] at hrest
    have hnone : e.client.sendline.2.1 ++ e.client.sendline.2.2.flatten = [] := by
      rw [hrest]
      simp [rest]
    dsimp only at hlines
    rw [hnone,chunks,units_nil,List.flatMap_nil,List.append_nil] at hlines
    refine ⟨⟨hkept,h.arrivals,h.printed,.inr ⟨rfl,hlines⟩⟩,?_⟩
    simp [inputLeft,hnone,hend]
  | exit x hfail => cases hfail

theorem followed_run {as : List LineEvent}
    (h : (lineEcho segments).run (lineEcho segments).init as = some e) :
    Followed segments ((lineEcho segments).trace (lineEcho segments).init as) e := by
  have hinit : Followed segments [] (lineEcho segments).init :=
    ⟨kept_init segments,fun _ _ _ hq => absurd hq List.not_mem_nil,nofun⟩
  exact Machine.trace_invariant (I := Followed segments) hinit
    (fun l q a t hl ht => followed_step hl ht) h

end LineEcho

open LineEcho in
/-- A run that returns has printed every echo exactly when nothing but the line of its last
turn was still to come back; every such run has done so exactly when no line sends a byte. -/
theorem strCliSelect01_replies_iff (segments : List (List Byte)) :
    (∀ as e, (lineEcho segments).run (lineEcho segments).init as = some e →
      e.client.ended = some .returned →
      (e.client.printed = e.client.sent ↔
        Caught ((lineEcho segments).trace (lineEcho segments).init as))) ∧
    ((∀ e, (lineEcho segments).Reachable e → e.client.ended = some .returned →
      e.client.printed = e.client.sent) ↔ ∀ c ∈ chunks segments.flatten, cString c = []) := by
  refine ⟨fun as e he hret => (followed_run he).back hret,?_⟩
  rw [← List.flatMap_eq_nil_iff]
  constructor
  · intro hall
    have hinit : Silent segments (lineEcho segments).init :=
      ⟨kept_init segments,rfl,rfl,.inl rfl⟩
    obtain ⟨e,he,hsilent,hret⟩ := Machine.reaches_of_rank inputLeft
      (fun e h hno => silent_progress h hno) hinit (Machine.reachable_init _)
    rcases hsilent.ends with hend | ⟨_,hsent⟩
    · rw [hend] at hret
      cases hret
    · rw [← hsent,← hall e he hret,hsilent.printed]
  · rintro hnone e ⟨as,he⟩ _
    have hkept := (followed_run he).kept
    have hlines := hkept.lines
    rw [hnone] at hlines
    have hsent := (List.append_eq_nil_iff.mp hlines).1
    have hbytes := hkept.bytes
    rw [hsent] at hbytes
    rw [hsent,(List.append_eq_nil_iff.mp hbytes).1]

/-- "a\n" is sent, and the end of file comes before its echo. -/
theorem strCliSelect01_loses_reply : ¬ ∀ (segments : List (List Byte)) (e : LineEcho),
    (lineEcho segments).Reachable e → e.client.ended = some .returned →
    e.client.printed = e.client.sent := by
  intro h
  have hrun : ((lineEcho [[97,10]]).run (lineEcho [[97,10]]).init [.turn true,.turn true]).map
      (fun e => (e.client.ended,e.client.printed,e.client.sent)) =
      some (some .returned,[],[97,10]) := by decide +kernel
  obtain ⟨e,he,hst⟩ := Option.map_eq_some_iff.mp hrun
  obtain ⟨hend,hprinted,hsent⟩ := by simpa only [Prod.mk.injEq] using hst
  have hsame := h _ e ⟨_,he⟩ hend
  rw [hprinted,hsent] at hsame
  cases hsame

end UnixNet
