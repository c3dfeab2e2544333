import UnixNet.NonblockWeb
import UnixNet.Library.History
set_option autoImplicit false

/-! The connections on which the non-blocking web client asks for its files. -/

namespace UnixNet
open Fallible

/-- The calls that a connect and its request are made of, and the store of `F_READING`.
The error of `getsockopt` is `none` when the call fails. -/
inductive WebCall where
  | connect (fd : Int) (r : ConnectResult) : WebCall
  | getsockopt (fd : Int) (error : Option Int) : WebCall
  | errRet (fd : Int) : WebCall
  | writen (fd : Int) : WebCall
  | reading (fd : Int) : WebCall
  deriving DecidableEq, Repr

def writeGetCalls (fd : Int) (writen : Bool) : List WebCall :=
  .writen fd :: if writen then [.reading fd] else []

def startConnectCalls (ans : ConnectAnswers) : List WebCall :=
  if ans.hostServ = false then []
  else
    match ans.socket with
    | none => []
    | some fd =>
      if ans.fcntl = false then []
      else
        match ans.connect with
        | .done => .connect fd .done :: writeGetCalls fd ans.writen
        | r => [.connect fd r]

/-- The calls for a file of the loop after Select, down to `write_get_cmd`. When the connect
has failed, the client says so and goes on as if it had not. -/
def fileCalls (f : WebFile) (rs ws : Finset Int) (error : Option Int) (ans : FileAnswers) :
    List WebCall :=
  if f.f_flags = 0 ∨ f.f_flags &&& F_DONE ≠ 0 then []
  else if f.f_flags &&& F_CONNECTING ≠ 0 ∧ (f.f_fd ∈ rs ∨ f.f_fd ∈ ws) then
    .getsockopt f.f_fd error :: ((if error = some 0 then [] else [.errRet f.f_fd]) ++
      writeGetCalls f.f_fd ans.writen)
  else []

/-- An action of the client, and what `getsockopt` gives if it is called. -/
structure WebReport where
  act : WebAct
  error : Option Int

structure WebSession where
  client : WebClient
  calls : List WebCall

def WebClient.made (s : WebClient) (a : WebReport) : List WebCall :=
  match s.pc, a.act with
  | .connect _, .startConnect ans => startConnectCalls ans
  | .sweep i rs ws, .file ans => (s.files[i]?).elim [] fun f => fileCalls f rs ws a.error ans
  | _, _ => []

def WebSession.step (maxnconn : Int) (s : WebSession) (a : WebReport) : Option WebSession :=
  (s.client.step maxnconn a.act).map fun t => ⟨t,s.calls ++ s.client.made a⟩

def nonblockWebCalls (n : Nat) (maxnconn : Int) : Machine WebSession WebReport :=
  ⟨⟨(nonblockWeb n maxnconn).init,[]⟩,WebSession.step maxnconn⟩

/-- What a call tells about the connect of `fd`. -/
def WebCall.tells (fd : Int) (completed : Bool) : WebCall → Bool
  | .connect f r => if f = fd then r = .done else completed
  | .getsockopt f error => if f = fd then error = some 0 else completed
  | _ => completed

/-- The last connect of `fd` is known to have completed without error. -/
def completed (fd : Int) (calls : List WebCall) : Bool := calls.foldl (WebCall.tells fd) false

/-- The GET command is written, and its file read, only on connections. -/
def WebCall.Connected (before : List WebCall) : WebCall → Prop
  | .writen fd => completed fd before = true
  | .reading fd => completed fd before = true
  | _ => True

structure WebSession.Connected (s : WebSession) : Prop where
  calls : History.Heeds WebCall.Connected s.calls
  moved : ∀ f ∈ s.client.files, f.f_flags = F_READING → .reading f.f_fd ∈ s.calls

/-- When Select reports a file that is connecting, its connect has completed without error. -/
def WebClient.Completes (s : WebClient) (a : WebReport) : Prop :=
  match s.pc, a.act with
  | .sweep i rs ws, .file _ => ∀ f ∈ s.files[i]?, f.Connecting →
      f.f_fd ∈ rs ∨ f.f_fd ∈ ws → a.error = some 0
  | _, _ => True

theorem completed_concat (fd : Int) (l : List WebCall) (x : WebCall) :
    completed fd (l ++ [x]) = x.tells fd (completed fd l) := by simp [completed]

theorem heeds_writeGet (l : List WebCall) (fd : Int) (writen : Bool) :
    History.Heeds WebCall.Connected (l ++ writeGetCalls fd writen) ↔
      History.Heeds WebCall.Connected l ∧ completed fd l = true := by
  have hstays : completed fd (l ++ [.writen fd]) = completed fd l := completed_concat ..
  cases writen with
  | false => exact History.heeds_concat l (.writen fd)
  | true =>
    have hwrite : l ++ writeGetCalls fd true = l ++ [.writen fd] ++ [.reading fd] := by
      simp [writeGetCalls]
    rw [hwrite,History.heeds_concat,History.heeds_concat]
    simp only [WebCall.Connected,hstays]
    exact and_iff_left_of_imp And.right

theorem heeds_startConnect (l : List WebCall) (ans : ConnectAnswers) :
    History.Heeds WebCall.Connected (l ++ startConnectCalls ans) ↔
      History.Heeds WebCall.Connected l := by
  have hconnect : ∀ fd r, History.Heeds WebCall.Connected (l ++ [.connect fd r]) ↔
      History.Heeds WebCall.Connected l := fun fd r => by
    rw [History.heeds_concat]
    exact and_iff_left trivial
  unfold startConnectCalls
  split
  · rw [List.append_nil]
  · split
    · rw [List.append_nil]
    · rename_i fd _
      split
      · rw [List.append_nil]
      · split
        · rw [List.append_cons,heeds_writeGet,hconnect]
          exact and_iff_left (by simp [completed_concat,WebCall.tells])
        · exact hconnect fd _

/-- The client does not look at the error before it writes. -/
theorem heeds_file (l : List WebCall) {f : WebFile} (rs ws : Finset Int) (error : Option Int)
    (ans : FileAnswers) (hflags : f.f_flags = 0 ∨ f.Active ∨ f.f_flags = F_DONE) :
    History.Heeds WebCall.Connected (l ++ fileCalls f rs ws error ans) ↔
      History.Heeds WebCall.Connected l ∧
        (f.Connecting → f.f_fd ∈ rs ∨ f.f_fd ∈ ws → error = some 0) := by
  by_cases hreport : f.Connecting ∧ (f.f_fd ∈ rs ∨ f.f_fd ∈ ws)
  · obtain ⟨hconn,hready⟩ := hreport
    have hcalls : fileCalls f rs ws error ans = .getsockopt f.f_fd error ::
        ((if error = some 0 then [] else [.errRet f.f_fd]) ++ writeGetCalls f.f_fd ans.writen) := by
      simp only [WebFile.Connecting] at hconn
      simp [fileCalls,hconn,hready,F_CONNECTING,F_DONE]
    have hsockopt : History.Heeds WebCall.Connected (l ++ [.getsockopt f.f_fd error]) ↔
        History.Heeds WebCall.Connected l := by
      rw [History.heeds_concat]
      exact and_iff_left trivial
    rw [hcalls,List.append_cons]
    simp only [hconn,hready,forall_const]
    split
    · rename_i herr
      rw [List.nil_append,heeds_writeGet,hsockopt]
      simp [completed_concat,WebCall.tells,herr]
    · rename_i herr
      have hfailed : completed f.f_fd
          (l ++ [.getsockopt f.f_fd error] ++ [.errRet f.f_fd]) = false := by
        rw [completed_concat,completed_concat]
        simp [WebCall.tells,herr]
      rw [← List.append_assoc,heeds_writeGet,hfailed]
      exact iff_of_false (fun h => Bool.false_ne_true h.2) fun h => herr h.2
  · have hnone : fileCalls f rs ws error ans = [] := by
      unfold fileCalls
      split
      · rfl
      · rename_i hskip
        refine if_neg fun hboth => hreport ⟨?_,hboth.2⟩
        rcases hflags with hzero | hactive | hdone
        · exact absurd (.inl hzero) hskip
        · refine hactive.resolve_right fun hr => hboth.1 ?_
          rw [hr]
          decide
        · exact absurd (.inr (by rw [hdone]; decide)) hskip
    rw [hnone,List.append_nil]
    exact (and_iff_left fun hconn hready => absurd ⟨hconn,hready⟩ hreport).symm

namespace WebClient
variable {s t : WebClient} {maxnconn : Int} {i : Nat} {f : WebFile}

theorem writeGetCmd_writen {writen : Bool} (h : s.writeGetCmd i f writen = .ok t) :
    writen = true := by
  unfold writeGetCmd at h
  split at h
  · cases h
  · rename_i hw
    exact (Bool.not_eq_false _).mp hw

theorem reading_mem (fd : Int) : .reading fd ∈ writeGetCalls fd true := by simp [writeGetCalls]

/-- A file gets to `F_READING` by the store that the calls show. -/
def Shown (g : WebFile) (calls : List WebCall) : Prop :=
  g.f_flags = F_CONNECTING ∨ g.f_flags = F_DONE ∨
    g.f_flags = F_READING ∧ .reading g.f_fd ∈ calls

theorem startConnect_shown {ans : ConnectAnswers} (h : s.startConnect i ans = .ok t) :
    ∃ g, t.files = s.files.set i g ∧ Shown g (startConnectCalls ans) := by
  unfold startConnect at h
  split at h
  · cases h
  · rename_i hhost
    split at h
    · cases h
    · rename_i fd hsocket
      split at h
      · cases h
      · rename_i hfcntl
        simp only at h
        split at h
        · cases h
        · obtain ⟨rset,-,h⟩ := bind_ok h
          obtain ⟨wset,-,h⟩ := bind_ok h
          cases h
          exact ⟨_,rfl,.inl rfl⟩
        · rename_i hdone
          have hw := writeGetCmd_writen h
          obtain ⟨-,rfl⟩ := writeGetCmd_ok h
          refine ⟨_,rfl,.inr (.inr ⟨rfl,?_⟩)⟩
          simp [startConnectCalls,hhost,hsocket,hfcntl,hdone,hw,reading_mem]

theorem handle_shown {rs ws : Finset Int} {ans : FileAnswers} (error : Option Int)
    (h : s.handle i f rs ws ans = .ok t) :
    t.files = s.files ∨
      ∃ g, t.files = s.files.set i g ∧ Shown g (fileCalls f rs ws error ans) := by
  unfold handle at h
  split at h
  · cases h
    exact .inl rfl
  · rename_i hskip
    split at h
    · rename_i hready
      have hw := writeGetCmd_writen h
      obtain ⟨-,rfl⟩ := writeGetCmd_ok h
      refine .inr ⟨_,rfl,.inr (.inr ⟨rfl,?_⟩)⟩
      simp [fileCalls,if_neg hskip,hready,hw,reading_mem]
    · split at h
      · split at h
        · cases h
          exact .inl rfl
        · cases h
        · split at h
          · cases h
          · cases h
            exact .inr ⟨_,rfl,.inr (.inl rfl)⟩
      · cases h
        exact .inl rfl

theorem control_files (ht : s.control maxnconn = some t) : t.files = s.files := by
  unfold control at ht
  split at ht
  · cases ht
    rfl
  · split at ht <;> cases ht <;> rfl
  · cases ht

theorem step_shown {a : WebReport} (ht : s.step maxnconn a.act = some t) :
    t.files = s.files ∨ ∃ i g, t.files = s.files.set i g ∧ Shown g (s.made a) := by
  obtain ⟨act,error⟩ := a
  cases step_moves ht with
  | control hcontrol => exact .inl (control_files hcontrol)
  | @connected i ans u hpc _ hu =>
    obtain ⟨g,hg,hshown⟩ := startConnect_shown hu
    exact .inr ⟨i,g,hg,by simpa only [made,hpc] using hshown⟩
  | selected => exact .inl rfl
  | swept => exact .inl rfl
  | @handled i rs ws f ans u hpc hi hu =>
    rcases handle_shown error hu with hsame | ⟨g,hg,hshown⟩
    · exact .inl hsame
    · exact .inr ⟨i,g,hg,by simpa only [made,hpc,hi,Option.elim_some] using hshown⟩
  | ends _ => exact .inl rfl

def Flagged (s : WebClient) : Prop :=
  ∀ f ∈ s.files, f.f_flags = 0 ∨ f.Active ∨ f.f_flags = F_DONE

theorem Flagged.step {a : WebReport} (h : s.Flagged) (ht : s.step maxnconn a.act = some t) :
    t.Flagged := by
  rcases step_shown ht with hsame | ⟨i,g,hset,hshown⟩
  · rwa [Flagged,hsame]
  · rw [Flagged,hset]
    refine Family.forall_set h ?_
    rcases hshown with hconn | hdone | ⟨hread,-⟩
    · exact .inr (.inl (.inl hconn))
    · exact .inr (.inr hdone)
    · exact .inr (.inl (.inr hread))

theorem completes_of_error {a : WebReport} (h : a.error = some 0) : s.Completes a := by
  unfold Completes
  split
  · exact fun _ _ _ _ => h
  · trivial

theorem heeds_made (h : s.Flagged) (l : List WebCall) (a : WebReport) :
    History.Heeds WebCall.Connected (l ++ s.made a) ↔
      History.Heeds WebCall.Connected l ∧ s.Completes a := by
  unfold made
  split
  · rename_i hpc hact
    have hcompletes : s.Completes a := by simp only [Completes,hpc,hact]
    rw [heeds_startConnect]
    exact (and_iff_left hcompletes).symm
  · rename_i i rs ws ans hpc hact
    simp only [Completes,hpc,hact]
    cases hi : s.files[i]? with
    | none => simp
    | some f =>
      rw [Option.elim_some,heeds_file l rs ws a.error ans (h f (List.mem_of_getElem? hi))]
      simp
  · rename_i hfile
    have hcompletes : s.Completes a := by
      unfold Completes
      split
      · rename_i hpc hact
        exact (hfile _ _ _ _ hpc hact).elim
      · trivial
    rw [List.append_nil]
    exact (and_iff_left hcompletes).symm

end WebClient

namespace WebSession
variable {s t : WebSession} {maxnconn : Int}

theorem step_some {a : WebReport} (ht : s.step maxnconn a = some t) :
    s.client.step maxnconn a.act = some t.client ∧ t.calls = s.calls ++ s.client.made a := by
  obtain ⟨c,hc,rfl⟩ := Option.map_eq_some_iff.mp ht
  exact ⟨hc,rfl⟩

/-- The calls are made by a run of the client. -/
theorem reachable_client {n : Nat} (h : (nonblockWebCalls n maxnconn).Reachable s) :
    (nonblockWeb n maxnconn).Reachable s.client := by
  refine h.invariant (I := fun s => (nonblockWeb n maxnconn).Reachable s.client)
    (Machine.reachable_init _) fun s a t hs ht => ?_
  exact hs.step (step_some ht).1

def Recorded (s : WebSession) : Prop :=
  ∀ f ∈ s.client.files, f.f_flags = F_READING → .reading f.f_fd ∈ s.calls

theorem Recorded.step {a : WebReport} (h : s.Recorded) (ht : s.step maxnconn a = some t) :
    t.Recorded := by
  obtain ⟨hstep,hcalls⟩ := step_some ht
  intro f hf hread
  rw [hcalls]
  rcases WebClient.step_shown hstep with hsame | ⟨i,g,hset,hshown⟩
  · exact List.mem_append_left _ (h f (hsame ▸ hf) hread)
  · rw [hset] at hf
    rcases List.mem_or_eq_of_mem_set hf with hf | rfl
    · exact List.mem_append_left _ (h f hf hread)
    · rcases hshown with hconn | hdone | ⟨-,hmem⟩
      · exact absurd (hread.symm.trans hconn) (by decide)
      · exact absurd (hread.symm.trans hdone) (by decide)
      · exact List.mem_append_right _ hmem

end WebSession

theorem nonblockWeb_connected_iff (n : Nat) (maxnconn : Int) (as : List WebReport)
    (s : WebSession)
    (h : (nonblockWebCalls n maxnconn).run (nonblockWebCalls n maxnconn).init as = some s) :
    s.Connected ↔
      ∀ x ∈ (nonblockWebCalls n maxnconn).trace (nonblockWebCalls n maxnconn).init as,
        x.1.client.Completes x.2 := by
  have hzero : ∀ f ∈ (nonblockWeb n maxnconn).init.files, f.f_flags = 0 :=
    fun f hf => by rw [(List.mem_replicate.mp hf).2]
  have hrun := Machine.trace_invariant
    (I := fun l s => s.client.Flagged ∧ s.Recorded ∧ (History.Heeds WebCall.Connected s.calls ↔
      ∀ x ∈ l, WebClient.Completes (WebSession.client x.1) x.2))
    ⟨fun f hf => .inl (hzero f hf),
      fun f hf hread => absurd ((hzero f hf).symm.trans hread) (by decide),
      iff_of_true (History.heeds_nil _) (by simp)⟩
    (fun l s a t hs ht => ?_) h
  · exact ⟨fun hs => hrun.2.2.mp hs.calls,fun hall => ⟨hrun.2.2.mpr hall,hrun.2.1⟩⟩
  · obtain ⟨hflags,hrecorded,hheeds⟩ := hs
    obtain ⟨hstep,hcalls⟩ := WebSession.step_some ht
    refine ⟨hflags.step hstep,hrecorded.step ht,?_⟩
    rw [hcalls,WebClient.heeds_made hflags,hheeds,List.forall_mem_append,
      List.forall_mem_singleton]

/-- Two files: the connect of the first completes at once, that of the second later. -/
theorem nonblockWeb_connected_later :
    let first : ConnectAnswers := ⟨true,some 3,true,.done,true⟩
    let later : ConnectAnswers := ⟨true,some 4,true,.inProgress,true⟩
    let acts : List WebReport := [.main,.main,.startConnect first,.main,.startConnect later,
      .main,.select (some (∅,{4})),.file ⟨.eof,true,true⟩,.file ⟨.eof,true,true⟩].map
        fun a => ⟨a,some 0⟩
    let m := nonblockWebCalls 2 2
    ∃ s, m.run m.init acts = some s ∧ s.calls =
      [.connect 3 .done,.writen 3,.reading 3,.connect 4 .inProgress,
        .getsockopt 4 (some 0),.writen 4,.reading 4] ∧ s.Connected := by
  intro first later acts m
  have hrun : (m.run m.init acts).map WebSession.calls =
      some [.connect 3 .done,.writen 3,.reading 3,.connect 4 .inProgress,
        .getsockopt 4 (some 0),.writen 4,.reading 4] := by decide +kernel
  obtain ⟨s,hs,hcalls⟩ := Option.map_eq_some_iff.mp hrun
  refine ⟨s,hs,hcalls,(nonblockWeb_connected_iff 2 2 acts s hs).mpr fun x hx => ?_⟩
  obtain ⟨a,-,ha⟩ := List.mem_map.mp (Machine.action_mem (q := x.1) hx)
  exact WebClient.completes_of_error (congrArg WebReport.error ha.symm)

/-- The connection is refused, which `getsockopt` tells, and the request is written to it. -/
theorem nonblockWeb_writes_refused : ¬ ∀ (n : Nat) (maxnconn : Int) (s : WebSession),
    (nonblockWebCalls n maxnconn).Reachable s → s.Connected := by
  intro h
  let later : ConnectAnswers := ⟨true,some 3,true,.inProgress,true⟩
  let acts : List WebReport := [.main,.main,.startConnect later,.main,
    .select (some ({3},{3})),.file ⟨.eof,false,true⟩].map fun a => ⟨a,some 111⟩
  let m := nonblockWebCalls 1 1
  have hrun : (m.run m.init acts).map WebSession.calls =
      some ([.connect 3 .inProgress,.getsockopt 3 (some 111),.errRet 3] ++ [.writen 3]) := by
    decide +kernel
  obtain ⟨s,hs,hcalls⟩ := Option.map_eq_some_iff.mp hrun
  have hheeds := (h 1 1 s ⟨acts,hs⟩).calls
  rw [hcalls,History.heeds_concat] at hheeds
  exact absurd hheeds.2 (by decide : ¬ completed 3
    [.connect 3 .inProgress,.getsockopt 3 (some 111),.errRet 3] = true)

end UnixNet
