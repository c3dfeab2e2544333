import UnixNet.EventLoop
import UnixNet.SelectClient
import UnixNet.Library.History
set_option autoImplicit false

/-! `str_cli` on /dev/poll, advio/str_cli_poll03.c. -/

namespace UnixNet

inductive DevPollPc where
  | start : DevPollPc
  | poll : DevPollPc
  | returned : DevPollPc
  | stopped (e : Exit) : DevPollPc
  deriving DecidableEq, Repr

/-- `pollfd` holds the descriptors of the array, which registers them first and takes the
results then; `registered` is what /dev/poll itself remembers. -/
structure DevPoll where
  pc : DevPollPc
  stdineof : Bool
  pollfd : List Int
  registered : Finset Int
  input : List Arrival
  peer : List Arrival
  log : List Action
  deriving DecidableEq

/-- `poll` is one `DP_POLL`, `none` when `Ioctl` fails, with the loop over its results; `ok fd`
tells whether the write or the shutdown that follows a read of `fd` succeeds. -/
inductive DevPollAct where
  | register (opened written : Bool) : DevPollAct
  | poll (result : Option (List Int)) (ok : Int → Bool) : DevPollAct

namespace DevPoll

/-- The body of the loop for an entry with the descriptor `fd`. -/
def entry (fds : CopyFds) (ok : Int → Bool) (s : DevPoll) (fd : Int) : DevPoll :=
  if fd = fds.sockfd then
    match read MAXLINE s.peer with
    | (.eof,peer) => { s with
        pc := if s.stdineof then .returned
          else .stopped (.errQuit "str_cli: server terminated prematurely")
        peer := peer
        log := s.log ++ [.read fds.sockfd .eof] }
    | (.fail e,peer) => { s with
        pc := .stopped (.errSys "read error")
        peer := peer
        log := s.log ++ [.read fds.sockfd (.fail e)] }
    | (.data bs,peer) => { s with
        pc := if ok fd then .poll else .stopped (.errSys "write error")
        peer := peer
        log := s.log ++ [.read fds.sockfd (.data bs),.write STDOUT_FILENO bs] }
  else
    match read MAXLINE s.input with
    | (.eof,input) => { s with
        pc := if ok fd then .poll else .stopped (.errSys "shutdown error")
        stdineof := true
        input := input
        log := s.log ++ [.read fds.fp .eof,.shutdown fds.sockfd] }
    | (.fail e,input) => { s with
        pc := .stopped (.errSys "read error")
        input := input
        log := s.log ++ [.read fds.fp (.fail e)] }
    | (.data bs,input) => { s with
        pc := if ok fd then .poll else .stopped (.errSys "writen error")
        input := input
        log := s.log ++ [.read fds.fp (.data bs),.write fds.sockfd bs] }

/-- `for (i = 0; i < result; i++)` -/
def entries (fds : CopyFds) (ok : Int → Bool) : DevPoll → List Int → DevPoll
  | s, [] => s
  | s, fd :: rest =>
    let t := s.entry fds ok fd
    if t.pc = .poll then entries fds ok t rest else t

/-- What `DP_POLL` can give: some registered descriptors, once each, and among them all on
which a read has met the end of file, because they stay readable. -/
def Ready (s : DevPoll) (result : List Int) : Prop :=
  result ≠ [] ∧ result.Nodup ∧ (∀ fd ∈ result, fd ∈ s.registered) ∧
    ∀ fd ∈ s.registered, .read fd .eof ∈ s.log → fd ∈ result

instance decidableReady (s : DevPoll) (result : List Int) : Decidable (s.Ready result) :=
  inferInstanceAs (Decidable (_ ∧ _))

def step (fds : CopyFds) (s : DevPoll) : DevPollAct → Option DevPoll
  | .register opened written =>
    if s.pc = .start then
      if opened = false then some { s with pc := .stopped (.errSys "open error") }
      else if written = false then some { s with pc := .stopped (.errSys "write error") }
      else some { s with
        pc := .poll
        pollfd := [fds.fp,fds.sockfd]
        registered := {fds.fp,fds.sockfd} }
    else none
  | .poll none _ =>
    if s.pc = .poll then some { s with pc := .stopped (.errSys "ioctl error") } else none
  | .poll (some result) ok =>
    if s.pc = .poll ∧ s.Ready result then
      let s := { s with pollfd := result ++ s.pollfd.drop result.length }
      some (s.entries fds ok (s.pollfd.take result.length))
    else none

end DevPoll

/-- `input` is what the reads of `fp` bring, and `peer` those of the socket. -/
def strCliPoll03 (fds : CopyFds) (input peer : List Arrival) : Machine DevPoll DevPollAct :=
  ⟨⟨.start,false,[],∅,input,peer,[]⟩,DevPoll.step fds⟩

namespace DevPoll

/-- `fp` is not read once a read has met its end of file. -/
def ReadOnce (fds : CopyFds) (before : List Action) (a : Action) : Prop :=
  ∀ r, a = .read fds.fp r → .read fds.fp .eof ∉ before

structure HalfClosesOnce (fds : CopyFds) (s : DevPoll) : Prop where
  readOnce : History.Heeds (ReadOnce fds) s.log
  shutdown : s.pc = .returned → s.log.count (.shutdown fds.sockfd) = 1

/-- After the end of file of `fp`, a result names the socket before `fp`, and the calls for
the socket do not let the loop go on. -/
def LastResult (fds : CopyFds) (s : DevPoll) : DevPollAct → Prop
  | .poll (some result) ok => .read fds.fp .eof ∈ s.log →
      result = [fds.sockfd,fds.fp] ∧
        ((read MAXLINE s.peer).1.ends = true ∨ ok fds.sockfd = false)
  | _ => True

instance decidableLastResult (fds : CopyFds) (s : DevPoll) (a : DevPollAct) :
    Decidable (s.LastResult fds a) := by
  unfold LastResult
  split <;> infer_instance

variable {fds : CopyFds} {ok : Int → Bool} {s t : DevPoll}

/-- A call that is neither a read of `fp` nor a shutdown. -/
def Aside (fds : CopyFds) (a : Action) : Prop := a ≠ .shutdown fds.sockfd ∧ ∀ r, a ≠ .read fds.fp r

theorem aside_sock (fds : CopyFds) (r : ReadResult) : Aside fds (.read fds.sockfd r) :=
  ⟨by simp,fun _ h => fds.distinct (Action.read.inj h).1.symm⟩

theorem aside_write (fds : CopyFds) (fd : Int) (bs : List Byte) : Aside fds (.write fd bs) :=
  ⟨by simp,by simp⟩

/-- What the body of the loop does: it serves the socket, it reads from `fp`, or it meets the
end of file of `fp`. -/
inductive Entry (fds : CopyFds) (ok : Int → Bool) (s : DevPoll) : Int → DevPoll → Prop where
  | sock {pc : DevPollPc} {peer : List Arrival} {es : List Action} :
      (∀ a ∈ es, Aside fds a) → (pc = .returned → s.stdineof = true) →
      (pc = .poll ↔ ¬ ((read MAXLINE s.peer).1.ends = true ∨ ok fds.sockfd = false)) →
      Entry fds ok s fds.sockfd { s with pc := pc, peer := peer, log := s.log ++ es }
  | fp {fd : Int} {pc : DevPollPc} {input : List Arrival} {r : ReadResult} {es : List Action} :
      fd ≠ fds.sockfd → r ≠ .eof → (∀ a ∈ es, Aside fds a) → pc ≠ .returned →
      Entry fds ok s fd { s with pc := pc, input := input, log := s.log ++ .read fds.fp r :: es }
  | eof {fd : Int} {pc : DevPollPc} {input : List Arrival} :
      fd ≠ fds.sockfd → pc ≠ .returned →
      Entry fds ok s fd { s with
        pc := pc
        stdineof := true
        input := input
        log := s.log ++ [.read fds.fp .eof,.shutdown fds.sockfd] }

theorem entry_cases (fds : CopyFds) (ok : Int → Bool) (s : DevPoll) (fd : Int) :
    Entry fds ok s fd (s.entry fds ok fd) := by
  unfold entry
  split
  · rename_i hfd
    subst hfd
    have hsock := aside_sock fds
    split
    · rename_i peer hr
      refine .sock (by simp [hsock]) ?_ ?_
      · split <;> simp_all
      · split <;> simp [hr,ReadResult.ends]
    · rename_i e peer hr
      exact .sock (by simp [hsock]) (by simp) (by simp [hr,ReadResult.ends])
    · rename_i bs peer hr
      refine .sock (by simp [hsock,aside_write]) ?_ ?_
      · split <;> simp
      · split <;> simp_all [ReadResult.ends]
  · rename_i hfd
    split
    · exact .eof hfd (by split <;> simp)
    · exact .fp hfd (by simp) (by simp) (by simp)
    · exact .fp hfd (by simp) (by simp [aside_write]) (by split <;> simp)

structure Inv (fds : CopyFds) (s : DevPoll) : Prop where
  registered : s.pc = .poll → s.registered = {fds.fp,fds.sockfd}
  eof : s.stdineof = true ↔ .read fds.fp .eof ∈ s.log
  shutdown : s.log.count (.shutdown fds.sockfd) = s.log.count (.read fds.fp .eof)
  returned : s.pc = .returned → s.stdineof = true

theorem aside_notMem {es : List Action} (h : ∀ a ∈ es, Aside fds a) (r : ReadResult) :
    .read fds.fp r ∉ es := fun hmem => (h _ hmem).2 r rfl

theorem aside_count {es : List Action} (h : ∀ a ∈ es, Aside fds a) :
    es.count (.shutdown fds.sockfd) = es.count (.read fds.fp .eof) := by
  have hshut : Action.shutdown fds.sockfd ∉ es := fun hmem => (h _ hmem).1 rfl
  rw [List.count_eq_zero.mpr hshut,List.count_eq_zero.mpr (aside_notMem h .eof)]

theorem Entry.inv {fd : Int} (he : Entry fds ok s fd t) (h : Inv fds s) (hpc : s.pc = .poll) :
    Inv fds t := by
  cases he with
  | @sock pc peer es hes hret _ =>
    refine ⟨fun _ => h.registered hpc,?_,?_,hret⟩
    · simpa [aside_notMem hes] using h.eof
    · simp only [List.count_append,h.shutdown,aside_count hes]
  | @fp _ pc input r es hfd hr hes hret =>
    refine ⟨fun _ => h.registered hpc,?_,?_,fun heq => absurd heq hret⟩
    · simpa [aside_notMem hes,Ne.symm hr] using h.eof
    · simp only [List.count_append,List.count_cons,h.shutdown,aside_count hes]
      simp [hr]
  | @eof _ pc input hfd hret =>
    refine ⟨fun _ => h.registered hpc,by simp,?_,fun heq => absurd heq hret⟩
    simp [List.count_append,h.shutdown]

theorem entries_inv (result : List Int) (h : Inv fds s) (hpc : s.pc = .poll) :
    Inv fds (s.entries fds ok result) := by
  induction result generalizing s with
  | nil => exact h
  | cons fd rest ih =>
    have hnext := (entry_cases fds ok s fd).inv h hpc
    simp only [entries]
    split
    · rename_i hgo
      exact ih hnext hgo
    · exact hnext

theorem heeds_aside (l : List Action) {es : List Action} (h : ∀ a ∈ es, Aside fds a) :
    History.Heeds (ReadOnce fds) (l ++ es) ↔ History.Heeds (ReadOnce fds) l := by
  have hfree : ∀ a ∈ es, ∀ before, ReadOnce fds before a :=
    fun a ha before r heq => absurd heq ((h a ha).2 r)
  rw [History.heeds_append l fun a ha before b hb =>
    iff_of_true (hfree b hb _) (hfree b hb before)]
  exact and_iff_left fun a ha => hfree a ha l

theorem heeds_read (l : List Action) (r : ReadResult) {es : List Action}
    (h : ∀ a ∈ es, Aside fds a) :
    History.Heeds (ReadOnce fds) (l ++ .read fds.fp r :: es) ↔
      History.Heeds (ReadOnce fds) l ∧ .read fds.fp .eof ∉ l := by
  rw [List.append_cons,heeds_aside _ h,History.heeds_concat]
  exact and_congr_right fun _ => ⟨fun hr => hr r rfl,fun hr _ _ => hr⟩

/-- The calls of an entry are in order unless it is for `fp` after the end of file. -/
theorem Entry.heeds {fd : Int} (he : Entry fds ok s fd t) :
    History.Heeds (ReadOnce fds) t.log ↔
      History.Heeds (ReadOnce fds) s.log ∧ (fd ≠ fds.sockfd → .read fds.fp .eof ∉ s.log) := by
  cases he with
  | sock hes _ _ => rw [heeds_aside _ hes,and_iff_left fun hne => absurd rfl hne]
  | fp hfd _ hes _ =>
    rw [heeds_read _ _ hes]
    exact and_congr_right fun _ => ⟨fun h _ => h,fun h => h hfd⟩
  | eof hfd _ =>
    have hpair : History.Heeds (ReadOnce fds)
        (s.log ++ [.read fds.fp .eof,.shutdown fds.sockfd]) ↔
        History.Heeds (ReadOnce fds) (s.log ++ [.read fds.fp .eof]) := by
      rw [List.append_cons,History.heeds_concat]
      exact and_iff_left fun r heq => by cases heq
    rw [hpair,heeds_read _ _ (List.forall_mem_nil _)]
    exact and_congr_right fun _ => ⟨fun h _ => h,fun h => h hfd⟩

theorem entry_sock_heeds (fds : CopyFds) (ok : Int → Bool) (s : DevPoll) :
    History.Heeds (ReadOnce fds) (s.entry fds ok fds.sockfd).log ↔
      History.Heeds (ReadOnce fds) s.log := by
  rw [(entry_cases fds ok s fds.sockfd).heeds]
  exact and_iff_left fun hne => absurd rfl hne

theorem entry_fp_heeds (fds : CopyFds) (ok : Int → Bool) (s : DevPoll) :
    History.Heeds (ReadOnce fds) (s.entry fds ok fds.fp).log ↔
      History.Heeds (ReadOnce fds) s.log ∧ .read fds.fp .eof ∉ s.log := by
  rw [(entry_cases fds ok s fds.fp).heeds]
  exact and_congr_right fun _ => ⟨fun h => h fds.distinct,fun h _ => h⟩

theorem Entry.sock_facts (he : Entry fds ok s fds.sockfd t) :
    (t.pc = .poll ↔ ¬ ((read MAXLINE s.peer).1.ends = true ∨ ok fds.sockfd = false)) ∧
      (.read fds.fp .eof ∈ t.log ↔ .read fds.fp .eof ∈ s.log) := by
  cases he with
  | sock hes _ hpc => exact ⟨hpc,by simp [aside_notMem hes]⟩
  | fp hfd _ _ _ => exact absurd rfl hfd
  | eof hfd _ => exact absurd rfl hfd

theorem result_cases {a b : Int} {l : List Int} (hne : l ≠ []) (hl : l.Nodup)
    (h : ∀ x ∈ l, x = a ∨ x = b) : l = [a] ∨ l = [b] ∨ l = [a,b] ∨ l = [b,a] := by
  cases l with
  | nil => exact absurd rfl hne
  | cons x l =>
    cases l with
    | nil => rcases h x (by simp) with rfl | rfl <;> simp
    | cons y l =>
      cases l with
      | nil =>
        rcases h x (by simp) with rfl | rfl <;> rcases h y (by simp) with rfl | rfl <;> simp_all
      | cons z l =>
        rcases h x (by simp) with rfl | rfl <;> rcases h y (by simp) with rfl | rfl <;>
          rcases h z (by simp) with rfl | rfl <;> simp_all

theorem entries_single (fds : CopyFds) (ok : Int → Bool) (s : DevPoll) (fd : Int) :
    s.entries fds ok [fd] = s.entry fds ok fd := by simp [entries]

theorem entries_pair (fds : CopyFds) (ok : Int → Bool) (s : DevPoll) (fd fd' : Int) :
    s.entries fds ok [fd,fd'] =
      if (s.entry fds ok fd).pc = .poll then (s.entry fds ok fd).entry fds ok fd'
      else s.entry fds ok fd := by
  simp [entries]

/-- One result: it is in order just when it is the last one, or `fp` has not ended. -/
theorem entries_heeds {result : List Int} (h : Inv fds s) (hpc : s.pc = .poll)
    (hready : s.Ready result) :
    History.Heeds (ReadOnce fds) (s.entries fds ok result).log ↔
      History.Heeds (ReadOnce fds) s.log ∧ s.LastResult fds (.poll (some result) ok) := by
  obtain ⟨hne,hnodup,hmem,hlevel⟩ := hready
  rw [h.registered hpc] at hmem hlevel
  have hfp : .read fds.fp .eof ∈ s.log → fds.fp ∈ result := hlevel _ (by simp)
  have hdistinct := fds.distinct
  rcases result_cases hne hnodup (by simpa using hmem) with rfl | rfl | rfl | rfl
  · rw [entries_single,entry_fp_heeds]
    simp [LastResult]
  · have hnot : .read fds.fp .eof ∉ s.log := fun heof => by simpa [hdistinct] using hfp heof
    rw [entries_single,entry_sock_heeds]
    simp [LastResult,hnot]
  · have hlast : History.Heeds (ReadOnce fds) (s.entries fds ok [fds.fp,fds.sockfd]).log ↔
        History.Heeds (ReadOnce fds) (s.entry fds ok fds.fp).log := by
      rw [entries_pair]
      split
      · exact entry_sock_heeds fds ok _
      · rfl
    rw [hlast,entry_fp_heeds]
    simp [LastResult,hdistinct]
  · obtain ⟨hgo,heof⟩ := (entry_cases fds ok s fds.sockfd).sock_facts
    rw [entries_pair]
    split
    · rename_i hpoll
      rw [entry_fp_heeds,entry_sock_heeds,heof]
      refine and_congr_right fun _ => ⟨fun hnot hin => absurd hin hnot,fun hlast hin => ?_⟩
      exact absurd (hlast hin).2 (hgo.mp hpoll)
    · rename_i hend
      rw [entry_sock_heeds]
      exact (and_iff_left fun _ => ⟨rfl,not_not.mp (mt hgo.mpr hend)⟩).symm

theorem Inv.goto {pc : DevPollPc} {pollfd : List Int} {registered : Finset Int} (h : Inv fds s)
    (hreg : pc = .poll → registered = {fds.fp,fds.sockfd}) (hret : pc ≠ .returned) :
    Inv fds { s with pc := pc, pollfd := pollfd, registered := registered } :=
  ⟨hreg,h.eof,h.shutdown,fun hpc => absurd hpc hret⟩

theorem step_inv {a : DevPollAct} (h : Inv fds s) (ht : s.step fds a = some t) :
    Inv fds t ∧ (History.Heeds (ReadOnce fds) t.log ↔
      History.Heeds (ReadOnce fds) s.log ∧ s.LastResult fds a) := by
  cases a with
  | register opened written =>
    obtain ⟨-,ht⟩ := Option.ite_none_right_eq_some.mp ht
    have hsame : ∀ l, History.Heeds (ReadOnce fds) l ↔ History.Heeds (ReadOnce fds) l ∧ True :=
      fun l => (and_iff_left trivial).symm
    split at ht
    · cases ht
      exact ⟨h.goto (by simp) (by simp),hsame _⟩
    · split at ht
      · cases ht
        exact ⟨h.goto (by simp) (by simp),hsame _⟩
      · cases ht
        exact ⟨h.goto (fun _ => rfl) (by simp),hsame _⟩
  | poll result ok =>
    cases result with
    | none =>
      obtain ⟨-,ht⟩ := Option.ite_none_right_eq_some.mp ht
      cases ht
      exact ⟨h.goto (by simp) (by simp),(and_iff_left trivial).symm⟩
    | some result =>
      obtain ⟨⟨hpc,hready⟩,ht⟩ := Option.ite_none_right_eq_some.mp ht
      rw [List.take_left] at ht
      cases ht
      have hnext : Inv fds { s with pollfd := result ++ s.pollfd.drop result.length } :=
        h.goto h.registered (by simp [hpc])
      exact ⟨entries_inv result hnext hpc,entries_heeds hnext hpc hready⟩

theorem init_inv (fds : CopyFds) (input peer : List Arrival) :
    Inv fds (strCliPoll03 fds input peer).init :=
  ⟨by simp [strCliPoll03],by simp [strCliPoll03],rfl,by simp [strCliPoll03]⟩

/-- The log of an orderly end has one end of file, and so one shutdown. -/
theorem Inv.halfClosesOnce_iff (h : Inv fds s) :
    HalfClosesOnce fds s ↔ History.Heeds (ReadOnce fds) s.log := by
  refine ⟨HalfClosesOnce.readOnce,fun hheeds => ⟨hheeds,fun hret => ?_⟩⟩
  have hpos := List.count_pos_iff.mpr (h.eof.mp (h.returned hret))
  have hle := hheeds.count_le_one fun before hread => hread .eof rfl
  rw [h.shutdown]
  omega

end DevPoll

theorem strCliPoll03_halfClosesOnce_iff (fds : CopyFds) (input peer : List Arrival)
    (as : List DevPollAct) (s : DevPoll)
    (h : (strCliPoll03 fds input peer).run (strCliPoll03 fds input peer).init as = some s) :
    DevPoll.HalfClosesOnce fds s ↔
      ∀ x ∈ (strCliPoll03 fds input peer).trace (strCliPoll03 fds input peer).init as,
        x.1.LastResult fds x.2 := by
  have hrun := Machine.trace_invariant
    (I := fun l s => DevPoll.Inv fds s ∧ (History.Heeds (DevPoll.ReadOnce fds) s.log ↔
      ∀ x ∈ l, DevPoll.LastResult fds x.1 x.2))
    ⟨DevPoll.init_inv fds input peer,iff_of_true (History.heeds_nil _) (by simp)⟩
    (fun l s a t hs ht => ?_) h
  · exact hrun.1.halfClosesOnce_iff.trans hrun.2
  · obtain ⟨hinv,hheeds⟩ := hs
    obtain ⟨hnext,hstep⟩ := DevPoll.step_inv hinv ht
    refine ⟨hnext,?_⟩
    rw [hstep,hheeds,List.forall_mem_append,List.forall_mem_singleton]

/-- The end of file of `fp`, and next a result with the socket first, which has ended too. -/
theorem strCliPoll03_halfClosesOnce_last :
    let fds : CopyFds := ⟨0,3,by decide,by decide⟩
    let acts : List DevPollAct := [.register true true,.poll (some [3]) fun _ => true,
      .poll (some [0]) fun _ => true,.poll (some [3,0]) fun _ => true]
    let m := strCliPoll03 fds [] [.data 120 []]
    ∃ s, m.run m.init acts = some s ∧ s.pc = .returned ∧ DevPoll.HalfClosesOnce fds s := by
  intro fds acts m
  have hrun : (m.run m.init acts).map DevPoll.pc = some .returned := by decide +kernel
  obtain ⟨s,hs,hpc⟩ := Option.map_eq_some_iff.mp hrun
  have hlast : ∀ x ∈ m.trace m.init acts, x.1.LastResult fds x.2 := by decide +kernel
  exact ⟨s,hs,hpc,(strCliPoll03_halfClosesOnce_iff fds [] [.data 120 []] acts s hs).mpr hlast⟩

/-- `fp` is reported once more before the server answers the half-close. -/
theorem strCliPoll03_shuts_down_twice : ¬ ∀ (fds : CopyFds) (input peer : List Arrival)
    (s : DevPoll), (strCliPoll03 fds input peer).Reachable s → DevPoll.HalfClosesOnce fds s := by
  intro h
  let fds : CopyFds := ⟨0,3,by decide,by decide⟩
  let acts : List DevPollAct := [.register true true,.poll (some [0]) fun _ => true,
    .poll (some [0]) fun _ => true,.poll (some [3,0]) fun _ => true]
  let m := strCliPoll03 fds [] []
  have hrun : (m.run m.init acts).map (fun s => (s.pc,s.log.count (.shutdown 3))) =
      some (.returned,2) := by decide +kernel
  obtain ⟨s,hs,heq⟩ := Option.map_eq_some_iff.mp hrun
  obtain ⟨hret,hcount⟩ := Prod.mk.inj heq
  have hone : s.log.count (.shutdown 3) = 1 := (h fds [] [] s ⟨acts,hs⟩).shutdown hret
  omega

end UnixNet
