import Mathlib.Data.Finset.Basic
import UnixNet.Descriptor
import UnixNet.Library.Machine
set_option autoImplicit false

/-! The copy loop of `str_cli_select02`, and of the `str_cli` it was taken from. -/

namespace UnixNet

def STDOUT_FILENO : Int := 1

/-- `fileno(fp)` and the connected socket. -/
structure CopyFds where
  fp : Int
  sockfd : Int
  distinct : fp ≠ sockfd
  notStdout : sockfd ≠ STDOUT_FILENO

inductive CopyPc where
  | select | sockRead | sockWrite | fpRead | fpWrite | returned | quit
  deriving DecidableEq, Repr

/-- `buf` holds the `n` bytes of the last `Read`, whichever source it was from;
`fpRest` and `sockRest` are what the two sources will still deliver. -/
structure CopyState where
  pc : CopyPc
  stdineof : Bool
  rset : Finset Int
  buf : List Byte
  fpRest : List Byte
  sockRest : List Byte
  log : List Action
  deriving DecidableEq

inductive CopyAct where
  | select (ready : Finset Int) : CopyAct
  | read (n : Nat) : CopyAct
  | write : CopyAct
  | fail (e : Errno) : CopyAct

def CopyFds.testFp (fds : CopyFds) (rset : Finset Int) : CopyPc :=
  if fds.fp ∈ rset then .fpRead else .select

def CopyState.did (s : CopyState) (pc : CopyPc) (a : Action) : CopyState :=
  { s with pc, log := s.log ++ [a] }

def CopyFds.testSock (fds : CopyFds) (rset : Finset Int) : CopyPc :=
  if fds.sockfd ∈ rset then .sockRead else fds.testFp rset

/-- The set passed to `Select`. Outside the two `FD_SET`s it still holds what the
previous call returned. -/
def CopyState.watched (s : CopyState) (fds : CopyFds) : Finset Int :=
  insert fds.sockfd (if s.stdineof then s.rset else insert fds.fp s.rset)

def CopyState.readSock (s : CopyState) (fds : CopyFds) (n : Nat) : CopyState :=
  match s.sockRest.take n with
  | [] => s.did (if s.stdineof then .returned else .quit) (.read fds.sockfd .eof)
  | b :: bs => { s with buf := b :: bs, sockRest := s.sockRest.drop n }.did .sockWrite
      (.read fds.sockfd (.data (b :: bs)))

/-- At end of file: `stdineof = 1; Shutdown(sockfd, SHUT_WR); FD_CLR(fileno(fp), &rset);` -/
def CopyState.readFp (s : CopyState) (fds : CopyFds) (n : Nat) : CopyState :=
  match s.fpRest.take n with
  | [] => { s with pc := .select, stdineof := true, rset := s.rset.erase fds.fp,
                   log := s.log ++ [.read fds.fp .eof,.shutdown fds.sockfd] }
  | b :: bs => { s with buf := b :: bs, fpRest := s.fpRest.drop n }.did .fpWrite
      (.read fds.fp (.data (b :: bs)))

/-- One call of the loop, with what comes from the socket written to `out`. -/
def CopyState.step (fds : CopyFds) (out : Int) (s : CopyState) : CopyAct → Option CopyState
  | .select ready =>
    if s.pc = .select ∧ ready ⊆ s.watched fds ∧ ready ≠ ∅ then
      some { s with rset := ready, pc := fds.testSock ready }
    else none
  | .read n =>
    if 0 < n ∧ n ≤ MAXLINE then
      match s.pc with
      | .sockRead => some (s.readSock fds n)
      | .fpRead => some (s.readFp fds n)
      | _ => none
    else none
  | .write =>
    match s.pc with
    | .sockWrite => some (s.did (fds.testFp s.rset) (.write out s.buf))
    | .fpWrite => some (s.did .select (.write fds.sockfd s.buf))
    | _ => none
  | .fail e =>
    match s.pc with
    | .sockRead => some (s.did .quit (.read fds.sockfd (.fail e)))
    | .fpRead => some (s.did .quit (.read fds.fp (.fail e)))
    | _ => none

def copyLoop (fds : CopyFds) (out : Int) (input peer : List Byte) : Machine CopyState CopyAct :=
  ⟨⟨.select,false,∅,[],input,peer,[]⟩,CopyState.step fds out⟩

/-- `input` is all that `fp` holds and `peer` all that the other end sends. -/
def strCliSelect02 (fds : CopyFds) (input peer : List Byte) : Machine CopyState CopyAct :=
  copyLoop fds fds.fp input peer

/-- select/strcliselect02.c. -/
def strCli (fds : CopyFds) (input peer : List Byte) : Machine CopyState CopyAct :=
  copyLoop fds STDOUT_FILENO input peer

/-- The bytes in `buf` while the write at `pc` is still to come. -/
def CopyState.held (s : CopyState) (pc : CopyPc) : List Byte := if s.pc = pc then s.buf else []

/-- The one `SHUT_WR`, after the end of file on `fp` and after all of `input` was sent. -/
def HalfClosed (fds : CopyFds) (input : List Byte) (log : List Action) : Prop :=
  ∃ pre post, log = pre ++ .read fds.fp .eof :: .shutdown fds.sockfd :: post ∧
    sent fds.sockfd pre = input ∧ .shutdown fds.sockfd ∉ pre ∧ .shutdown fds.sockfd ∉ post

structure CopyMachine (fds : CopyFds) (input : List Byte) (s : CopyState) : Prop where
  toSocket : sent fds.sockfd s.log ++ s.held .fpWrite = received fds.fp s.log
  toStdout : sent STDOUT_FILENO s.log ++ s.held .sockWrite = received fds.sockfd s.log
  nowhereElse : ∀ fd bs, .write fd bs ∈ s.log → fd = fds.sockfd ∨ fd = STDOUT_FILENO
  shutdownOnce : .shutdown fds.sockfd ∉ s.log ∨ HalfClosed fds input s.log
  returns : s.pc = .returned → ∃ log, s.log = log ++ [.read fds.sockfd .eof] ∧
    HalfClosed fds input log

/-- Where the bytes are, when the bytes from the socket go to `out`. -/
structure CopyFlow (fds : CopyFds) (out : Int) (input peer : List Byte) (s : CopyState) :
    Prop where
  toSocket : sent fds.sockfd s.log ++ s.held .fpWrite = received fds.fp s.log
  toOut : sent out s.log ++ s.held .sockWrite = received fds.sockfd s.log
  targets : ∀ fd bs, .write fd bs ∈ s.log → fd = fds.sockfd ∨ fd = out ∧ bs ≠ []
  nonempty : s.pc = .sockWrite → s.buf ≠ []
  fpSplit : received fds.fp s.log ++ s.fpRest = input
  sockSplit : received fds.sockfd s.log ++ s.sockRest = peer

/-- How far the connection is closed. -/
structure CopyClose (fds : CopyFds) (input : List Byte) (s : CopyState) : Prop where
  openSide : s.stdineof = false → .shutdown fds.sockfd ∉ s.log
  fpGone : s.stdineof = true → fds.fp ∉ s.rset ∧ s.pc ≠ .fpRead
  halfClosed : s.stdineof = true → s.pc ≠ .returned → HalfClosed fds input s.log
  returns : s.pc = .returned → ∃ log, s.log = log ++ [.read fds.sockfd .eof] ∧
    HalfClosed fds input log

section
variable {fds : CopyFds} {out : Int} {input peer : List Byte}

/-- The calls the loop can make, each with its effect. -/
inductive CopyStep (fds : CopyFds) (out : Int) (s : CopyState) : CopyState → Prop where
  | select {ready : Finset Int} {pc : CopyPc} :
      s.pc = .select → ready ⊆ s.watched fds →
      (pc = .sockRead ∨ pc = fds.testFp ready) →
      CopyStep fds out s { s with rset := ready, pc }
  | sockEof : s.pc = .sockRead →
      CopyStep fds out s (s.did (if s.stdineof then .returned else .quit) (.read fds.sockfd .eof))
  | sockData {bs rest : List Byte} : s.pc = .sockRead → bs ≠ [] → s.sockRest = bs ++ rest →
      CopyStep fds out s
        ({ s with buf := bs, sockRest := rest }.did .sockWrite (.read fds.sockfd (.data bs)))
  | sockWrite : s.pc = .sockWrite →
      CopyStep fds out s (s.did (fds.testFp s.rset) (.write out s.buf))
  | fpEof : s.pc = .fpRead → s.fpRest = [] →
      CopyStep fds out s { s with
        pc := .select, stdineof := true, rset := s.rset.erase fds.fp,
        log := s.log ++ [.read fds.fp .eof,.shutdown fds.sockfd] }
  | fpData {bs rest : List Byte} : s.pc = .fpRead → bs ≠ [] → s.fpRest = bs ++ rest →
      CopyStep fds out s
        ({ s with buf := bs, fpRest := rest }.did .fpWrite (.read fds.fp (.data bs)))
  | fpWrite : s.pc = .fpWrite → CopyStep fds out s (s.did .select (.write fds.sockfd s.buf))
  | fail {fd : Int} {e : Errno} : s.pc = .sockRead ∨ s.pc = .fpRead →
      CopyStep fds out s (s.did .quit (.read fd (.fail e)))

theorem step_read {s : CopyState} {n : Nat} (hn : 0 < n) :
    (s.pc = .sockRead → CopyStep fds out s (s.readSock fds n)) ∧
      (s.pc = .fpRead → CopyStep fds out s (s.readFp fds n)) := by
  constructor
  · intro hpc
    have hsplit := List.take_append_drop n s.sockRest
    unfold CopyState.readSock
    split
    · exact .sockEof hpc
    · rename_i b bs htake
      exact .sockData hpc (by simp) (htake ▸ hsplit.symm)
  · intro hpc
    have hsplit := List.take_append_drop n s.fpRest
    unfold CopyState.readFp
    split
    · rename_i htake
      refine .fpEof hpc ?_
      cases hrest : s.fpRest with
      | nil => rfl
      | cons b bs =>
        obtain ⟨k,rfl⟩ := Nat.exists_eq_succ_of_ne_zero (by omega : n ≠ 0)
        simp [hrest] at htake
    · rename_i b bs htake
      exact .fpData hpc (by simp) (htake ▸ hsplit.symm)

theorem copyStep_of_step {s t : CopyState} {a : CopyAct} (h : s.step fds out a = some t) :
    CopyStep fds out s t := by
  cases a with
  | select ready =>
    simp only [CopyState.step] at h
    split at h
    · rename_i hpc
      cases h
      refine .select hpc.1 hpc.2.1 ?_
      unfold CopyFds.testSock
      split
      · exact .inl rfl
      · exact .inr rfl
    · cases h
  | read n =>
    simp only [CopyState.step] at h
    split at h
    · rename_i hn
      split at h
      · rename_i hpc
        cases h
        exact (step_read hn.1).1 hpc
      · rename_i hpc
        cases h
        exact (step_read hn.1).2 hpc
      · cases h
    · cases h
  | write =>
    simp only [CopyState.step] at h
    split at h
    · rename_i hpc
      cases h
      exact .sockWrite hpc
    · rename_i hpc
      cases h
      exact .fpWrite hpc
    · cases h
  | fail e =>
    simp only [CopyState.step] at h
    split at h
    · rename_i hpc
      cases h
      exact .fail (.inl hpc)
    · rename_i hpc
      cases h
      exact .fail (.inr hpc)
    · cases h

theorem HalfClosed.append {log more : List Action} (h : HalfClosed fds input log)
    (hmore : .shutdown fds.sockfd ∉ more) : HalfClosed fds input (log ++ more) := by
  obtain ⟨pre,post,rfl,hsent,hpre,hpost⟩ := h
  refine ⟨pre,post ++ more,by simp,hsent,hpre,?_⟩
  rw [List.mem_append]
  exact not_or.mpr ⟨hpost,hmore⟩

theorem testFp_cases (fds : CopyFds) (rset : Finset Int) :
    fds.testFp rset = .select ∨ fds.testFp rset = .fpRead ∧ fds.fp ∈ rset := by
  unfold CopyFds.testFp
  split
  · rename_i h
    exact .inr ⟨rfl,h⟩
  · exact .inl rfl

@[simp] theorem testFp_ne_write (fds : CopyFds) (rset : Finset Int) :
    fds.testFp rset ≠ .fpWrite ∧ fds.testFp rset ≠ .sockWrite ∧ fds.testFp rset ≠ .returned := by
  rcases testFp_cases fds rset with h | ⟨h,_⟩ <;> simp [h]

theorem flow_step (hout : out ≠ fds.sockfd) {s t : CopyState}
    (hs : CopyFlow fds out input peer s) (h : CopyStep fds out s t) :
    CopyFlow fds out input peer t := by
  obtain ⟨toSocket,toOut,targets,nonempty,fpSplit,sockSplit⟩ := hs
  have hne := fds.distinct
  have htest := testFp_ne_write fds s.rset
  simp only [CopyState.held] at toSocket toOut
  cases h with
  | @select ready pc hpc _ hnext =>
    have hw : pc ≠ .fpWrite ∧ pc ≠ .sockWrite := by
      rcases hnext with rfl | rfl
      · decide
      · exact ⟨(testFp_ne_write fds ready).1,(testFp_ne_write fds ready).2.1⟩
    simp only [hpc] at toSocket toOut
    exact ⟨by simpa [CopyState.held,hw] using toSocket,by simpa [CopyState.held,hw] using toOut,
      targets,fun h => absurd h hw.2,fpSplit,sockSplit⟩
  | sockEof hpc =>
    have hw : ∀ b : Bool, (if b then CopyPc.returned else .quit) ≠ .fpWrite ∧
        (if b then CopyPc.returned else .quit) ≠ .sockWrite := by decide
    simp only [hpc] at toSocket toOut
    exact ⟨by simpa [CopyState.held,CopyState.did,hw] using toSocket,
      by simpa [CopyState.held,CopyState.did,hw] using toOut,
      by simpa [CopyState.did] using targets,fun h => absurd h (hw _).2,
      by simpa [CopyState.did] using fpSplit,by simpa [CopyState.did] using sockSplit⟩
  | @sockData bs rest hpc hbs hrest =>
    simp only [hpc] at toSocket toOut
    exact ⟨by simpa [CopyState.held,CopyState.did,Ne.symm hne] using toSocket,
      by simpa [CopyState.held,CopyState.did] using toOut,
      by simpa [CopyState.did] using targets,fun _ => hbs,
      by simpa [CopyState.did,Ne.symm hne] using fpSplit,
      by simpa [CopyState.did,hrest] using sockSplit⟩
  | sockWrite hpc =>
    simp only [hpc] at toSocket toOut
    refine ⟨by simpa [CopyState.held,CopyState.did,htest,hout] using toSocket,
      by simpa [CopyState.held,CopyState.did,htest] using toOut,?_,
      fun h => absurd h htest.2.1,
      by simpa [CopyState.did] using fpSplit,by simpa [CopyState.did] using sockSplit⟩
    intro fd bs hmem
    rcases List.mem_append.mp hmem with hold | hnew
    · exact targets fd bs hold
    · obtain ⟨rfl,rfl⟩ := Action.write.inj (List.mem_singleton.mp hnew)
      exact .inr ⟨rfl,nonempty hpc⟩
  | fpEof hpc hrest =>
    simp only [hpc] at toSocket toOut
    exact ⟨by simpa [CopyState.held] using toSocket,by simpa [CopyState.held] using toOut,
      by simpa using targets,nofun,by simpa using fpSplit,by simpa using sockSplit⟩
  | @fpData bs rest hpc _ hrest =>
    simp only [hpc] at toSocket toOut
    exact ⟨by simpa [CopyState.held,CopyState.did] using toSocket,
      by simpa [CopyState.held,CopyState.did,hne] using toOut,
      by simpa [CopyState.did] using targets,nofun,
      by simpa [CopyState.did,hrest] using fpSplit,by simpa [CopyState.did,hne] using sockSplit⟩
  | fpWrite hpc =>
    simp only [hpc] at toSocket toOut
    refine ⟨by simpa [CopyState.held,CopyState.did] using toSocket,
      by simpa [CopyState.held,CopyState.did,Ne.symm hout] using toOut,?_,nofun,
      by simpa [CopyState.did] using fpSplit,by simpa [CopyState.did] using sockSplit⟩
    intro fd bs hmem
    rcases List.mem_append.mp hmem with hold | hnew
    · exact targets fd bs hold
    · exact .inl (Action.write.inj (List.mem_singleton.mp hnew)).1
  | fail hpc =>
    have hw : s.pc ≠ .fpWrite ∧ s.pc ≠ .sockWrite := by rcases hpc with h | h <;> simp [h]
    simp only [hw,if_false] at toSocket toOut
    exact ⟨by simpa [CopyState.held,CopyState.did] using toSocket,
      by simpa [CopyState.held,CopyState.did] using toOut,
      by simpa [CopyState.did] using targets,nofun,by simpa [CopyState.did] using fpSplit,
      by simpa [CopyState.did] using sockSplit⟩

/-- Any call but `Shutdown` leaves the connection as far closed as it was. -/
theorem close_did {s t : CopyState} (hs : CopyClose fds input s) {a : Action}
    (ha : a ≠ .shutdown fds.sockfd) (hlog : t.log = s.log ++ [a])
    (heof : t.stdineof = s.stdineof) (hrset : t.rset = s.rset) (hpc : s.pc ≠ .returned)
    (hfp : t.pc = .fpRead → fds.fp ∈ s.rset) (hret : t.pc ≠ .returned) :
    CopyClose fds input t := by
  refine ⟨?_,?_,?_,fun h => absurd h hret⟩
  · intro h
    simpa [hlog,Ne.symm ha] using hs.openSide (heof ▸ h)
  · intro h
    obtain ⟨hgone,_⟩ := hs.fpGone (heof ▸ h)
    exact ⟨hrset ▸ hgone,fun hread => hgone (hfp hread)⟩
  · intro h _
    rw [hlog]
    exact (hs.halfClosed (heof ▸ h) hpc).append (by simpa using Ne.symm ha)

/-- After its end of file `fp` is never selected again, so `SHUT_WR` is done once. -/
theorem close_step {s t : CopyState} (hflow : CopyFlow fds out input peer s)
    (hs : CopyClose fds input s) (h : CopyStep fds out s t) : CopyClose fds input t := by
  cases h with
  | @select ready pc hpc hready hnext =>
    have hpc' : pc ≠ .returned := by
      rcases hnext with rfl | rfl
      · decide
      · exact (testFp_ne_write fds ready).2.2
    refine ⟨hs.openSide,?_,fun heof _ => hs.halfClosed heof (by simp [hpc]),
      fun h => absurd h hpc'⟩
    intro heof
    have hgone : fds.fp ∉ ready := by
      intro hmem
      have hw := hready hmem
      rw [CopyState.watched,if_pos heof,Finset.mem_insert] at hw
      exact hw.elim fds.distinct (hs.fpGone heof).1
    refine ⟨hgone,?_⟩
    rcases hnext with rfl | rfl
    · simp
    · simp [CopyFds.testFp,hgone]
  | sockEof hpc =>
    cases heof : s.stdineof with
    | false => exact close_did hs (by simp) rfl rfl rfl (by simp [hpc]) nofun nofun
    | true =>
      refine ⟨fun h => absurd (heof.symm.trans h) (by decide),fun _ => ⟨?_,nofun⟩,
        fun _ h => absurd rfl h,fun _ => ⟨s.log,rfl,hs.halfClosed heof (by simp [hpc])⟩⟩
      exact (hs.fpGone heof).1
  | sockData hpc _ _ => exact close_did hs (by simp) rfl rfl rfl (by simp [hpc]) nofun nofun
  | sockWrite hpc =>
    refine close_did hs (by simp) rfl rfl rfl (by simp [hpc]) ?_ (testFp_ne_write fds s.rset).2.2
    intro hread
    rcases testFp_cases fds s.rset with h | ⟨_,hmem⟩
    · exact absurd (h.symm.trans hread) (by decide)
    · exact hmem
  | fpEof hpc hrest =>
    have hopen : s.stdineof = false := by
      cases heof : s.stdineof with
      | false => rfl
      | true => exact absurd hpc (hs.fpGone heof).2
    have hall : sent fds.sockfd s.log = input := by
      have hsent := hflow.toSocket
      have hsplit := hflow.fpSplit
      rw [CopyState.held,hpc,if_neg (by decide),List.append_nil] at hsent
      rwa [hrest,List.append_nil,← hsent] at hsplit
    refine ⟨nofun,fun _ => ⟨Finset.notMem_erase _ _,nofun⟩,fun _ _ => ?_,nofun⟩
    exact ⟨s.log,[],rfl,hall,hs.openSide hopen,List.not_mem_nil⟩
  | fpData hpc _ _ => exact close_did hs (by simp) rfl rfl rfl (by simp [hpc]) nofun nofun
  | fpWrite hpc => exact close_did hs (by simp) rfl rfl rfl (by simp [hpc]) nofun nofun
  | fail hpc =>
    have hret : s.pc ≠ .returned := by rcases hpc with h | h <;> simp [h]
    exact close_did hs (by simp) rfl rfl rfl hret nofun nofun

theorem flow_init : CopyFlow fds out input peer ⟨.select,false,∅,[],input,peer,[]⟩ :=
  ⟨rfl,rfl,fun _ _ h => absurd h List.not_mem_nil,nofun,rfl,rfl⟩

theorem close_init : CopyClose fds input ⟨.select,false,∅,[],input,peer,[]⟩ :=
  ⟨fun _ => List.not_mem_nil,nofun,nofun,nofun⟩

theorem copyLoop_inv (hout : out ≠ fds.sockfd) {s : CopyState}
    (h : (copyLoop fds out input peer).Reachable s) :
    CopyFlow fds out input peer s ∧ CopyClose fds input s := by
  refine h.invariant (I := fun s => CopyFlow fds out input peer s ∧ CopyClose fds input s)
    ⟨flow_init,close_init⟩ ?_
  intro s a t hs hstep
  have hcall := copyStep_of_step hstep
  exact ⟨flow_step hout hs.1 hcall,close_step hs.1 hs.2 hcall⟩

theorem CopyClose.shutdownOnce {s : CopyState} (hs : CopyClose fds input s) :
    .shutdown fds.sockfd ∉ s.log ∨ HalfClosed fds input s.log := by
  by_cases hpc : s.pc = .returned
  · obtain ⟨log,hlog,hhalf⟩ := hs.returns hpc
    rw [hlog]
    exact .inr (hhalf.append (by simp))
  · cases heof : s.stdineof with
    | false => exact .inl (hs.openSide heof)
    | true => exact .inr (hs.halfClosed heof hpc)

/-- With standard output as its target the loop is a copy machine. -/
theorem strCli_copyMachine {s : CopyState} (h : (strCli fds input peer).Reachable s) :
    CopyMachine fds input s := by
  obtain ⟨hflow,hclose⟩ := copyLoop_inv (Ne.symm fds.notStdout) h
  refine ⟨hflow.toSocket,hflow.toOut,?_,hclose.shutdownOnce,hclose.returns⟩
  intro fd bs hmem
  exact (hflow.targets fd bs hmem).imp_right And.left

theorem silent_peer {s : CopyState} (hs : CopyFlow fds out input [] s) :
    ∀ fd bs, .write fd bs ∈ s.log → fd = fds.sockfd := by
  intro fd bs hmem
  rcases hs.targets fd bs hmem with hfd | ⟨rfl,hbs⟩
  · exact hfd
  · have hnone : received fds.sockfd s.log = [] := (List.append_eq_nil_iff.mp hs.sockSplit).1
    have hsent : sent fd s.log = [] := (List.append_eq_nil_iff.mp (hs.toOut.trans hnone)).1
    have hzero := List.flatMap_eq_nil_iff.mp hsent _ hmem
    exact absurd (by simpa using hzero) hbs

theorem silent_copyMachine {s : CopyState} (h : (strCliSelect02 fds input []).Reachable s) :
    CopyMachine fds input s := by
  obtain ⟨hflow,hclose⟩ := copyLoop_inv fds.distinct h
  have honly := silent_peer hflow
  have hstdout : sent STDOUT_FILENO s.log = [] := by
    refine List.flatMap_eq_nil_iff.mpr fun a ha => ?_
    cases a with
    | write fd bs =>
      rw [honly fd bs ha]
      simp [fds.notStdout]
    | accept | read | close | shutdown => rfl
  have hnone : received fds.sockfd s.log = [] := (List.append_eq_nil_iff.mp hflow.sockSplit).1
  have hheld : s.held .sockWrite = [] := (List.append_eq_nil_iff.mp (hflow.toOut.trans hnone)).2
  exact ⟨hflow.toSocket,by rw [hstdout,hheld,hnone]; rfl,
    fun fd bs hmem => .inl (honly fd bs hmem),hclose.shutdownOnce,hclose.returns⟩

/-- The write at fault: `Write(fileno(fp), buf, n)` for a byte from the socket. -/
theorem misdirected_write (fds : CopyFds) (input : List Byte) (b : Byte) (rest : List Byte) :
    ∃ s, (strCliSelect02 fds input (b :: rest)).Reachable s ∧ .write fds.fp [b] ∈ s.log := by
  refine ⟨⟨fds.testFp {fds.sockfd},false,{fds.sockfd},[b],input,rest,
    [.read fds.sockfd (.data [b]),.write fds.fp [b]]⟩,
    ⟨[.select {fds.sockfd},.read 1,.write],?_⟩,by simp⟩
  simp [strCliSelect02,copyLoop,Machine.run,CopyState.step,CopyState.watched,CopyFds.testSock,
    MAXLINE,CopyState.readSock,CopyState.did]

/-- `str_cli_select02` is a copy machine only when `fp` is open on descriptor 1, or
as long as there is nothing to copy from the socket. -/
theorem strCliSelect02_iff (fds : CopyFds) (input peer : List Byte) :
    (∀ s, (strCliSelect02 fds input peer).Reachable s → CopyMachine fds input s) ↔
      fds.fp = STDOUT_FILENO ∨ peer = [] := by
  constructor
  · intro h
    cases peer with
    | nil => exact .inr rfl
    | cons b rest =>
      obtain ⟨s,hs,hmem⟩ := misdirected_write fds input b rest
      exact .inl (((h s hs).nowhereElse _ _ hmem).resolve_left fds.distinct)
  · rintro (hfp | rfl) s hs
    · rw [strCliSelect02,hfp] at hs
      exact strCli_copyMachine hs
    · exact silent_copyMachine hs

/-- `fp` is standard input, the socket is descriptor 3 and the peer sends "x". -/
theorem strCliSelect02_misdirects : ¬ ∀ (fds : CopyFds) (input peer : List Byte) (s : CopyState),
    (strCliSelect02 fds input peer).Reachable s → CopyMachine fds input s := by
  intro h
  obtain ⟨s,hs,hmem⟩ := misdirected_write ⟨0,3,by decide,by decide⟩ [] 120 []
  have hto := (h _ [] [120] s hs).nowhereElse 0 [120] hmem
  revert hto
  decide

end

end UnixNet
