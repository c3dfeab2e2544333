import UnixNet.EventLoop
import UnixNet.Library.Fallible
import UnixNet.Library.Family
import UnixNet.Library.Machine
set_option autoImplicit false

/-! The web client with non-blocking connects: `main`, `start_connect` and `write_get_cmd`. -/

namespace UnixNet
open Fallible

def MAXFILES : Nat := 20

def F_CONNECTING : Nat := 1
def F_READING : Nat := 2
def F_DONE : Nat := 4

structure WebFile where
  f_fd : Int
  f_flags : Nat
  deriving DecidableEq, Repr

/-- `outer` and `inner` are the tests of the two loops, `connect i` the call of `start_connect`,
and `sweep i` the loop over the files after Select has left `rs` and `ws`. -/
inductive WebPc where
  | outer : WebPc
  | inner : WebPc
  | connect (i : Nat) : WebPc
  | select : WebPc
  | sweep (i : Nat) (rs ws : Finset Int) : WebPc
  | finished : WebPc
  | stopped (e : Exit) : WebPc
  deriving DecidableEq

/-- `fds` are the sockets that the kernel holds open for the client. -/
structure WebClient where
  pc : WebPc
  files : List WebFile
  nconn : Int
  nlefttoconn : Int
  nlefttoread : Int
  maxfd : Int
  rset : Finset Int
  wset : Finset Int
  fds : Finset Int

inductive ConnectResult where
  | done : ConnectResult
  | inProgress : ConnectResult
  | fail (e : Errno) : ConnectResult
  deriving DecidableEq, Repr

/-- What the calls of `start_connect` give; `socket` is `none` when `Socket` fails. -/
structure ConnectAnswers where
  hostServ : Bool
  socket : Option Int
  fcntl : Bool
  connect : ConnectResult
  writen : Bool
  deriving DecidableEq, Repr

/-- What the calls for one file after Select give. The result of `getsockopt` is only printed. -/
structure FileAnswers where
  read : ReadResult
  writen : Bool
  close : Bool
  deriving DecidableEq, Repr

/-- The client goes on; `start_connect` runs; Select fails or returns its two sets; the loop
after Select handles a file. -/
inductive WebAct where
  | main : WebAct
  | startConnect (ans : ConnectAnswers) : WebAct
  | select (ready : Option (Finset Int × Finset Int)) : WebAct
  | file (ans : FileAnswers) : WebAct

namespace WebClient

def nothingFound : Exit := .errQuit "nlefttoconn = %d but nothing found"

/-- `FD_SET(fd,&set)`, which checks no bound. -/
def fdSet (fd : Int) (set : Finset Int) : Except Exit (Finset Int) :=
  if fd < FD_SETSIZE then .ok (insert fd set) else .error .undefined

def writeGetCmd (s : WebClient) (i : Nat) (f : WebFile) (writen : Bool) : Except Exit WebClient :=
  if writen = false then .error (.errSys "writen error")
  else
    (fdSet f.f_fd s.rset).bind fun rset =>
      .ok { s with
        files := s.files.set i { f with f_flags := F_READING }
        rset := rset
        maxfd := if f.f_fd > s.maxfd then f.f_fd else s.maxfd }

def startConnect (s : WebClient) (i : Nat) (ans : ConnectAnswers) : Except Exit WebClient :=
  if ans.hostServ = false then .error (.errQuit "host_serv error for %s, %s: %s")
  else
    match ans.socket with
    | none => .error (.errSys "socket error")
    | some fd =>
      if ans.fcntl = false then .error (.errSys "fcntl error")
      else
        let s := { s with fds := insert fd s.fds }
        match ans.connect with
        | .fail _ => .error (.errSys "nonblocking connect error")
        | .inProgress =>
          (fdSet fd s.rset).bind fun rset =>
            (fdSet fd s.wset).bind fun wset =>
              .ok { s with
                files := s.files.set i ⟨fd,F_CONNECTING⟩
                rset := rset
                wset := wset
                maxfd := if fd > s.maxfd then fd else s.maxfd }
        | .done => s.writeGetCmd i ⟨fd,0⟩ ans.writen

/-- The body of the loop over the files. -/
def handle (s : WebClient) (i : Nat) (f : WebFile) (rs ws : Finset Int) (ans : FileAnswers) :
    Except Exit WebClient :=
  if f.f_flags = 0 ∨ f.f_flags &&& F_DONE ≠ 0 then .ok s
  else if f.f_flags &&& F_CONNECTING ≠ 0 ∧ (f.f_fd ∈ rs ∨ f.f_fd ∈ ws) then
    { s with wset := s.wset.erase f.f_fd }.writeGetCmd i f ans.writen
  else if f.f_flags &&& F_READING ≠ 0 ∧ f.f_fd ∈ rs then
    match ans.read with
    | .data _ => .ok s
    | .fail _ => .error (.errSys "read error")
    | .eof =>
      if ans.close = false then .error (.errSys "close error")
      else
        .ok { s with
          files := s.files.set i { f with f_flags := F_DONE }
          rset := s.rset.erase f.f_fd
          fds := s.fds.erase f.f_fd
          nconn := s.nconn - 1
          nlefttoread := s.nlefttoread - 1 }
  else .ok s

/-- The tests of the loops, and the search for a file to read. -/
def control (maxnconn : Int) (s : WebClient) : Option WebClient :=
  match s.pc with
  | .outer => some { s with pc := if s.nlefttoread > 0 then .inner else .finished }
  | .inner =>
    if s.nconn < maxnconn ∧ s.nlefttoconn > 0 then
      let i := s.files.findIdx fun f => f.f_flags = 0
      some { s with pc := if i = s.files.length then .stopped nothingFound else .connect i }
    else some { s with pc := .select }
  | _ => none

def stop (s : WebClient) (e : Exit) : WebClient := { s with pc := .stopped e }

def step (maxnconn : Int) (s : WebClient) : WebAct → Option WebClient
  | .main => s.control maxnconn
  | .startConnect ans =>
    match s.pc with
    | .connect i =>
      -- Socket gives a descriptor that is not open yet.
      if ∀ fd ∈ ans.socket, 0 ≤ fd ∧ fd ∉ s.fds then
        match s.startConnect i ans with
        | .error e => some (s.stop e)
        | .ok t => some { t with
            pc := .inner, nconn := t.nconn + 1, nlefttoconn := t.nlefttoconn - 1 }
      else none
    | _ => none
  | .select ready =>
    match s.pc, ready with
    | .select, none => some (s.stop (.errSys "select error"))
    | .select, some (rs,ws) =>
      if rs ⊆ s.rset ∧ ws ⊆ s.wset then some { s with pc := .sweep 0 rs ws } else none
    | _, _ => none
  | .file ans =>
    match s.pc with
    | .sweep i rs ws =>
      match s.files[i]? with
      | none => some { s with pc := .outer }
      | some f =>
        match s.handle i f rs ws ans with
        | .error e => some (s.stop e)
        | .ok t => some { t with pc := .sweep (i + 1) rs ws }
    | _ => none

end WebClient

/-- The client after `home_page`, called with `n` files. -/
def nonblockWeb (n : Nat) (maxnconn : Int) : Machine WebClient WebAct :=
  let nfiles := min n MAXFILES
  ⟨⟨.outer,List.replicate nfiles ⟨0,0⟩,0,nfiles,nfiles,-1,∅,∅,∅⟩,WebClient.step maxnconn⟩

def WebFile.Connecting (f : WebFile) : Prop := f.f_flags = F_CONNECTING

/-- The file is connecting or reading. -/
def WebFile.Active (f : WebFile) : Prop := f.f_flags = F_CONNECTING ∨ f.f_flags = F_READING

instance WebFile.decidableActive (f : WebFile) : Decidable f.Active :=
  inferInstanceAs (Decidable (_ ∨ _))

namespace WebClient

/-- The counters, the descriptor sets and the files agree. -/
structure Inv (maxnconn : Int) (s : WebClient) : Prop where
  flags : ∀ f ∈ s.files, f.f_flags = 0 ∨ f.Active ∨ f.f_flags = F_DONE
  nlefttoconn : s.nlefttoconn = s.files.countP fun f => f.f_flags = 0
  nconn : s.nconn = s.files.countP fun f => f.Active
  nlefttoread : s.nlefttoread = s.files.countP fun f => f.f_flags ≠ F_DONE
  rset : Family.Keyed WebFile.Active WebFile.f_fd s.files s.rset
  wset : Family.Keyed WebFile.Connecting WebFile.f_fd s.files s.wset
  fds : s.fds = s.rset
  bound : ∀ fd ∈ s.rset, 0 ≤ fd ∧ fd < FD_SETSIZE ∧ fd ≤ s.maxfd
  limit : s.nconn ≤ maxnconn

/-- What holds at the program point beside the invariant. -/
def Ready (maxnconn : Int) (s : WebClient) : Prop :=
  match s.pc with
  | .connect i => s.nconn < maxnconn ∧ ∃ f, s.files[i]? = some f ∧ f.f_flags = 0
  | .stopped _ => False
  | _ => True

variable {s t : WebClient} {maxnconn : Int} {i : Nat} {f : WebFile}

theorem fdSet_ok {fd : Int} {set set' : Finset Int} (h : fdSet fd set = .ok set') :
    fd < FD_SETSIZE ∧ set' = insert fd set := by
  unfold fdSet at h
  split at h <;> cases h
  exact ⟨‹_›,rfl⟩

theorem fdSet_error {fd : Int} {set : Finset Int} {e : Exit} (h : fdSet fd set = .error e) :
    e ≠ nothingFound := by
  unfold fdSet at h
  split at h <;> cases h
  decide

theorem writeGetCmd_ok {writen : Bool} (h : s.writeGetCmd i f writen = .ok t) :
    f.f_fd < FD_SETSIZE ∧ t = { s with
      files := s.files.set i { f with f_flags := F_READING }
      rset := insert f.f_fd s.rset
      maxfd := if f.f_fd > s.maxfd then f.f_fd else s.maxfd } := by
  unfold writeGetCmd at h
  split at h
  · cases h
  · obtain ⟨rset,hset,h⟩ := bind_ok h
    obtain ⟨hlt,rfl⟩ := fdSet_ok hset
    cases h
    exact ⟨hlt,rfl⟩

theorem writeGetCmd_error {writen : Bool} {e : Exit} (h : s.writeGetCmd i f writen = .error e) :
    e ≠ nothingFound := by
  unfold writeGetCmd at h
  split at h
  · cases h
    decide
  · rcases bind_error h with hset | ⟨rset,h⟩
    · exact fdSet_error hset
    · cases h

/-- `start_connect` leaves the file connecting or reading on a descriptor that fits. -/
theorem startConnect_ok {ans : ConnectAnswers} (h : s.startConnect i ans = .ok t) :
    ∃ fd, ans.socket = some fd ∧ fd < FD_SETSIZE ∧ ∃ flags wset,
      (flags = F_CONNECTING ∧ wset = insert fd s.wset ∨ flags = F_READING ∧ wset = s.wset) ∧
      t = { s with
        files := s.files.set i ⟨fd,flags⟩
        rset := insert fd s.rset
        wset := wset
        fds := insert fd s.fds
        maxfd := if fd > s.maxfd then fd else s.maxfd } := by
  unfold startConnect at h
  split at h
  · cases h
  · split at h
    · cases h
    · rename_i fd hsocket
      refine ⟨fd,hsocket,?_⟩
      split at h
      · cases h
      · simp only at h
        split at h
        · cases h
        · obtain ⟨rset,hr,h⟩ := bind_ok h
          obtain ⟨wset,hw,h⟩ := bind_ok h
          obtain ⟨hlt,rfl⟩ := fdSet_ok hr
          obtain ⟨-,rfl⟩ := fdSet_ok hw
          cases h
          exact ⟨hlt,_,_,.inl ⟨rfl,rfl⟩,rfl⟩
        · obtain ⟨hlt,rfl⟩ := writeGetCmd_ok h
          exact ⟨hlt,_,_,.inr ⟨rfl,rfl⟩,rfl⟩

theorem startConnect_error {ans : ConnectAnswers} {e : Exit} (h : s.startConnect i ans = .error e) :
    e ≠ nothingFound := by
  unfold startConnect at h
  split at h
  · cases h
    decide
  · split at h
    · cases h
      decide
    · split at h
      · cases h
        decide
      · simp only at h
        split at h
        · cases h
          decide
        · rcases bind_error h with hr | ⟨rset,h⟩
          · exact fdSet_error hr
          · rcases bind_error h with hw | ⟨wset,h⟩
            · exact fdSet_error hw
            · cases h
        · exact writeGetCmd_error h

theorem handle_ok {rs ws : Finset Int} {ans : FileAnswers}
    (hflags : f.f_flags = 0 ∨ f.Active ∨ f.f_flags = F_DONE)
    (h : s.handle i f rs ws ans = .ok t) :
    t = s ∨
    (f.f_flags = F_CONNECTING ∧ t = { s with
      files := s.files.set i { f with f_flags := F_READING }
      rset := insert f.f_fd s.rset
      wset := s.wset.erase f.f_fd
      maxfd := if f.f_fd > s.maxfd then f.f_fd else s.maxfd }) ∨
    (f.f_flags = F_READING ∧ t = { s with
      files := s.files.set i { f with f_flags := F_DONE }
      rset := s.rset.erase f.f_fd
      fds := s.fds.erase f.f_fd
      nconn := s.nconn - 1
      nlefttoread := s.nlefttoread - 1 }) := by
  unfold handle at h
  split at h
  · cases h
    exact .inl rfl
  · rename_i hskip
    have hactive : f.Active := by
      rcases hflags with hzero | hactive | hdone
      · exact absurd (.inl hzero) hskip
      · exact hactive
      · exact absurd (.inr (by rw [hdone]; decide)) hskip
    split at h
    · rename_i hready
      refine .inr (.inl ⟨hactive.resolve_right fun hr => ?_,?_⟩)
      · rw [hr] at hready
        exact hready.1 rfl
      · exact (writeGetCmd_ok h).2
    · split at h
      · rename_i hready
        split at h
        · cases h
          exact .inl rfl
        · cases h
        · split at h
          · cases h
          · cases h
            refine .inr (.inr ⟨hactive.resolve_left fun hc => ?_,rfl⟩)
            rw [hc] at hready
            exact hready.1 rfl
      · cases h
        exact .inl rfl

theorem handle_error {rs ws : Finset Int} {ans : FileAnswers} {e : Exit}
    (h : s.handle i f rs ws ans = .error e) : e ≠ nothingFound := by
  unfold handle at h
  split at h
  · cases h
  · split at h
    · exact writeGetCmd_error h
    · split at h
      · split at h
        · cases h
        · cases h
          decide
        · split at h <;> cases h
          decide
      · cases h

theorem maxfd_eq (fd maxfd : Int) : (if fd > maxfd then fd else maxfd) = max maxfd fd := by
  split <;> omega

/-- A file without a connection gets one on a new descriptor. -/
theorem connected_inv {fd : Int} {flags : Nat} {wset : Finset Int} (h : Inv maxnconn s)
    (hlt : s.nconn < maxnconn) (hi : s.files[i]? = some f) (hf : f.f_flags = 0) (h0 : 0 ≤ fd)
    (hnew : fd ∉ s.fds) (hsize : fd < FD_SETSIZE)
    (hnext : flags = F_CONNECTING ∧ wset = insert fd s.wset ∨ flags = F_READING ∧ wset = s.wset)
    (pc : WebPc) : Inv maxnconn { s with
      pc := pc
      files := s.files.set i ⟨fd,flags⟩
      nconn := s.nconn + 1
      nlefttoconn := s.nlefttoconn - 1
      rset := insert fd s.rset
      wset := wset
      fds := insert fd s.fds
      maxfd := if fd > s.maxfd then fd else s.maxfd } := by
  have hold : ¬ f.Active := by rw [WebFile.Active,hf]; decide
  have hactive : WebFile.Active ⟨fd,flags⟩ := hnext.imp And.left And.left
  have hzero : flags ≠ 0 := by rcases hnext with ⟨rfl,-⟩ | ⟨rfl,-⟩ <;> decide
  have hdone : flags ≠ F_DONE := by rcases hnext with ⟨rfl,-⟩ | ⟨rfl,-⟩ <;> decide
  rw [h.fds] at hnew
  have hleft : f.f_flags ≠ F_DONE := by rw [hf]; decide
  refine ⟨Family.forall_set h.flags (.inr (.inl hactive)),?_,?_,?_,
    h.rset.insert hi hold hactive hnew,?_,?_,?_,?_⟩
  · have hcount := Family.countP_loss (p := fun f => decide (f.f_flags = 0)) (y := ⟨fd,flags⟩) hi
      (decide_eq_true hf) (decide_eq_false hzero)
    have := h.nlefttoconn
    simp only
    omega
  · have hcount := Family.countP_gain (p := fun f => decide f.Active) (y := ⟨fd,flags⟩) hi
      (decide_eq_false hold) (decide_eq_true hactive)
    have := h.nconn
    simp only
    omega
  · simp only
    rw [Family.countP_same hi ((decide_eq_true hdone).trans (decide_eq_true hleft).symm)]
    exact h.nlefttoread
  · have hidle : ¬ f.Connecting := fun hc => hold (.inl hc)
    rcases hnext with ⟨rfl,rfl⟩ | ⟨rfl,rfl⟩
    · refine h.wset.insert hi hidle rfl fun hfd => hnew ?_
      obtain ⟨j,g,hj,hg,rfl⟩ := (h.wset.mem fd).mp hfd
      exact (h.rset.mem _).mpr ⟨j,g,hj,.inl hg,rfl⟩
    · refine h.wset.keep hi ⟨fun hc => ?_,fun hc => absurd hc hidle⟩ fun hc => absurd hc hidle
      exact absurd hc (by simp [WebFile.Connecting,F_READING,F_CONNECTING])
  · simp only [h.fds]
  · simp only [maxfd_eq]
    exact bound_insert h.bound h0 hsize
  · simp only
    omega

/-- A connection is established later: the file goes on to read on the same descriptor. -/
theorem established_inv (h : Inv maxnconn s) (hi : s.files[i]? = some f)
    (hf : f.f_flags = F_CONNECTING) (pc : WebPc) : Inv maxnconn { s with
      pc := pc
      files := s.files.set i { f with f_flags := F_READING }
      rset := insert f.f_fd s.rset
      wset := s.wset.erase f.f_fd
      maxfd := if f.f_fd > s.maxfd then f.f_fd else s.maxfd } := by
  have hold : f.Active := .inl hf
  have hnew : WebFile.Active { f with f_flags := F_READING } := .inr rfl
  have hmem : f.f_fd ∈ s.rset := (h.rset.mem _).mpr ⟨i,f,hi,hold,rfl⟩
  have hne : f.f_flags ≠ F_DONE := by rw [hf]; decide
  have hzero : f.f_flags ≠ 0 := by rw [hf]; decide
  have hle := (h.bound _ hmem).2.2
  simp only [Finset.insert_eq_of_mem hmem,if_neg (show ¬ f.f_fd > s.maxfd by omega)]
  refine ⟨Family.forall_set h.flags (.inr (.inl hnew)),?_,?_,?_,?_,?_,h.fds,h.bound,h.limit⟩
  · simp only
    rw [Family.countP_same hi ((decide_eq_false (show ¬ F_READING = 0 by decide)).trans
      (decide_eq_false hzero).symm)]
    exact h.nlefttoconn
  · simp only
    rw [Family.countP_same hi ((decide_eq_true hnew).trans (decide_eq_true hold).symm)]
    exact h.nconn
  · simp only
    rw [Family.countP_same hi ((decide_eq_true (show F_READING ≠ F_DONE by decide)).trans
      (decide_eq_true hne).symm)]
    exact h.nlefttoread
  · exact h.rset.keep hi ⟨fun _ => hold,fun _ => hnew⟩ fun _ => rfl
  · exact h.wset.erase hi hf (by simp [WebFile.Connecting,F_READING,F_CONNECTING])

/-- End of file: the descriptor is closed and the file is done. -/
theorem closed_inv (h : Inv maxnconn s) (hi : s.files[i]? = some f)
    (hf : f.f_flags = F_READING) (pc : WebPc) : Inv maxnconn { s with
      pc := pc
      files := s.files.set i { f with f_flags := F_DONE }
      rset := s.rset.erase f.f_fd
      fds := s.fds.erase f.f_fd
      nconn := s.nconn - 1
      nlefttoread := s.nlefttoread - 1 } := by
  have hold : f.Active := .inr hf
  have hnew : ¬ WebFile.Active { f with f_flags := F_DONE } := by
    simp [WebFile.Active,F_DONE,F_CONNECTING,F_READING]
  have hne : f.f_flags ≠ F_DONE := by rw [hf]; decide
  have hzero : f.f_flags ≠ 0 := by rw [hf]; decide
  have hread : ¬ f.Connecting := by simp [WebFile.Connecting,hf,F_CONNECTING,F_READING]
  have hdone : ¬ WebFile.Connecting { f with f_flags := F_DONE } := fun hc => hnew (.inl hc)
  refine ⟨Family.forall_set h.flags (.inr (.inr rfl)),?_,?_,?_,h.rset.erase hi hold hnew,
    h.wset.keep hi ⟨fun hc => absurd hc hdone,fun hc => absurd hc hread⟩ fun _ => rfl,
    by rw [h.fds],fun fd hfd => h.bound fd (Finset.mem_of_mem_erase hfd),?_⟩
  · simp only
    rw [Family.countP_same hi ((decide_eq_false (show ¬ F_DONE = 0 by decide)).trans
      (decide_eq_false hzero).symm)]
    exact h.nlefttoconn
  · have hcount := Family.countP_loss (p := fun f => decide f.Active)
      (y := { f with f_flags := F_DONE }) hi (decide_eq_true hold) (decide_eq_false hnew)
    have := h.nconn
    simp only
    omega
  · have hcount := Family.countP_loss (p := fun f => decide (f.f_flags ≠ F_DONE))
      (y := { f with f_flags := F_DONE }) hi (decide_eq_true hne) (decide_eq_false (by simp))
    have := h.nlefttoread
    simp only
    omega
  · have := h.limit
    simp only
    omega

theorem Inv.goto (h : Inv maxnconn s) (pc : WebPc) : Inv maxnconn { s with pc := pc } :=
  ⟨h.flags,h.nlefttoconn,h.nconn,h.nlefttoread,h.rset,h.wset,h.fds,h.bound,h.limit⟩

/-- The client has ended for another reason than "nothing found", or all is in order. -/
def Good (maxnconn : Int) (s : WebClient) : Prop :=
  (∃ e, s.pc = .stopped e ∧ e ≠ nothingFound) ∨ Inv maxnconn s ∧ s.Ready maxnconn

theorem init_good (n : Nat) (hconn : 1 ≤ maxnconn) :
    Good maxnconn (nonblockWeb n maxnconn).init := by
  have hzero : ∀ f ∈ List.replicate (min n MAXFILES) (⟨0,0⟩ : WebFile), f.f_flags = 0 :=
    fun f hf => by rw [(List.mem_replicate.mp hf).2]
  refine .inr ⟨⟨fun f hf => .inl (hzero f hf),?_,?_,?_,?_,?_,rfl,by simp [nonblockWeb],?_⟩,trivial⟩
  · simp [nonblockWeb,List.countP_replicate]
  · simp [nonblockWeb,List.countP_replicate,WebFile.Active,F_CONNECTING,F_READING]
  · simp [nonblockWeb,List.countP_replicate,F_DONE]
  · refine Family.keyed_empty fun f hf => ?_
    simp [WebFile.Active,hzero f hf,F_CONNECTING,F_READING]
  · refine Family.keyed_empty fun f hf => ?_
    simp [WebFile.Connecting,hzero f hf,F_CONNECTING]
  · simp only [nonblockWeb]
    omega

theorem control_good (h : Inv maxnconn s) (ht : s.control maxnconn = some t) :
    Good maxnconn t := by
  unfold control at ht
  split at ht
  · cases ht
    split
    · exact .inr ⟨h.goto _,trivial⟩
    · exact .inr ⟨h.goto _,trivial⟩
  · split at ht
    · rename_i hmore
      have hcount := h.nlefttoconn
      obtain ⟨f,hf,hzero⟩ := List.countP_pos_iff.mp
        (show 0 < s.files.countP fun f => f.f_flags = 0 by omega)
      have hlt : (s.files.findIdx fun f => f.f_flags = 0) < s.files.length :=
        List.findIdx_lt_length_of_exists ⟨f,hf,hzero⟩
      have hfound := List.findIdx_getElem (w := hlt)
      simp only [if_neg (Nat.ne_of_lt hlt)] at ht
      cases ht
      exact .inr ⟨h.goto _,hmore.1,_,List.getElem?_eq_getElem hlt,of_decide_eq_true hfound⟩
    · cases ht
      exact .inr ⟨h.goto _,trivial⟩
  · cases ht

/-- What a step can do: the client goes on with its loops, a file is connected or handled, or
one of the calls ends the client. -/
inductive Moves (maxnconn : Int) (s : WebClient) : WebAct → WebClient → Prop where
  | control {t : WebClient} : s.control maxnconn = some t → Moves maxnconn s .main t
  | connected {i : Nat} {ans : ConnectAnswers} {u : WebClient} : s.pc = .connect i →
      (∀ fd ∈ ans.socket, 0 ≤ fd ∧ fd ∉ s.fds) → s.startConnect i ans = .ok u →
      Moves maxnconn s (.startConnect ans) { u with
        pc := .inner, nconn := u.nconn + 1, nlefttoconn := u.nlefttoconn - 1 }
  | selected {rs ws : Finset Int} :
      Moves maxnconn s (.select (some (rs,ws))) { s with pc := .sweep 0 rs ws }
  | swept {ans : FileAnswers} : Moves maxnconn s (.file ans) { s with pc := .outer }
  | handled {i : Nat} {rs ws : Finset Int} {f : WebFile} {ans : FileAnswers} {u : WebClient} :
      s.pc = .sweep i rs ws → s.files[i]? = some f → s.handle i f rs ws ans = .ok u →
      Moves maxnconn s (.file ans) { u with pc := .sweep (i + 1) rs ws }
  | ends {a : WebAct} {e : Exit} : e ≠ nothingFound → Moves maxnconn s a (s.stop e)

theorem step_moves {a : WebAct} (ht : s.step maxnconn a = some t) : Moves maxnconn s a t := by
  cases a with
  | main => exact .control ht
  | startConnect ans =>
    simp only [step] at ht
    split at ht
    · rename_i i hpc
      obtain ⟨hfresh,ht⟩ := Option.ite_none_right_eq_some.mp ht
      split at ht
      · rename_i e he
        cases ht
        exact .ends (startConnect_error he)
      · rename_i u hu
        cases ht
        exact .connected hpc hfresh hu
    · cases ht
  | select ready =>
    simp only [step] at ht
    split at ht
    · cases ht
      exact .ends (by decide)
    · obtain ⟨-,ht⟩ := Option.ite_none_right_eq_some.mp ht
      cases ht
      exact .selected
    · cases ht
  | file ans =>
    simp only [step] at ht
    split at ht
    · rename_i i rs ws hpc
      split at ht
      · cases ht
        exact .swept
      · rename_i f hi
        split at ht
        · rename_i e he
          cases ht
          exact .ends (handle_error he)
        · rename_i u hu
          cases ht
          exact .handled hpc hi hu
    · cases ht

theorem step_good {a : WebAct} (h : Inv maxnconn s) (hready : s.Ready maxnconn)
    (ht : s.step maxnconn a = some t) : Good maxnconn t := by
  cases step_moves ht with
  | control ht => exact control_good h ht
  | @connected i ans u hpc hfresh hu =>
    simp only [Ready,hpc] at hready
    obtain ⟨hlt,f,hi,hf⟩ := hready
    obtain ⟨fd,hsocket,hsize,flags,wset,hnext,rfl⟩ := startConnect_ok hu
    obtain ⟨h0,hnew⟩ := hfresh fd hsocket
    exact .inr ⟨connected_inv h hlt hi hf h0 hnew hsize hnext .inner,trivial⟩
  | selected => exact .inr ⟨h.goto _,trivial⟩
  | swept => exact .inr ⟨h.goto _,trivial⟩
  | @handled i rs ws f ans u hpc hi hu =>
    rcases handle_ok (h.flags f (List.mem_of_getElem? hi)) hu with rfl | ⟨hf,rfl⟩ | ⟨hf,rfl⟩
    · exact .inr ⟨h.goto _,trivial⟩
    · exact .inr ⟨established_inv h hi hf _,trivial⟩
    · exact .inr ⟨closed_inv h hi hf _,trivial⟩
  | ends he => exact .inl ⟨_,rfl,he⟩

theorem stopped_stays {a : WebAct} {e : Exit} (h : s.pc = .stopped e) :
    s.step maxnconn a = none := by
  cases a <;> simp [step,control,h]

theorem reachable_good {n : Nat} (hconn : 1 ≤ maxnconn)
    (h : (nonblockWeb n maxnconn).Reachable s) : Good maxnconn s := by
  refine h.invariant (init_good n hconn) fun s a t hs ht => ?_
  rcases hs with ⟨e,he,-⟩ | ⟨hinv,hready⟩
  · exact absurd ht (by simp [nonblockWeb,stopped_stays he])
  · exact step_good hinv hready ht

/-- What holds at the top of the outer loop. -/
structure Sound (maxnconn : Int) (s : WebClient) : Prop where
  flags : ∀ f ∈ s.files, f.f_flags = 0 ∨ f.Active ∨ f.f_flags = F_DONE
  nlefttoconn : s.nlefttoconn = s.files.countP fun f => f.f_flags = 0
  nconn : s.nconn = s.files.countP fun f => f.Active
  limit : s.nconn ≤ maxnconn
  nlefttoread : s.nlefttoread = s.files.countP fun f => f.f_flags ≠ F_DONE
  rset : ∀ fd, fd ∈ s.rset ↔ ∃ f ∈ s.files, f.Active ∧ f.f_fd = fd
  wset : ∀ fd, fd ∈ s.wset ↔ ∃ f ∈ s.files, f.Connecting ∧ f.f_fd = fd
  maxfd : ∀ f ∈ s.files, f.Active → f.f_fd ≤ s.maxfd
  distinct : ∀ (i j : Nat) (f g : WebFile), s.files[i]? = some f → s.files[j]? = some g →
    f.Active → g.Active → f.f_fd = g.f_fd → i = j

theorem keyed_mem {p : WebFile → Prop} {files : List WebFile} {set : Finset Int}
    (h : Family.Keyed p WebFile.f_fd files set) (fd : Int) :
    fd ∈ set ↔ ∃ f ∈ files, p f ∧ f.f_fd = fd := by
  rw [h.mem]
  constructor
  · rintro ⟨j,f,hj,hf⟩
    exact ⟨f,List.mem_of_getElem? hj,hf⟩
  · rintro ⟨f,hmem,hf⟩
    obtain ⟨j,hj⟩ := List.mem_iff_getElem?.mp hmem
    exact ⟨j,f,hj,hf⟩

theorem Inv.sound (h : Inv maxnconn s) : s.Sound maxnconn :=
  ⟨h.flags,h.nlefttoconn,h.nconn,h.limit,h.nlefttoread,keyed_mem h.rset,keyed_mem h.wset,
    fun f hf hactive => (h.bound _ ((keyed_mem h.rset _).mpr ⟨f,hf,hactive,rfl⟩)).2.2,
    fun i j f _ hi hj hf hg heq => h.rset.inj i j f.f_fd ⟨f,hi,hf,rfl⟩ ⟨_,hj,hg,heq.symm⟩⟩

end WebClient

theorem nonblockWeb_sound (n : Nat) (maxnconn : Int) (hconn : 1 ≤ maxnconn) (s : WebClient)
    (h : (nonblockWeb n maxnconn).Reachable s) :
    (s.pc = .outer → s.Sound maxnconn) ∧ s.pc ≠ .stopped WebClient.nothingFound := by
  rcases WebClient.reachable_good hconn h with ⟨e,hpc,hne⟩ | ⟨hinv,hready⟩
  · rw [hpc]
    exact ⟨by simp,fun heq => hne (by cases heq; rfl)⟩
  · refine ⟨fun _ => hinv.sound,fun hpc => ?_⟩
    rw [WebClient.Ready,hpc] at hready
    exact hready

/-- One connect completes at once and one later; the descriptor of the first is used again. -/
theorem nonblockWeb_sound_reuse :
    let first : ConnectAnswers := ⟨true,some 3,true,.done,true⟩
    let later : ConnectAnswers := ⟨true,some 4,true,.inProgress,true⟩
    let reply : FileAnswers := ⟨.eof,true,true⟩
    let acts := [.main,.main,.startConnect first,.main,.startConnect later,.main,
      .select (some ({3},{4})),.file reply,.file reply,.file reply,.file reply,
      .main,.main,.startConnect first,.main,.select (some (∅,∅)),
      .file reply,.file reply,.file reply,.file reply]
    let m := nonblockWeb 3 2
    ∃ s, m.run m.init acts = some s ∧ s.pc = .outer ∧
      s.files = [⟨3,F_DONE⟩,⟨4,F_READING⟩,⟨3,F_READING⟩] ∧ s.Sound 2 := by
  intro first later reply acts m
  have hrun : (m.run m.init acts).map (fun s => (s.pc,s.files)) =
      some (.outer,[⟨3,F_DONE⟩,⟨4,F_READING⟩,⟨3,F_READING⟩]) := by decide +kernel
  obtain ⟨s,hs,heq⟩ := Option.map_eq_some_iff.mp hrun
  obtain ⟨hpc,hfiles⟩ := Prod.mk.inj heq
  exact ⟨s,hs,hpc,hfiles,(nonblockWeb_sound 3 2 (by decide) s ⟨acts,hs⟩).1 hpc⟩

end UnixNet
