import UnixNet.EventLoop
set_option autoImplicit false

/-! `connect_nonb`: the ways out, and how each leaves the descriptor. -/

namespace UnixNet

def EINPROGRESS : Errno := .other 115
def ETIMEDOUT : Errno := .other 110
def O_NONBLOCK : UInt32 := 0x800

/-- What has become of an attempt to connect: the error is pending. -/
inductive Attempt where
  | established
  | refused (error : Errno)
  deriving DecidableEq, Repr

/-- `attempt` is `none` before `connect` and as long as it is in progress. -/
structure ConnectSocket where
  flags : UInt32
  isOpen : Bool
  attempt : Option Attempt
  deriving DecidableEq, Repr

inductive ConnectOutcome where
  | established
  | fails (errno : Errno)
  deriving DecidableEq, Repr

/-- A socket is ready only when the attempt is over. -/
inductive SelectOutcome where
  | fails
  | timeout
  | ready (readable writable : Bool) (attempt : Attempt)
  deriving DecidableEq, Repr

/-- What the kernel answers: whether each `fcntl` succeeds, in the order of the calls, and the
`errno` of a `getsockopt` that fails. -/
structure ConnectCalls where
  getfl : Bool
  setfl : Bool
  connect : ConnectOutcome
  select : SelectOutcome
  getsockopt : Option Errno
  restore : Bool
  deriving DecidableEq, Repr

inductive ConnectEnd where
  | returned (n : Int) (errno : Option Errno)
  | exited (exit : Exit)
  /-- `select` without a timeout goes on. -/
  | waits
  deriving DecidableEq, Repr

namespace ConnectSocket

def close (s : ConnectSocket) : ConnectSocket := { s with isOpen := false }

/-- The `error` that `SO_ERROR` gives, unless it is 0. -/
def pending : Attempt → Option Errno
  | .established => none
  | .refused error => some error

/-- From the label `done` on. -/
def done (k : ConnectCalls) (flags : UInt32) (error : Option Errno) (s : ConnectSocket) :
    ConnectEnd × ConnectSocket :=
  if ¬ k.restore then (.exited (.errSys "fcntl error"),s)
  else
    let s := { s with flags := flags }
    match error with
    | some error => (.returned (-1) (some error),s.close)
    | none => (.returned 0 none,s)

def awaitConnect (k : ConnectCalls) (nsec : Int) (flags : UInt32) (s : ConnectSocket) :
    ConnectEnd × ConnectSocket :=
  match k.select with
  | .fails => (.exited (.errSys "select error"),s)
  | .timeout => if nsec = 0 then (.waits,s) else (.returned (-1) (some ETIMEDOUT),s.close)
  | .ready readable writable attempt =>
    let s := { s with attempt := some attempt }
    if readable || writable then
      match k.getsockopt with
      | some errno => (.returned (-1) (some errno),s)
      | none => s.done k flags (pending attempt)
    else (.exited (.errQuit "select error: sockfd not set"),s)

def connectNonb (k : ConnectCalls) (nsec : Int) (s : ConnectSocket) :
    ConnectEnd × ConnectSocket :=
  if ¬ k.getfl then (.exited (.errSys "fcntl error"),s)
  else
    let flags := s.flags
    if ¬ k.setfl then (.exited (.errSys "fcntl error"),s)
    else
      let s := { s with flags := flags ||| O_NONBLOCK }
      match k.connect with
      | .fails errno =>
        if errno ≠ EINPROGRESS then (.returned (-1) (some errno),s)
        else s.awaitConnect k nsec flags
      | .established => { s with attempt := some .established }.done k flags none

/-- The descriptor is closed and the result -1, or it is open with its old flags; 0 stands for a
connection. -/
def CleansUp (s : ConnectSocket) (r : ConnectEnd × ConnectSocket) : Prop :=
  ∀ n errno, r.1 = .returned n errno →
    (r.2.isOpen = false ∧ n = -1 ∨ r.2.isOpen = true ∧ r.2.flags = s.flags) ∧
      (n = 0 → r.2.attempt = some .established)

/-- The two ways out that pass by the label `done` and by every `close`. -/
inductive PassesDone (k : ConnectCalls) : Prop where
  | connect (errno : Errno) (hconnect : k.connect = .fails errno) (hother : errno ≠ EINPROGRESS)
  | getsockopt (errno : Errno) (readable writable : Bool) (attempt : Attempt)
      (hconnect : k.connect = .fails EINPROGRESS)
      (hselect : k.select = .ready readable writable attempt)
      (hset : (readable || writable) = true) (hfails : k.getsockopt = some errno)

section
variable {k : ConnectCalls} {nsec : Int} {s t : ConnectSocket}

theorem cleansUp_exited (exit : Exit) : CleansUp s (.exited exit,t) := by
  rintro n errno ⟨⟩

theorem cleansUp_closed (errno : Errno) : CleansUp s (.returned (-1) (some errno),t.close) := by
  rintro n errno' ⟨⟩
  exact ⟨.inl ⟨rfl,rfl⟩,fun h => absurd h (by decide)⟩

/-- A return with -1 that leaves the descriptor as it is. -/
theorem cleansUp_bare_iff {errno : Errno} (hopen : t.isOpen = true) :
    CleansUp s (.returned (-1) (some errno),t) ↔ t.flags = s.flags := by
  constructor
  · intro h
    obtain ⟨⟨hclosed,_⟩ | ⟨_,hflags⟩,_⟩ := h (-1) (some errno) rfl
    · exact absurd (hopen.symm.trans hclosed) (by decide)
    · exact hflags
  · rintro hflags n errno' ⟨⟩
    exact ⟨.inr ⟨hopen,hflags⟩,fun h => absurd h (by decide)⟩

theorem cleansUp_done {error : Option Errno} (hopen : t.isOpen = true)
    (herror : error = none → t.attempt = some .established) :
    CleansUp s (t.done k s.flags error) := by
  unfold done
  split
  · exact cleansUp_exited _
  · cases error with
    | some error => exact cleansUp_closed error
    | none =>
      rintro n errno ⟨⟩
      exact ⟨.inr ⟨hopen,rfl⟩,fun _ => herror rfl⟩

theorem cleansUp_awaitConnect_iff (hopen : t.isOpen = true) :
    CleansUp s (t.awaitConnect k nsec s.flags) ↔ t.flags = s.flags ∨
      ∀ readable writable attempt, k.select = .ready readable writable attempt →
        (readable || writable) = true → k.getsockopt = none := by
  unfold awaitConnect
  cases hselect : k.select with
  | fails => simp [cleansUp_exited]
  | timeout =>
    simp only [reduceCtorEq,false_imp_iff,implies_true,or_true,iff_true]
    split
    · rintro n errno ⟨⟩
    · exact cleansUp_closed ETIMEDOUT
  | ready readable writable attempt =>
    dsimp only
    by_cases hset : (readable || writable) = true
    · rw [if_pos hset]
      cases hgetsockopt : k.getsockopt with
      | none =>
        simp only [implies_true,or_true,iff_true]
        refine cleansUp_done hopen fun hpending => ?_
        cases attempt with
        | established => rfl
        | refused error => cases hpending
      | some errno =>
        refine (cleansUp_bare_iff (t := { t with attempt := some attempt }) hopen).trans ?_
        refine ⟨.inl,fun h => h.resolve_right fun hnone => ?_⟩
        cases hnone readable writable attempt rfl hset
    · rw [if_neg hset]
      refine ⟨fun _ => .inr ?_,fun _ => cleansUp_exited _⟩
      rintro _ _ _ ⟨⟩ h
      exact absurd h hset

theorem PassesDone.not_established (h : PassesDone k) : k.connect ≠ .established := by
  cases h with
  | connect errno hconnect hother => simp [hconnect]
  | getsockopt errno readable writable attempt hconnect => simp [hconnect]

theorem PassesDone.iff_getsockopt (hconnect : k.connect = .fails EINPROGRESS) :
    PassesDone k ↔ ¬ ∀ readable writable attempt,
      k.select = .ready readable writable attempt →
        (readable || writable) = true → k.getsockopt = none := by
  constructor
  · intro h hnone
    cases h with
    | connect errno hconnect' hother =>
      rw [hconnect] at hconnect'
      cases hconnect'
      exact hother rfl
    | getsockopt errno readable writable attempt _ hselect hset hfails =>
      rw [hnone readable writable attempt hselect hset] at hfails
      cases hfails
  · intro h
    simp only [not_forall] at h
    obtain ⟨readable,writable,attempt,hselect,hset,hfails⟩ := h
    obtain ⟨errno,herrno⟩ := Option.ne_none_iff_exists'.mp hfails
    exact .getsockopt errno readable writable attempt hconnect hselect hset herrno

/-- The descriptor keeps `O_NONBLOCK` on the two ways out, unless it had it before. -/
theorem connectNonb_cleansUp_iff (k : ConnectCalls) (nsec : Int) (s : ConnectSocket)
    (hopen : s.isOpen = true) :
    CleansUp s (connectNonb k nsec s) ↔
      ¬ (k.getfl = true ∧ k.setfl = true ∧ PassesDone k ∧ s.flags ||| O_NONBLOCK ≠ s.flags) := by
  unfold connectNonb
  cases hgetfl : k.getfl with
  | false => simp [cleansUp_exited]
  | true =>
    cases hsetfl : k.setfl with
    | false => simp [cleansUp_exited]
    | true =>
      simp only [not_true,if_false,true_and]
      cases hconnect : k.connect with
      | established =>
        refine iff_of_true (cleansUp_done hopen fun _ => rfl) ?_
        exact fun hbad => hbad.1.not_established hconnect
      | fails errno =>
        dsimp only
        by_cases hprogress : errno = EINPROGRESS
        · subst hprogress
          rw [if_neg (not_not.mpr rfl)]
          refine (cleansUp_awaitConnect_iff
            (t := { s with flags := s.flags ||| O_NONBLOCK }) hopen).trans ?_
          rw [PassesDone.iff_getsockopt hconnect]
          tauto
        · rw [if_pos hprogress]
          refine (cleansUp_bare_iff
            (t := { s with flags := s.flags ||| O_NONBLOCK }) hopen).trans ?_
          refine ⟨fun h hbad => hbad.2 h,fun h => ?_⟩
          by_contra hflags
          exact h ⟨.connect errno hconnect hprogress,hflags⟩

/-- A connection that is refused at once. -/
def refused : ConnectCalls := ⟨true,true,.fails (.other 111),.timeout,none,true⟩

theorem connectNonb_cleansUp_established :
    CleansUp ⟨2,true,none⟩ (connectNonb { refused with connect := .established } 0 ⟨2,true,none⟩) ↔
      ¬ ({ refused with connect := .established }.getfl = true ∧
        { refused with connect := .established }.setfl = true ∧
        PassesDone { refused with connect := .established } ∧ 2 ||| O_NONBLOCK ≠ 2) :=
  connectNonb_cleansUp_iff { refused with connect := .established } 0 ⟨2,true,none⟩ rfl

theorem connectNonb_leaves_nonblock :
    connectNonb refused 0 ⟨2,true,none⟩ =
      (.returned (-1) (some (.other 111)),⟨2 ||| O_NONBLOCK,true,none⟩) ∧
    ¬ ∀ (k : ConnectCalls) (nsec : Int) (s : ConnectSocket), s.isOpen = true →
      CleansUp s (connectNonb k nsec s) := by
  refine ⟨by decide,fun h => ?_⟩
  have hflags := (cleansUp_bare_iff (t := ⟨2 ||| O_NONBLOCK,true,none⟩) rfl).mp
    (h refused 0 ⟨2,true,none⟩ rfl)
  exact absurd hflags (by decide)

end

end ConnectSocket

end UnixNet
