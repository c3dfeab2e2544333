import UnixNet.Traceroute
set_option autoImplicit false

/-! traceroute: the alarm of `recv_v4` against its test of `gotalarm` and its `recvfrom`. -/

namespace UnixNet
namespace RecvProbe
variable {least : Nat} {turn : Nat → Field Turn} {s t : RecvProbe}

/-- The process waits for a datagram after its time is up. -/
def Lost (s : RecvProbe) : Prop := s.pc = .blocked ∧ s.expired = true

/-- The signal comes between the test of the flag and the call. -/
def Late (s : RecvProbe) (a : RecvAct) : Prop := a = .sigalrm ∧ s.pc = .recvfrom

/-- Nothing but a datagram or an error can end the wait. -/
def Stuck (least : Nat) (turn : Nat → Field Turn) (s : RecvProbe) : Prop :=
  ∀ a t, s.step least turn a = some t → (∃ d, a = .arrive d) ∨ ∃ e, a = .fail e

theorem stuck_of_blocked (hpc : s.pc = .blocked) (hqueue : s.queue = [])
    (hpending : s.pending = false) : s.Stuck least turn := by
  intro a t ht
  cases a with
  | go => simp [step,go,hpc,hqueue] at ht
  | fail e => exact .inr ⟨e,rfl⟩
  | sigalrm => simp [step,sigAlrm,hpending] at ht
  | arrive d => exact .inl ⟨d,rfl⟩

/-- What the flag and the program point say about the alarm. -/
structure Timed (s : RecvProbe) : Prop where
  flag : s.expired = true → s.gotalarm = true
  start : s.pc = .reset ∨ s.pc = .alarm → s.expired = false ∧ s.pending = false
  window : s.pc = .recvfrom ∨ s.pc = .blocked → s.expired = false

theorem Timed.not_lost (h : s.Timed) : ¬ s.Lost := by
  rintro ⟨hpc,hexpired⟩
  rw [h.window (.inr hpc)] at hexpired
  cases hexpired

theorem receive_timed {d : List Byte} {ds : List (List Byte)} (h : s.Timed) :
    (s.receive d ds).Timed := ⟨h.flag,by simp [receive],by simp [receive]⟩

theorem go_timed (h : s.Timed) (ht : s.go turn = some t) : t.Timed := by
  obtain ⟨hflag,hstart,hwindow⟩ := h
  cases hpc : s.pc
  all_goals
    simp only [go,hpc] at ht
  case reset =>
    cases ht
    obtain ⟨hexpired,hpending⟩ := hstart (.inl hpc)
    exact ⟨by simp [hexpired],fun _ => ⟨hexpired,hpending⟩,by simp⟩
  case alarm =>
    cases ht
    exact ⟨hflag,by simp,by simp⟩
  case test =>
    cases ht
    refine ⟨hflag,fun h => ?_,fun h => ?_⟩
    · simp only at h
      split at h <;> simp at h
    · simp only at h ⊢
      split at h
      · simp at h
      · rename_i hunset
        exact Bool.eq_false_iff.mpr fun hexpired => hunset (hflag hexpired)
  case recvfrom =>
    split at ht
    · cases ht
      exact ⟨hflag,by simp,fun _ => hwindow (.inl hpc)⟩
    · cases ht
      exact receive_timed ⟨hflag,hstart,hwindow⟩
  case blocked =>
    split at ht
    · cases ht
    · cases ht
      exact receive_timed ⟨hflag,hstart,hwindow⟩
  case got d =>
    cases ht
    cases (turn d.length).run s.recvbuf with
    | again printed => exact ⟨hflag,by simp [handle],by simp [handle]⟩
    | leave ret => exact ⟨hflag,by simp [handle],by simp [handle]⟩
  case found ret =>
    cases ht
    exact ⟨hflag,by simp,by simp⟩
  case returned ret => cases ht
  case exited => cases ht

theorem step_timed {a : RecvAct} (h : s.Timed) (hlate : ¬ s.Late a)
    (ht : s.step least turn a = some t) : t.Timed := by
  cases a with
  | go => exact go_timed h ht
  | fail e =>
    obtain ⟨_,ht⟩ := Option.ite_none_right_eq_some.mp ht
    cases ht
    refine ⟨h.flag,fun hpc => ?_,fun hpc => ?_⟩
    · simp only at hpc
      split at hpc <;> simp at hpc
    · simp only at hpc
      split at hpc <;> simp at hpc
  | sigalrm =>
    obtain ⟨hpending,ht⟩ := Option.ite_none_right_eq_some.mp ht
    cases ht
    refine ⟨fun _ => rfl,fun hpc => ?_,fun hpc => ?_⟩
    · simp only at hpc
      split at hpc
      · simp at hpc
      · rw [(h.start hpc).2] at hpending
        cases hpending
    · simp only at hpc
      split at hpc
      · simp at hpc
      · rename_i hblocked
        exact absurd ⟨rfl,hpc.resolve_right hblocked⟩ hlate
  | arrive d =>
    obtain ⟨_,ht⟩ := Option.ite_none_right_eq_some.mp ht
    cases ht
    exact ⟨h.flag,h.start,h.window⟩

theorem late_lost {a : RecvAct} (hlate : s.Late a) (hqueue : s.queue = [])
    (ht : s.step least turn a = some t) :
    ∃ u, t.step least turn .go = some u ∧ u.Lost ∧ u.Stuck least turn := by
  obtain ⟨rfl,hpc⟩ := hlate
  obtain ⟨_,ht⟩ := Option.ite_none_right_eq_some.mp ht
  cases ht
  refine ⟨{ s with pc := .blocked, gotalarm := true, pending := false, expired := true },?_,
    ⟨rfl,rfl⟩,stuck_of_blocked rfl hqueue rfl⟩
  simp [step,go,hpc,hqueue]

end RecvProbe

/-- Without a late signal no time-out is lost; a late one while no datagram waits is lost if the
call comes next, and nothing keeps it from happening. -/
theorem recvV4_lost (k : Probe) (gotalarm : Bool) (recvbuf : Nat → Byte) :
    let m := recvV4 k gotalarm recvbuf
    (∀ as s, m.run m.init as = some s → (∀ q a, (q,a) ∈ m.trace m.init as → ¬ q.Late a) →
      ¬ s.Lost) ∧
    (∀ q a t, q.Late a → q.queue = [] → m.step q a = some t →
      ∃ u, m.step t .go = some u ∧ u.Lost ∧ u.Stuck sizeofIp k.turnV4) ∧
    ∃ q t, m.Reachable q ∧ q.queue = [] ∧ q.Late .sigalrm ∧ m.step q .sigalrm = some t := by
  intro m
  refine ⟨fun as s hs hnone => ?_,fun q a t hlate hqueue ht => RecvProbe.late_lost hlate hqueue ht,
    ?_⟩
  · have hinit : m.init.Timed := ⟨by simp [m,recvV4,recvLoop],fun _ => ⟨rfl,rfl⟩,fun _ => rfl⟩
    have htimed := Machine.avoiding_invariant hinit
      (fun s a t _ hinv hlate ht => RecvProbe.step_timed hinv hlate ht) hs hnone
    exact htimed.not_lost
  · exact ⟨_,_,⟨[.go,.go,.go],rfl⟩,rfl,⟨rfl,rfl⟩,rfl⟩

/-- SIGALRM is delivered after the first test, and the call blocks for good. -/
theorem recvV4_loses_alarm : ¬ ∀ (k : Probe) (gotalarm : Bool) (recvbuf : Nat → Byte)
    (s : RecvProbe), (recvV4 k gotalarm recvbuf).Reachable s → ¬ s.Lost := by
  intro h
  refine h ⟨32768,33434,1,false⟩ true (fun _ => 0) _ ⟨[.go,.go,.go,.sigalrm,.go],rfl⟩ ⟨rfl,rfl⟩

end UnixNet
