import UnixNet.ChildReaping
import UnixNet.Library.Machine
set_option autoImplicit false

/-! What makes `tcp_serv04` leave its loop when SIGCHLD may arrive at any time. -/

namespace UnixNet

/-- The handler's next `waitpid` fails with ECHILD. -/
def Process.Childless (p : Process tcpServ04) : Prop :=
  p.handler = .waitpid ∧ .terminated ∉ p.children ∧ .running ∉ p.children

instance Process.decidableChildless (p : Process tcpServ04) : Decidable p.Childless := by
  unfold Process.Childless
  infer_instance

/-- The events after which `tcp_serv04` cannot go on. -/
inductive Cause where
  | acceptFailed | overwritten | wrapperFailed
  deriving DecidableEq, Repr

/-- `accept` fails with an errno other than EINTR; or the handler writes ECHILD over an
EINTR that is still to be tested; or `Fork` or `Close` fails. -/
def cause (p : Process tcpServ04) : ProcAct → Option Cause
  | .main (.fail e) =>
    match p.main with
    | .accept => if e = .eintr then none else some .acceptFailed
    | .fork | .close => some .wrapperFailed
    | _ => none
  | .handler _ =>
    match p.main with
    | .testErrno => if p.errno = .eintr ∧ p.Childless then some .overwritten else none
    | _ => none
  | _ => none

/-- The causes in a run, in order. -/
def causes (acts : List ProcAct) : List Cause :=
  ((process tcpServ04).trace (process tcpServ04).init acts).filterMap fun x => cause x.1 x.2

/-- What has happened by the time the main program is at its place. -/
def Explained (cs : List Cause) (p : Process tcpServ04) : Prop :=
  match p.main with
  | .accept | .fork | .close => cs = []
  | .testErrno => p.errno = .eintr ∧ cs = [] ∨
      p.errno ≠ .eintr ∧ (cs = [.acceptFailed] ∨ cs = [.overwritten])
  | .exited => ∃ c, cs = [c]

theorem explained_congr {cs : List Cause} {p q : Process tcpServ04} (h : Explained cs p)
    (hmain : q.main = p.main) (herrno : q.errno = p.errno) : Explained cs q := by
  unfold Explained at h ⊢
  rwa [hmain,herrno]

theorem explained_main {cs : List Cause} {p q : Process tcpServ04} {a : MainAct}
    (hp : Explained cs p) (h : p.step (.main a) = some q) :
    Explained (cs ++ (cause p (.main a)).toList) q := by
  simp only [Process.step] at h
  split at h
  · obtain ⟨⟨main,errno,forked⟩,hstep,rfl⟩ := Option.map_eq_some_iff.mp h
    unfold Explained at hp
    cases hmain : p.main with
    | accept =>
      rw [hmain] at hp hstep
      cases a with
      | ok =>
        cases hstep
        simpa [Explained,cause,hmain] using hp
      | fail e =>
        by_cases he : e = .eintr <;> cases hstep <;> simp [Explained,cause,hmain,hp,he]
      | ready => cases hstep
    | testErrno =>
      rw [hmain] at hp hstep
      cases a with
      | ok =>
        by_cases he : p.errno = .eintr
        · simp only [tcpServ04,he,if_true] at hstep
          cases hstep
          simpa [Explained,cause,hmain,he] using hp
        · simp only [tcpServ04,he,if_false] at hstep
          cases hstep
          rcases hp with ⟨heintr,_⟩ | ⟨_,rfl | rfl⟩
          · exact absurd heintr he
          · simp [Explained,cause]
          · simp [Explained,cause]
      | fail | ready => cases hstep
    | fork | close =>
      rw [hmain] at hp hstep
      cases a with
      | ok =>
        cases hstep
        simpa [Explained,cause,hmain] using hp
      | fail e =>
        cases hstep
        simp [Explained,cause,hmain,hp]
      | ready => cases hstep
    | exited =>
      rw [hmain] at hstep
      cases a <;> cases hstep
  · cases h

theorem handler_cases {p q : Process tcpServ04} {i : Nat} (h : p.sigChldWaitPid i = some q) :
    q.main = p.main ∧ (q.errno = p.errno ∧ ¬ p.Childless ∨ q.errno = .echild ∧ p.Childless) := by
  unfold Process.sigChldWaitPid at h
  split at h
  · cases h
  · rename_i hw
    split at h
    · rename_i hi
      cases h
      exact ⟨rfl,.inl ⟨rfl,fun hnone => hnone.2.1 (List.mem_of_getElem? hi)⟩⟩
    · split at h
      · cases h
      · rename_i hterm
        split at h
        · rename_i hrun
          cases h
          exact ⟨rfl,.inl ⟨rfl,fun hnone => hnone.2.2 hrun⟩⟩
        · rename_i hrun
          cases h
          exact ⟨rfl,.inr ⟨rfl,hw,hterm,hrun⟩⟩
  · rename_i hw
    cases h
    exact ⟨rfl,.inl ⟨rfl,fun hnone => absurd (hw.symm.trans hnone.1) (by decide)⟩⟩
  · rename_i hw
    cases h
    exact ⟨rfl,.inl ⟨rfl,fun hnone => absurd (hw.symm.trans hnone.1) (by decide)⟩⟩

theorem explained_handler {cs : List Cause} {p q : Process tcpServ04} {i : Nat}
    (hp : Explained cs p) (h : p.sigChldWaitPid i = some q) :
    Explained (cs ++ (cause p (.handler i)).toList) q := by
  obtain ⟨hmain,⟨herrno,hsome⟩ | ⟨herrno,hnone⟩⟩ := handler_cases h
  · have hquiet : cause p (.handler i) = none := by
      simp only [cause]
      split
      · exact if_neg fun hno => hsome hno.2
      · rfl
    rw [hquiet]
    simpa using explained_congr hp hmain herrno
  · unfold Explained at hp ⊢
    rw [hmain]
    cases hpc : p.main with
    | testErrno =>
      rw [hpc] at hp
      rcases hp with ⟨heintr,rfl⟩ | ⟨hne,hcs⟩
      · simp [cause,hpc,heintr,hnone,herrno]
      · simp [cause,hpc,hne,herrno,hcs]
    | accept | fork | close | exited =>
      rw [hpc] at hp
      simpa [cause,hpc] using hp

theorem explained_step {cs : List Cause} {p q : Process tcpServ04} {a : ProcAct}
    (hp : Explained cs p) (h : p.step a = some q) : Explained (cs ++ (cause p a).toList) q := by
  cases a with
  | main a => exact explained_main hp h
  | handler i => exact explained_handler hp h
  | terminate i =>
    have hquiet : cause p (.terminate i) = none := rfl
    simp only [Process.step] at h
    split at h <;> cases h
    rw [hquiet,Option.toList_none,List.append_nil]
    exact explained_congr hp rfl rfl
  | deliver =>
    have hquiet : cause p .deliver = none := rfl
    simp only [Process.step] at h
    split at h <;> cases h
    rw [hquiet,Option.toList_none,List.append_nil]
    exact explained_congr hp rfl rfl

theorem explained_run {acts : List ProcAct} {p : Process tcpServ04}
    (h : (process tcpServ04).run (process tcpServ04).init acts = some p) :
    Explained (causes acts) p := by
  refine Machine.trace_invariant (m := process tcpServ04)
    (I := fun l p => Explained (l.filterMap fun x => cause x.1 x.2) p) ?_ ?_ h
  · exact (rfl : ([] : List Cause) = [])
  intro l s a t hl ht
  rw [List.filterMap_append]
  cases hc : cause s a <;> simpa [hc] using explained_step hl ht

/-- `tcp_serv04` leaves its loop for the reason it tests, unless the handler overwrites
errno between the failing `accept` and the test, or another call of the loop fails. -/
theorem tcpServ04_leaves_iff (acts : List ProcAct) (p : Process tcpServ04)
    (h : (process tcpServ04).run (process tcpServ04).init acts = some p) :
    (p.main = .exited → .acceptFailed ∈ causes acts) ↔
      (p.main = .exited → .overwritten ∉ causes acts ∧ .wrapperFailed ∉ causes acts) := by
  refine forall_congr' fun hexit => ?_
  have hp := explained_run h
  unfold Explained at hp
  rw [hexit] at hp
  obtain ⟨c,hc⟩ := hp
  rw [hc]
  cases c <;> simp

/-- `accept` fails with an error of its own after a first child was reaped. -/
theorem tcpServ04_leaves_other : let acts := [.main .ok,.main .ok,.main .ok,.terminate 0,.deliver,
      .handler 0,.handler 0,.handler 0,.handler 0,.main (.fail (.other 24)),.main .ok]
    ∃ p, (process tcpServ04).run (process tcpServ04).init acts = some p ∧
      p.main = .exited ∧ .acceptFailed ∈ causes acts := by
  intro acts
  exact ⟨_,rfl,rfl,(tcpServ04_leaves_iff acts _ rfl).mpr (fun _ => by decide) rfl⟩

/-- `accept` is interrupted, and before the test the handler reaps the only child. -/
theorem tcpServ04_leaves_interrupted : ¬ ∀ (acts : List ProcAct) (p : Process tcpServ04),
    (process tcpServ04).run (process tcpServ04).init acts = some p →
    p.main = .exited → .acceptFailed ∈ causes acts := by
  intro h
  have hmem := h [.main .ok,.main .ok,.main .ok,.main (.fail .eintr),.terminate 0,.deliver,
    .handler 0,.handler 0,.handler 0,.handler 0,.main .ok] _ rfl rfl
  revert hmem
  decide

end UnixNet
