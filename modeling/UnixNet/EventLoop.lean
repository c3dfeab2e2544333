import Mathlib.Data.Finset.Basic
import Mathlib.Data.Finset.Dedup
import Mathlib.Data.Int.Interval
import UnixNet.Descriptor
import UnixNet.Library.Slots
set_option autoImplicit false

/-! What the servers with an event loop have in common. -/

namespace UnixNet

/-- Number of bits of an `fd_set`. -/
def FD_SETSIZE : Nat := 1024

/-- Clients whose descriptors fit into an `fd_set` beside others leave a slot free. -/
theorem slot_free {t : Nat → Int} {m : Nat} {S fds : Finset Int} (h : Slots.Keeps (0 ≤ ·) t m S)
    (hsub : S ⊂ fds) (hbound : ∀ fd ∈ fds, 0 ≤ fd ∧ fd < FD_SETSIZE) :
    ∃ i < FD_SETSIZE, decide (t i < 0) = true := by
  have hico : fds ⊆ Finset.Ico 0 (FD_SETSIZE : Int) :=
    fun fd hfd => Finset.mem_Ico.mpr (hbound fd hfd)
  have hcard : fds.card ≤ FD_SETSIZE := by simpa using Finset.card_le_card hico
  obtain ⟨i,hi,hfree⟩ := h.free ((Finset.card_lt_card hsub).trans_le hcard)
  exact ⟨i,hi,by simpa using hfree⟩

theorem bound_insert {fds : Finset Int} {maxfd c : Int}
    (hbound : ∀ fd ∈ fds, 0 ≤ fd ∧ fd < FD_SETSIZE ∧ fd ≤ maxfd) (h0 : 0 ≤ c)
    (hc : c < FD_SETSIZE) : ∀ fd ∈ insert c fds, 0 ≤ fd ∧ fd < FD_SETSIZE ∧ fd ≤ max maxfd c := by
  intro fd hfd
  rcases Finset.mem_insert.mp hfd with rfl | hfd
  · exact ⟨h0,hc,Int.le_max_right _ _⟩
  · obtain ⟨hb0,hb1,hb2⟩ := hbound fd hfd
    exact ⟨hb0,hb1,Int.le_trans hb2 (Int.le_max_left _ _)⟩

/-- Why a server process ended; `undefined` is a store outside an `fd_set`. -/
inductive Exit where
  | errSys : String → Exit
  | errQuit : String → Exit
  | undefined : Exit
  deriving DecidableEq, Repr

/-- What the calls of one iteration give: `connfd` is `none` when `accept` fails with an
error that `Accept` does not retry, and `writen` tells whether all bytes were taken. -/
structure Answers where
  connfd : Option Int
  read : Int → ReadResult
  writen : Int → Bool

/-- `Accept` gives a descriptor that is not open yet. -/
def Answers.Fresh (ans : Answers) (fds : Finset Int) : Prop :=
  match ans.connfd with
  | some c => 0 ≤ c ∧ c ∉ fds
  | none => False

instance Answers.decidableFresh (ans : Answers) (fds : Finset Int) : Decidable (ans.Fresh fds) := by
  unfold Answers.Fresh
  cases ans.connfd <;> infer_instance

theorem Answers.Fresh.elim {ans : Answers} {fds : Finset Int} (h : ans.Fresh fds) :
    ∃ c, ans.connfd = some c ∧ 0 ≤ c ∧ c ∉ fds := by
  unfold Answers.Fresh at h
  split at h
  · rename_i c hc
    exact ⟨c,hc,h⟩
  · exact h.elim

/-- `read(fd, buf, MAXLINE)` on a client that sends data or closes. -/
def ReadResult.Orderly : ReadResult → Prop
  | .data bs => 0 < bs.length ∧ bs.length ≤ MAXLINE
  | .eof => True
  | .fail _ => False

instance ReadResult.decidableOrderly : DecidablePred ReadResult.Orderly := fun r => by
  cases r <;> unfold ReadResult.Orderly <;> infer_instance

def ReadResult.ends : ReadResult → Bool
  | .data _ => false
  | _ => true

/-- The calls on a client that is served without an error. -/
def Answers.echo (ans : Answers) (fd : Int) : List Action :=
  match ans.read fd with
  | .data bs => [.read fd (.data bs),.write fd bs]
  | r => [.read fd r,.close fd]

def readsOn (fd : Int) (log : List Action) : List ReadResult :=
  log.filterMap fun
    | .read f r => if f = fd then some r else none
    | _ => none

@[simp] theorem readsOn_append (fd : Int) (l m : List Action) :
    readsOn fd (l ++ m) = readsOn fd l ++ readsOn fd m := List.filterMap_append

@[simp] theorem readsOn_accept (fd c : Int) : readsOn fd [.accept c] = [] := rfl

theorem readsOn_eq_nil {fd : Int} {log : List Action} :
    readsOn fd log = [] ↔ ∀ x, .read fd x ∉ log := by
  constructor
  · intro h x hmem
    simpa using List.filterMap_eq_nil_iff.mp h _ hmem
  · refine fun h => List.filterMap_eq_nil_iff.mpr fun a ha => ?_
    cases a with
    | read f x =>
      have hne : f ≠ fd := by
        rintro rfl
        exact h x ha
      simp [hne]
    | accept | write | close | shutdown => rfl

theorem sent_echo (ans : Answers) (fd f : Int) : sent fd (ans.echo f) = received fd (ans.echo f) := by
  unfold Answers.echo
  cases ans.read f <;> simp

theorem readsOn_echo (ans : Answers) (fd f : Int) :
    readsOn fd (ans.echo f) = if f = fd then [ans.read fd] else [] := by
  by_cases h : f = fd
  · subst h
    unfold Answers.echo
    cases ans.read f <;> simp [readsOn]
  · unfold Answers.echo
    cases ans.read f <;> simp [readsOn,h]

theorem sent_echoes (ans : Answers) (fd : Int) (fds : List Int) :
    sent fd (fds.flatMap ans.echo) = received fd (fds.flatMap ans.echo) := by
  induction fds with
  | nil => rfl
  | cons f fds ih => simp [sent_echo,ih]

theorem readsOn_echoes (ans : Answers) (fd : Int) {fds : List Int} (hnd : fds.Nodup) :
    readsOn fd (fds.flatMap ans.echo) = if fd ∈ fds then [ans.read fd] else [] := by
  induction fds with
  | nil => rfl
  | cons f fds ih =>
    obtain ⟨hf,hnd⟩ := List.nodup_cons.mp hnd
    rw [List.flatMap_cons,readsOn_append,readsOn_echo,ih hnd]
    by_cases h : f = fd
    · subst h
      simp [hf]
    · simp [h,Ne.symm h]

/-- The descriptors that are open after a call. -/
def Action.track (fds : Finset Int) : Action → Finset Int
  | .accept c => insert c fds
  | .close fd => fds.erase fd
  | _ => fds

theorem track_echo (ans : Answers) (fds : Finset Int) (f : Int) :
    (ans.echo f).foldl Action.track fds = if (ans.read f).ends then fds.erase f else fds := by
  unfold Answers.echo
  cases ans.read f <;> rfl

theorem track_echoes (ans : Answers) (fds : Finset Int) (fs : List Int) :
    (fs.flatMap ans.echo).foldl Action.track fds =
      fds \ fs.toFinset.filter fun fd => (ans.read fd).ends := by
  induction fs generalizing fds with
  | nil => simp
  | cons f fs ih =>
    rw [List.flatMap_cons,List.foldl_append,track_echo,ih,List.toFinset_cons,Finset.filter_insert]
    by_cases hends : (ans.read f).ends = true
    · simp only [if_pos hends]
      rw [Finset.sdiff_insert,Finset.erase_sdiff_comm]
    · simp only [if_neg hends]

end UnixNet
