import UnixNet.Library.Machine
import Mathlib.Data.List.Infix
set_option autoImplicit false

/-! Watchdogs: a counter that ticks advance and resets clear, and that gives up at the first
tick that takes it over its limit. -/

namespace Watchdog

inductive Kind
  | tick | reset | other
  deriving DecidableEq, Repr

inductive Life
  | running | gaveUp | ended
  deriving DecidableEq, Repr

variable {α : Type*} (kind : α → Kind)

/-- The ticks after the last reset. -/
def since (l : List α) : Nat :=
  (l.reverse.takeWhile fun x => kind x ≠ .reset).countP fun x => kind x = .tick

/-- Some tick finds `limit` ticks between itself and the last reset before it. -/
def Expired (limit : Nat) (l : List α) : Prop :=
  ∃ before x after, l = before ++ x :: after ∧ kind x = .tick ∧ since kind before = limit

variable {kind}

@[simp] theorem since_nil : since kind [] = 0 := rfl

theorem since_tick {l : List α} {x : α} (h : kind x = .tick) :
    since kind (l ++ [x]) = since kind l + 1 := by
  simp [since,h]

theorem since_reset {l : List α} {x : α} (h : kind x = .reset) : since kind (l ++ [x]) = 0 := by
  simp [since,h]

theorem since_other {l : List α} {x : α} (h : kind x = .other) :
    since kind (l ++ [x]) = since kind l := by
  simp [since,h]

theorem expired_nil (limit : Nat) : ¬ Expired kind limit [] := by
  rintro ⟨before,x,after,h,-,-⟩
  simp at h

theorem expired_concat {limit : Nat} {l : List α} {x : α} :
    Expired kind limit (l ++ [x]) ↔
      Expired kind limit l ∨ kind x = .tick ∧ since kind l = limit := by
  constructor
  · rintro ⟨before,y,after,heq,hy,hlimit⟩
    rcases List.eq_nil_or_concat after with rfl | ⟨after,z,rfl⟩
    · obtain ⟨rfl,hxy⟩ := List.append_inj' heq rfl
      cases hxy
      exact .inr ⟨hy,hlimit⟩
    · have heq : l ++ [x] = (before ++ y :: after) ++ [z] := by simpa using heq
      obtain ⟨rfl,-⟩ := List.append_inj' heq rfl
      exact .inl ⟨before,y,after,rfl,hy,hlimit⟩
  · rintro (⟨before,y,after,rfl,hy,hlimit⟩ | ⟨hx,hlimit⟩)
    · exact ⟨before,y,after ++ [x],by simp,hy,hlimit⟩
    · exact ⟨l,x,[],rfl,hx,hlimit⟩

/-- The counter `n` of a watchdog with this history. -/
structure Watched (kind : α → Kind) (limit n : Nat) (life : Life) (l : List α) : Prop where
  counts : life = .running → n = since kind l ∧ n ≤ limit
  gaveUp_iff : life = .gaveUp ↔ Expired kind limit l

theorem watched_nil (limit : Nat) : Watched kind limit 0 .running [] :=
  ⟨fun _ => ⟨rfl,Nat.zero_le limit⟩,⟨nofun,fun h => absurd h (expired_nil limit)⟩⟩

variable {limit n : Nat} {l : List α} {x : α}

theorem Watched.tick (h : Watched kind limit n .running l) (hx : kind x = .tick) :
    Watched kind limit (n+1) (if limit < n+1 then .gaveUp else .running) (l ++ [x]) := by
  obtain ⟨hn,hle⟩ := h.counts rfl
  have hnot : ¬ Expired kind limit l := fun hl => nomatch h.gaveUp_iff.mpr hl
  by_cases hover : limit < n+1
  · rw [if_pos hover]
    refine ⟨nofun,iff_of_true rfl ?_⟩
    exact expired_concat.mpr (.inr ⟨hx,by omega⟩)
  · rw [if_neg hover]
    refine ⟨fun _ => ⟨by rw [since_tick hx,hn],by omega⟩,iff_of_false nofun ?_⟩
    rw [expired_concat]
    rintro (hl | ⟨-,hlimit⟩)
    · exact hnot hl
    · omega

theorem Watched.reset (h : Watched kind limit n .running l) (hx : kind x = .reset) :
    Watched kind limit 0 .running (l ++ [x]) := by
  refine ⟨fun _ => ⟨(since_reset hx).symm,Nat.zero_le limit⟩,?_⟩
  rw [expired_concat,hx,← h.gaveUp_iff]
  simp

theorem Watched.other {life : Life} (h : Watched kind limit n life l) (hx : kind x = .other) :
    Watched kind limit n life (l ++ [x]) := by
  refine ⟨by rw [since_other hx]; exact h.counts,?_⟩
  rw [expired_concat,hx,← h.gaveUp_iff]
  simp

theorem Watched.ends (h : Watched kind limit n .running l) : Watched kind limit n .ended l :=
  ⟨nofun,iff_of_false nofun fun hl => nomatch h.gaveUp_iff.mpr hl⟩

end Watchdog

namespace Machine
variable {σ α : Type*}

/-- Where the counted actions lower a rank that no other action raises, the rank bounds
their number. -/
theorem countP_le_of_rank {m : Machine σ α} {I : σ → Prop} {p : α → Bool} (rank : σ → Nat)
    (hstep : ∀ s a t, I s → m.step s a = some t →
      I t ∧ (if p a = true then 1 else 0) + rank t ≤ rank s)
    {s t : σ} {as : List α} (hs : I s) (h : m.run s as = some t) :
    as.countP p + rank t ≤ rank s := by
  induction as generalizing s with
  | nil =>
    cases h
    simp
  | cons a as ih =>
    obtain ⟨u,hu,hrest⟩ := Option.bind_eq_some_iff.mp h
    obtain ⟨hIu,hrank⟩ := hstep s a u hs hu
    have hlater := ih hIu hrest
    rw [List.countP_cons]
    omega

end Machine
