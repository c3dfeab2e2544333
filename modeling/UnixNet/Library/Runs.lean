import Mathlib.Data.Nat.Basic
set_option autoImplicit false

/-! Runs of consecutive positions with a property, and the longest of them: where several
are equally long, the first. -/

namespace Runs

structure Run where
  base : Nat
  len : Nat
  deriving DecidableEq, Repr

variable (p : Nat → Prop)

/-- The `k` positions from `b` on lie below `n` and have the property. -/
structure Within (n b k : Nat) : Prop where
  fits : b + k ≤ n
  all : ∀ i, b ≤ i → i < b + k → p i

structure Longest (n b k : Nat) : Prop extends Within p n b k where
  pos : 0 < k
  longest : ∀ c m, Within p n c m → m ≤ k
  first : ∀ c, Within p n c k → b ≤ c

/-- `r` is the longest run below `n`, or there is none. -/
def Best (n : Nat) : Option Run → Prop
  | none => ∀ c m, Within p n c m → m = 0
  | some r => Longest p n r.base r.len

/-- The run that begins at `b` reaches up to `n`, and nothing before `b` belongs to it. -/
structure Ending (n b : Nat) : Prop where
  le : b ≤ n
  all : ∀ i, b ≤ i → i < n → p i
  starts : b = 0 ∨ ¬ p (b-1)

variable {p}

theorem Longest.unique {n b k c m : Nat} (h : Longest p n b k) (h' : Longest p n c m) :
    b = c ∧ k = m := by
  have hlen : k = m := Nat.le_antisymm (h'.longest b k h.toWithin) (h.longest c m h'.toWithin)
  subst hlen
  exact ⟨Nat.le_antisymm (h.first c h'.toWithin) (h'.first b h.toWithin),rfl⟩

theorem best_zero : Best p 0 none := fun c m h => by have := h.fits; omega

theorem ending_zero : Ending p 0 0 :=
  ⟨Nat.le_refl 0,fun i _ hi => absurd hi (Nat.not_lt_zero i),.inl rfl⟩

theorem Ending.more {n b : Nat} (h : Ending p n b) (hn : p n) : Ending p (n+1) b := by
  refine ⟨Nat.le_succ_of_le h.le,fun i hb hi => ?_,h.starts⟩
  rcases Nat.lt_succ_iff_lt_or_eq.mp hi with hi | rfl
  · exact h.all i hb hi
  · exact hn

theorem Ending.fresh {n : Nat} (hn : ¬ p n) : Ending p (n+1) (n+1) :=
  ⟨Nat.le_refl _,fun _ hb hi => absurd hb (Nat.not_le.mpr hi),.inr hn⟩

/-- A run lies before the last one or inside it. -/
theorem Ending.split {n b c m : Nat} (h : Ending p n b) (hrun : Within p n c m) :
    Within p b c m ∨ b ≤ c ∨ m = 0 := by
  by_cases hbefore : c + m ≤ b
  · exact .inl ⟨hbefore,hrun.all⟩
  · right
    by_contra hnot
    rcases h.starts with h0 | hstop
    · omega
    · exact hstop (hrun.all (b-1) (by omega) (by omega))

theorem Within.widen {n n' b k : Nat} (h : Within p n b k) (hn : n ≤ n') : Within p n' b k :=
  ⟨Nat.le_trans h.fits hn,h.all⟩

/-- Where the last run is empty, the best run before it is the best. -/
theorem Best.skip {n : Nat} {r : Option Run} (h : Best p n r) (hn : ¬ p n) : Best p (n+1) r := by
  have hback : ∀ c m, Within p (n+1) c m → Within p n c m ∨ m = 0 := by
    intro c m hrun
    by_cases hm : m = 0
    · exact .inr hm
    · refine .inl ⟨?_,hrun.all⟩
      by_contra hlast
      have hfits := hrun.fits
      exact hn (hrun.all n (by omega) (by omega))
  cases r with
  | none =>
    intro c m hrun
    exact (hback c m hrun).elim (h c m) id
  | some r =>
    have hbest : Longest p n r.base r.len := h
    refine ⟨hbest.toWithin.widen (Nat.le_succ n),hbest.pos,fun c m hrun => ?_,fun c hrun => ?_⟩
    · rcases hback c m hrun with hrun | rfl
      · exact hbest.longest c m hrun
      · exact Nat.zero_le _
    · rcases hback c r.len hrun with hrun | hzero
      · exact hbest.first c hrun
      · exact absurd hzero (Nat.pos_iff_ne_zero.mp hbest.pos)

/-- The better of two runs, the first of them when they are equally long. -/
def keep (best : Option Run) (cur : Run) : Run :=
  match best with
  | none => cur
  | some r => if r.len < cur.len then cur else r

theorem Best.keep {n b : Nat} {r : Option Run} (h : Best p b r) (hend : Ending p n b) (hb : b < n) :
    Best p n (some (keep r ⟨b,n-b⟩)) := by
  have hlast : Within p n b (n-b) := ⟨by omega,fun i hi hlt => hend.all i hi (by omega)⟩
  have hinside : ∀ c m, b ≤ c → Within p n c m → m ≤ n - b := fun c m hc hrun => by
    have hfits := hrun.fits
    omega
  cases r with
  | none =>
    have hnone : ∀ c m, Within p b c m → m = 0 := h
    refine ⟨hlast,Nat.sub_pos_of_lt hb,fun c m hrun => ?_,fun c hrun => ?_⟩
    · rcases hend.split hrun with hbefore | hc | rfl
      · simp [hnone c m hbefore]
      · exact hinside c m hc hrun
      · exact Nat.zero_le _
    · rcases hend.split hrun with hbefore | hc | hzero
      · have hzero := hnone c _ hbefore
        simp only [Runs.keep] at hzero
        omega
      · exact hc
      · simp only [Runs.keep] at hzero
        omega
  | some r =>
    have hbest : Longest p b r.base r.len := h
    by_cases hlonger : r.len < n - b
    · have hkeep : Runs.keep (some r) ⟨b,n-b⟩ = ⟨b,n-b⟩ := if_pos hlonger
      rw [hkeep]
      refine ⟨hlast,Nat.sub_pos_of_lt hb,fun c m hrun => ?_,fun c hrun => ?_⟩
      · rcases hend.split hrun with hbefore | hc | rfl
        · exact Nat.le_of_lt (Nat.lt_of_le_of_lt (hbest.longest c m hbefore) hlonger)
        · exact hinside c m hc hrun
        · exact Nat.zero_le _
      · rcases hend.split hrun with hbefore | hc | hzero
        · exact absurd (hbest.longest c _ hbefore) (Nat.not_le.mpr hlonger)
        · exact hc
        · exact absurd hzero (Nat.sub_ne_zero_of_lt hb)
    · have hkeep : Runs.keep (some r) ⟨b,n-b⟩ = r := if_neg hlonger
      rw [hkeep]
      refine ⟨hbest.toWithin.widen hend.le,hbest.pos,fun c m hrun => ?_,fun c hrun => ?_⟩
      · rcases hend.split hrun with hbefore | hc | rfl
        · exact hbest.longest c m hbefore
        · have hm := hinside c m hc hrun
          omega
        · exact Nat.zero_le _
      · rcases hend.split hrun with hbefore | hc | hzero
        · exact hbest.first c hbefore
        · have hfits := hbest.fits
          omega
        · exact absurd hzero (Nat.pos_iff_ne_zero.mp hbest.pos)

/-- What one pass over the first `n` positions keeps: the best run that is over, and the
run that it is in. -/
def Scanned (p : Nat → Prop) (n : Nat) (best : Option Run) : Option Run → Prop
  | none => Best p n best ∧ Ending p n n
  | some cur => cur.base < n ∧ cur.len = n - cur.base ∧ Best p cur.base best ∧ Ending p n cur.base

theorem scanned_zero : Scanned p 0 none none := ⟨best_zero,ending_zero⟩

theorem Scanned.enter {n : Nat} {best : Option Run} (h : Scanned p n best none) (hn : p n) :
    Scanned p (n+1) best (some ⟨n,1⟩) :=
  ⟨Nat.lt_succ_self n,(Nat.add_sub_cancel_left (n := n) (m := 1)).symm,h.1,h.2.more hn⟩

theorem Scanned.grow {n : Nat} {best : Option Run} {cur : Run} (h : Scanned p n best (some cur))
    (hn : p n) : Scanned p (n+1) best (some ⟨cur.base,cur.len+1⟩) := by
  obtain ⟨hlt,hlen,hbest,hend⟩ := h
  exact ⟨Nat.lt_succ_of_lt hlt,by simp only; omega,hbest,hend.more hn⟩

theorem Scanned.stay {n : Nat} {best : Option Run} (h : Scanned p n best none) (hn : ¬ p n) :
    Scanned p (n+1) best none := ⟨h.1.skip hn,.fresh hn⟩

theorem Scanned.best {n : Nat} {best : Option Run} {cur : Run} (h : Scanned p n best (some cur)) :
    Best p n (some (keep best cur)) := by
  obtain ⟨hlt,hlen,hbest,hend⟩ := h
  have hcur : cur = ⟨cur.base,n-cur.base⟩ := by rw [← hlen]
  rw [hcur]
  exact hbest.keep hend hlt

theorem Scanned.leave {n : Nat} {best : Option Run} {cur : Run} (h : Scanned p n best (some cur))
    (hn : ¬ p n) : Scanned p (n+1) (some (keep best cur)) none := ⟨h.best.skip hn,.fresh hn⟩

end Runs
