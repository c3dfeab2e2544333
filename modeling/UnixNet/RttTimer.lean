import Mathlib.Algebra.Order.Field.Basic
import Mathlib.Data.Rat.Floor
import Mathlib.Tactic.Linarith
import Mathlib.Tactic.NormNum
import UnixNet.Library.Smoothing
import UnixNet.RttClient
set_option autoImplicit false

/-! The estimators and the retransmission timer of rtt.c, in exact arithmetic. -/

namespace UnixNet
open Smoothing

/-- In seconds. -/
def RTT_RXTMIN : ℚ := 2
def RTT_RXTMAX : ℚ := 60

structure RttInfo where
  rtt : ℚ
  srtt : ℚ
  rttvar : ℚ
  rto : ℚ
  nrexmt : Nat
  base : Int
  deriving DecidableEq

/-- The conversion to `int`. -/
def trunc (x : ℚ) : Int := x.num.tdiv x.den

namespace RttInfo

/-- `RTT_RTOCALC`. -/
def rtoCalc (p : RttInfo) : ℚ := p.srtt + 4 * p.rttvar

def minmax (rto : ℚ) : ℚ :=
  if rto < RTT_RXTMIN then RTT_RXTMIN
  else if rto > RTT_RXTMAX then RTT_RXTMAX
  else rto

/-- `rtt_init` does not set `rtt_nrexmt`. -/
def init (p : RttInfo) (now : Timeval) : RttInfo :=
  let p := { p with base := now.sec % 2 ^ 32, rtt := 0, srtt := 0, rttvar := 3 / 4 }
  { p with rto := minmax p.rtoCalc }

def newpack (p : RttInfo) : RttInfo := { p with nrexmt := 0 }

def start (p : RttInfo) : Int := trunc (p.rto + 1 / 2)

def stop (p : RttInfo) (ms : UInt32) : RttInfo :=
  let p := { p with rtt := ms.toNat / 1000 }
  let delta := p.rtt - p.srtt
  let p := { p with srtt := p.srtt + delta / 8 }
  let delta := if delta < 0 then -delta else delta
  let p := { p with rttvar := p.rttvar + (delta - p.rttvar) / 4 }
  { p with rto := minmax p.rtoCalc }

/-- `rtt_timeout` and its result. -/
def timeout (p : RttInfo) : Int × RttInfo :=
  let p := { p with rto := p.rto * 2, nrexmt := p.nrexmt + 1 }
  (if p.nrexmt > RTT_MAXNREXMT then -1 else 0,p)

end RttInfo

inductive RttCall where
  | newpack : RttCall
  | start : RttCall
  | stop (ms : UInt32) : RttCall
  | timeout : RttCall
  deriving DecidableEq, Repr

/-- A struct and the samples that it was given. -/
structure RttUse where
  info : RttInfo
  samples : List ℚ
  deriving DecidableEq

namespace RttUse

def step (s : RttUse) : RttCall → Option RttUse
  | .newpack => some { s with info := s.info.newpack }
  | .start => some s
  | .stop ms => some ⟨s.info.stop ms,s.samples ++ [(ms.toNat / 1000 : ℚ)]⟩
  | .timeout => some { s with info := s.info.timeout.2 }

end RttUse

/-- Any calls after `rtt_init`. -/
def rttUse (p : RttInfo) (now : Timeval) : Machine RttUse RttCall :=
  ⟨⟨p.init now,[]⟩,RttUse.step⟩

/-- The estimators, and the lower bound of the timer. -/
structure RttUse.Estimates (s : RttUse) : Prop where
  srtt : 0 ≤ s.info.srtt
  rttvar : 0 ≤ s.info.rttvar
  largest : s.samples = [] ∧ s.info.srtt = 0 ∨ ∃ x ∈ s.samples, s.info.srtt ≤ x
  least : RTT_RXTMIN ≤ s.info.rto ∧ RTT_RXTMIN ≤ s.info.start

structure RttUse.Bounded (s : RttUse) : Prop extends s.Estimates where
  most : s.info.rto ≤ RTT_RXTMAX ∧ s.info.start ≤ RTT_RXTMAX

namespace RttInfo
variable {p : RttInfo}

theorem minmax_bounds (rto : ℚ) : RTT_RXTMIN ≤ minmax rto ∧ minmax rto ≤ RTT_RXTMAX := by
  have hle : RTT_RXTMIN ≤ RTT_RXTMAX := by norm_num [RTT_RXTMIN,RTT_RXTMAX]
  unfold minmax
  split
  · exact ⟨le_refl _,hle⟩
  · rename_i hmin
    split
    · exact ⟨hle,le_refl _⟩
    · rename_i hmax
      exact ⟨not_lt.mp hmin,not_lt.mp hmax⟩

theorem trunc_floor {x : ℚ} (h : 0 ≤ x) : trunc x = ⌊x⌋ := by
  rw [trunc,Rat.floor_def',Int.tdiv_eq_ediv_of_nonneg (Rat.num_nonneg.mpr h)]

theorem start_floor (h : RTT_RXTMIN ≤ p.rto) : p.start = ⌊p.rto + 1 / 2⌋ := by
  unfold RTT_RXTMIN at h
  exact trunc_floor (by linarith)

theorem le_start (h : RTT_RXTMIN ≤ p.rto) : RTT_RXTMIN ≤ p.start := by
  rw [start_floor h]
  unfold RTT_RXTMIN at h ⊢
  have hlow : (2 : Int) ≤ ⌊p.rto + 1 / 2⌋ := Int.le_floor.mpr (by push_cast; linarith)
  exact_mod_cast hlow

theorem start_le (h : RTT_RXTMIN ≤ p.rto) (hmax : p.rto ≤ RTT_RXTMAX) : p.start ≤ RTT_RXTMAX := by
  rw [start_floor h]
  unfold RTT_RXTMAX at hmax ⊢
  have hhigh : ⌊p.rto + 1 / 2⌋ < (61 : Int) := Int.floor_lt.mpr (by push_cast; linarith)
  exact_mod_cast Int.lt_add_one_iff.mp hhigh

theorem stop_srtt (ms : UInt32) : (p.stop ms).srtt = toward (1 / 8) p.srtt (ms.toNat / 1000) := by
  simp only [stop,toward]
  ring

theorem stop_rttvar (ms : UInt32) :
    (p.stop ms).rttvar = toward (1 / 4) p.rttvar |(ms.toNat / 1000 : ℚ) - p.srtt| := by
  have habs : ∀ x : ℚ, (if x < 0 then -x else x) = |x| := fun x => by
    split
    · rename_i hneg
      rw [abs_of_neg hneg]
    · rename_i hpos
      rw [abs_of_nonneg (not_lt.mp hpos)]
  simp only [stop,habs,toward]
  ring

end RttInfo

namespace RttUse
variable {p : RttInfo} {now : Timeval} {s t : RttUse}

structure Inv (s : RttUse) : Prop where
  samples : ∀ x ∈ s.samples, 0 ≤ x
  srtt : s.info.srtt = smooth (1 / 8) 0 s.samples
  rttvar : 0 ≤ s.info.rttvar
  rto : RTT_RXTMIN ≤ s.info.rto

theorem Inv.estimates (h : s.Inv) : s.Estimates := by
  refine ⟨?_,h.rttvar,?_,h.rto,RttInfo.le_start h.rto⟩
  · rw [h.srtt]
    exact le_smooth (by norm_num) (by norm_num) (le_refl 0) h.samples
  · by_cases hnone : s.samples = []
    · exact .inl ⟨hnone,by rw [h.srtt,hnone]; rfl⟩
    · rw [h.srtt]
      exact .inr (smooth_le_sample (by norm_num) (by norm_num) hnone h.samples)

theorem init_inv : (rttUse p now).init.Inv :=
  ⟨nofun,rfl,by norm_num [rttUse,RttInfo.init],(RttInfo.minmax_bounds _).1⟩

theorem step_inv (s : RttUse) (a : RttCall) (t : RttUse) (h : s.Inv) (ht : s.step a = some t) :
    t.Inv := by
  cases a with
  | newpack =>
    cases ht
    exact ⟨h.samples,h.srtt,h.rttvar,h.rto⟩
  | start =>
    cases ht
    exact h
  | stop ms =>
    cases ht
    have hsample : (0 : ℚ) ≤ ms.toNat / 1000 := by positivity
    refine ⟨fun x hx => ?_,?_,?_,(RttInfo.minmax_bounds _).1⟩
    · rcases List.mem_append.mp hx with hx | hx
      · exact h.samples x hx
      · rw [List.mem_singleton.mp hx]
        exact hsample
    · rw [smooth_append,← h.srtt]
      exact RttInfo.stop_srtt ms
    · rw [RttInfo.stop_rttvar]
      exact le_toward (by norm_num) (by norm_num) h.rttvar (abs_nonneg _)
  | timeout =>
    cases ht
    refine ⟨h.samples,h.srtt,h.rttvar,?_⟩
    have hmin := h.rto
    unfold RTT_RXTMIN at hmin ⊢
    simp only [RttInfo.timeout]
    linarith

/-- Only a time-out can bring the timer past its maximum. -/
theorem step_most {a : RttCall} (h : s.info.rto ≤ RTT_RXTMAX)
    (htimeout : a = .timeout → s.info.rto ≤ RTT_RXTMAX / 2) (ht : s.step a = some t) :
    t.info.rto ≤ RTT_RXTMAX := by
  cases a with
  | newpack =>
    cases ht
    exact h
  | start =>
    cases ht
    exact h
  | stop ms =>
    cases ht
    exact (RttInfo.minmax_bounds _).2
  | timeout =>
    cases ht
    have hle := htimeout rfl
    simp only [RttInfo.timeout]
    linarith

theorem run_most {as : List RttCall} (hs : (rttUse p now).run (rttUse p now).init as = some s)
    (h : ∀ q, (q,.timeout) ∈ (rttUse p now).trace (rttUse p now).init as →
      q.info.rto ≤ RTT_RXTMAX / 2) : s.info.rto ≤ RTT_RXTMAX := by
  have hstep : ∀ s a t, (rttUse p now).Reachable s → s.info.rto ≤ RTT_RXTMAX →
      ¬ (a = .timeout ∧ ¬ s.info.rto ≤ RTT_RXTMAX / 2) → (rttUse p now).step s a = some t →
        t.info.rto ≤ RTT_RXTMAX := fun s a t _ hle hgood ht =>
    step_most hle (fun ha => not_not.mp fun hbad => hgood ⟨ha,hbad⟩) ht
  refine Machine.avoiding_invariant (RttInfo.minmax_bounds _).2 hstep hs fun q a hq hbad => ?_
  obtain ⟨rfl,hbad⟩ := hbad
  exact hbad (h q hq)

theorem reachable_inv (h : (rttUse p now).Reachable s) : s.Inv := h.invariant init_inv step_inv

end RttUse

/-- The estimators and the lower bound are always right. The upper bound holds throughout a run
exactly when no time-out doubles a timer of more than half of it. -/
theorem rtt_bounded_iff (p : RttInfo) (now : Timeval) :
    (∀ s, (rttUse p now).Reachable s → s.Estimates) ∧
    ∀ as, (∀ bs s, bs <+: as → (rttUse p now).run (rttUse p now).init bs = some s → s.Bounded) ↔
      ∀ s, (s,.timeout) ∈ (rttUse p now).trace (rttUse p now).init as →
        s.info.rto ≤ RTT_RXTMAX / 2 := by
  refine ⟨fun s hs => (RttUse.reachable_inv hs).estimates,fun as => ⟨fun h s hs => ?_,
    fun h bs s hbs hrun => ?_⟩⟩
  · obtain ⟨bs,cs,rfl,hrun⟩ := Machine.mem_trace_iff.mp hs
    have hnext : (rttUse p now).run (rttUse p now).init (bs ++ [.timeout]) =
        some { s with info := s.info.timeout.2 } := by
      rw [Machine.run_append,hrun]
      rfl
    have hmax := (h (bs ++ [.timeout]) _ ⟨cs,by simp⟩ hnext).most.1
    simp only [RttInfo.timeout] at hmax
    linarith
  · have hinv := RttUse.reachable_inv ⟨bs,hrun⟩
    have hmax := RttUse.run_most hrun fun q hq => h q (Machine.trace_subset hbs hq)
    exact ⟨hinv.estimates,hmax,RttInfo.start_le hinv.rto hmax⟩

/-- Five time-outs in a row. -/
theorem rtt_unbounded : ¬ ∀ (p : RttInfo) (now : Timeval) (s : RttUse),
    (rttUse p now).Reachable s → s.Bounded := by
  intro h
  let p : RttInfo := ⟨0,0,0,0,0,0⟩
  have hmax := (h p ⟨0,0⟩ _ ⟨[.timeout,.timeout,.timeout,.timeout,.timeout],rfl⟩).most.1
  revert hmax
  decide +kernel

end UnixNet
