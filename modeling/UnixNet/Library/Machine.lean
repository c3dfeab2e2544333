import Mathlib.Logic.Relation
import Mathlib.Data.List.Basic
set_option autoImplicit false

/-!
Machines driven by actions. A step may be refused, so that a state in which
every step is refused is one where the modelled program waits.
-/

universe u v

/-- `init` is the state before the first action; `step s a = none` means that
the action `a` cannot happen in `s`. -/
structure Machine (σ : Type u) (α : Type v) where
  init : σ
  step : σ → α → Option σ

namespace Machine
variable {σ : Type u} {α : Type v}

def run (m : Machine σ α) : σ → List α → Option σ
  | s, [] => some s
  | s, a :: as => (m.step s a).bind fun t => m.run t as

def Reachable (m : Machine σ α) (s : σ) : Prop := ∃ as, m.run m.init as = some s

@[simp] theorem run_nil (m : Machine σ α) (s : σ) : m.run s [] = some s := rfl

theorem run_cons (m : Machine σ α) (s : σ) (a : α) (as : List α) :
    m.run s (a :: as) = (m.step s a).bind fun t => m.run t as := rfl

theorem run_append (m : Machine σ α) (s : σ) (as bs : List α) :
    m.run s (as ++ bs) = (m.run s as).bind fun t => m.run t bs := by
  induction as generalizing s with
  | nil => rfl
  | cons a as ih =>
    simp only [List.cons_append,run_cons]
    cases m.step s a with
    | none => rfl
    | some t => exact ih t

theorem reachable_init (m : Machine σ α) : m.Reachable m.init := ⟨[],rfl⟩

theorem Reachable.step {m : Machine σ α} {s t : σ} {a : α}
    (hs : m.Reachable s) (h : m.step s a = some t) : m.Reachable t := by
  obtain ⟨as,has⟩ := hs
  refine ⟨as ++ [a],?_⟩
  simp [run_append,has,run_cons,h]

theorem Reachable.run {m : Machine σ α} {s t : σ} {as : List α}
    (hs : m.Reachable s) (h : m.run s as = some t) : m.Reachable t := by
  obtain ⟨bs,hbs⟩ := hs
  exact ⟨bs ++ as,by simp [run_append,hbs,h]⟩

theorem run_invariant {m : Machine σ α} {I : σ → Prop}
    (hstep : ∀ s a t, I s → m.step s a = some t → I t)
    {s t : σ} {as : List α} (hs : I s) (h : m.run s as = some t) : I t := by
  induction as generalizing s with
  | nil =>
    cases h
    exact hs
  | cons a as ih =>
    obtain ⟨u,hu,hrest⟩ := Option.bind_eq_some_iff.mp h
    exact ih (hstep s a u hs hu) hrest

theorem Reachable.invariant {m : Machine σ α} {I : σ → Prop} (h0 : I m.init)
    (hstep : ∀ s a t, I s → m.step s a = some t → I t)
    {s : σ} (hs : m.Reachable s) : I s := by
  obtain ⟨as,has⟩ := hs
  exact run_invariant hstep h0 has

/-- The actions of a run, each with the state it meets. -/
def trace (m : Machine σ α) : σ → List α → List (σ × α)
  | _, [] => []
  | s, a :: as => (s,a) :: (m.step s a).elim [] fun t => m.trace t as

theorem mem_trace_iff {m : Machine σ α} {s q : σ} {a : α} {as : List α} :
    (q,a) ∈ m.trace s as ↔ ∃ bs cs, as = bs ++ a :: cs ∧ m.run s bs = some q := by
  induction as generalizing s with
  | nil => simp [trace]
  | cons b as ih =>
    constructor
    · intro h
      rcases List.mem_cons.mp h with heq | h
      · cases heq
        exact ⟨[],as,rfl,rfl⟩
      · cases hstep : m.step s b with
        | none => simp [hstep] at h
        | some t =>
          rw [hstep] at h
          obtain ⟨bs,cs,rfl,hrun⟩ := ih.mp h
          exact ⟨b :: bs,cs,rfl,by rw [run_cons,hstep]; exact hrun⟩
    · rintro ⟨bs,cs,heq,hrun⟩
      cases bs with
      | nil =>
        cases heq
        cases hrun
        exact List.mem_cons_self
      | cons c bs =>
        cases heq
        obtain ⟨t,ht,hrest⟩ := Option.bind_eq_some_iff.mp hrun
        refine List.mem_cons_of_mem _ ?_
        rw [ht]
        exact ih.mpr ⟨bs,cs,rfl,hrest⟩

theorem mem_trace {m : Machine σ α} {s p : σ} {as : List α} (hs : m.Reachable s)
    (h : m.run s as = some p) {q : σ} {a : α} (hq : (q,a) ∈ m.trace s as) :
    m.Reachable q ∧ ∃ t, m.step q a = some t := by
  obtain ⟨bs,cs,rfl,hrun⟩ := mem_trace_iff.mp hq
  rw [run_append,hrun,Option.bind_some,run_cons] at h
  obtain ⟨t,ht,_⟩ := Option.bind_eq_some_iff.mp h
  exact ⟨hs.run hrun,t,ht⟩

theorem action_mem {m : Machine σ α} {s q : σ} {a : α} {as : List α}
    (h : (q,a) ∈ m.trace s as) : a ∈ as := by
  obtain ⟨bs,cs,rfl,_⟩ := mem_trace_iff.mp h
  exact List.mem_append_right _ List.mem_cons_self

/-- The steps of the first part of a run are among its steps. -/
theorem trace_subset {m : Machine σ α} {s q : σ} {a : α} {as bs : List α} (h : as <+: bs)
    (hq : (q,a) ∈ m.trace s as) : (q,a) ∈ m.trace s bs := by
  obtain ⟨ds,rfl⟩ := h
  obtain ⟨bs,cs,rfl,hrun⟩ := mem_trace_iff.mp hq
  exact mem_trace_iff.mpr ⟨bs,cs ++ ds,by simp,hrun⟩

/-- An invariant of a run together with the steps it is made of. -/
theorem trace_invariant {m : Machine σ α} {I : List (σ × α) → σ → Prop} (h0 : I [] m.init)
    (hstep : ∀ l s a t, I l s → m.step s a = some t → I (l ++ [(s,a)]) t)
    {as : List α} {p : σ} (h : m.run m.init as = some p) : I (m.trace m.init as) p := by
  have hrun : ∀ l s, I l s → m.run s as = some p → I (l ++ m.trace s as) p := by
    clear h
    induction as with
    | nil =>
      intro l s hl hp
      cases hp
      simpa [trace] using hl
    | cons a as ih =>
      intro l s hl hp
      obtain ⟨t,ht,hrest⟩ := Option.bind_eq_some_iff.mp hp
      have hnext := ih _ t (hstep l s a t hl ht) hrest
      simpa [trace,ht] using hnext
  exact hrun [] m.init h0 h

/-- What every step keeps that is not bad holds throughout a run without bad steps. -/
theorem avoiding_invariant {m : Machine σ α} {bad : σ → α → Prop} {I : σ → Prop} (h0 : I m.init)
    (hstep : ∀ s a t, m.Reachable s → I s → ¬ bad s a → m.step s a = some t → I t)
    {as : List α} {s : σ} (hs : m.run m.init as = some s)
    (hnone : ∀ q a, (q,a) ∈ m.trace m.init as → ¬ bad q a) : I s := by
  refine (trace_invariant
    (I := fun l s => m.Reachable s ∧ ((∀ q a, (q,a) ∈ l → ¬ bad q a) → I s))
    ⟨m.reachable_init,fun _ => h0⟩ ?_ hs).2 hnone
  intro l s a t hinv ht
  refine ⟨hinv.1.step ht,fun hall => ?_⟩
  have hl : ∀ q b, (q,b) ∈ l → ¬ bad q b := fun q b hq => hall q b (List.mem_append_left _ hq)
  have ha : ¬ bad s a := hall s a (List.mem_append_right _ (List.mem_singleton_self _))
  exact hstep s a t hinv.1 (hinv.2 hl) ha ht

theorem avoiding_trace {m : Machine σ α} {bad : σ → α → Prop} {I : σ → Prop} (h0 : I m.init)
    (hstep : ∀ s a t, m.Reachable s → I s → ¬ bad s a → m.step s a = some t → I t)
    {as : List α} (hnone : ∀ q a, (q,a) ∈ m.trace m.init as → ¬ bad q a) {q : σ} {a : α}
    (hq : (q,a) ∈ m.trace m.init as) : I q := by
  obtain ⟨bs,cs,rfl,hrun⟩ := mem_trace_iff.mp hq
  exact avoiding_invariant h0 hstep hrun fun r b hr => hnone r b (trace_subset ⟨a :: cs,rfl⟩ hr)

/-- A state with the goal is reachable when every state short of the goal has
a step that keeps the invariant and lowers the rank. -/
theorem reaches_of_rank {m : Machine σ α} {I G : σ → Prop} (rank : σ → Nat)
    (hprogress : ∀ s, I s → ¬ G s →
      ∃ a t, m.step s a = some t ∧ I t ∧ rank t < rank s)
    {s : σ} (hI : I s) (hs : m.Reachable s) : ∃ t, m.Reachable t ∧ I t ∧ G t := by
  induction hr : rank s using Nat.strongRecOn generalizing s with
  | ind r ih =>
    by_cases hg : G s
    · exact ⟨s,hs,hI,hg⟩
    · obtain ⟨a,t,ht,hIt,hlt⟩ := hprogress s hI hg
      exact ih (rank t) (by omega) hIt (hs.step ht) rfl

end Machine
