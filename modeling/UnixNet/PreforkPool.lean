import UnixNet.WebChild
set_option autoImplicit false

/-! The pool of `model_serv02`: the parent forks its children and then pauses. -/

namespace UnixNet

/-- The children forked so far. The parent takes no part once all are started. -/
structure Pool where
  children : List Worker

inductive PoolAct where
  | fork : PoolAct
  | child (i : Nat) (a : WorkerAct) : PoolAct

def Pool.step (childrenNum : Int) (p : Pool) : PoolAct → Option Pool
  | .fork =>
    if (p.children.length : Int) < childrenNum then some ⟨p.children ++ [.init]⟩ else none
  | .child i a =>
    match p.children[i]? with
    | some w => (w.step a).map fun v => ⟨p.children.set i v⟩
    | none => none

/-- `model_serv02` until the parent gets SIGINT. -/
def modelServ02 (childrenNum : Int) : Machine Pool PoolAct := ⟨⟨[]⟩,Pool.step childrenNum⟩

/-- Serving a connection, or back in `Accept`. -/
def Worker.InPool (w : Worker) : Prop := w.pc = .accept ∨ ∃ rest, w.pc = .serve rest

/-- No read or write on the connection failed and each line parsed on it asks for
1 to `MAXN` bytes. -/
def Served.Clean (c : Served) : Prop := c.failed = false ∧ ∀ line ∈ c.lines, wellFormed line

/-- Every child of the pool runs `child_main` on its own. -/
def Pool.Independent (p : Pool) : Prop := ∀ w ∈ p.children, childMain.Reachable w

theorem independent_step {n : Int} (p : Pool) (a : PoolAct) (q : Pool)
    (hp : p.Independent) (h : p.step n a = some q) : q.Independent := by
  cases a with
  | fork =>
    simp only [Pool.step] at h
    split at h
    · cases h
      intro w hw
      rcases List.mem_append.mp hw with hw | hw
      · exact hp w hw
      · rw [List.mem_singleton.mp hw]
        exact childMain.reachable_init
    · cases h
  | child i a =>
    simp only [Pool.step] at h
    split at h
    · rename_i w hi
      obtain ⟨v,hv,rfl⟩ := Option.map_eq_some_iff.mp h
      intro u hu
      rcases List.mem_or_eq_of_mem_set hu with hu | rfl
      · exact hp u hu
      · exact (hp w (List.mem_of_getElem? hi)).step hv
    · cases h

theorem pool_children {n : Int} {p : Pool} (h : (modelServ02 n).Reachable p) :
    p.Independent :=
  h.invariant (fun _ hw => absurd hw List.not_mem_nil) independent_step

/-- A worker leaves on the first pass that fails or meets a malformed line. -/
def Worker.Lasting (w : Worker) : Prop := w.InPool ↔ ∀ c ∈ w.served, c.Clean

theorem servePass_lasting {c : Served} {cs : List Served} (writen : Bool) (r : ReadlineResult)
    (hc : c.Clean) (hcs : ∀ d ∈ cs, d.Clean) : (servePass c cs writen r).Lasting := by
  have hp := webChild_pass r
  unfold servePass Worker.Lasting
  generalize webChild r = out at hp
  cases hp with
  | returned _ => exact iff_of_true (.inl rfl) (List.forall_mem_cons.mpr ⟨hc,hcs⟩)
  | readlineError _ =>
    refine iff_of_false (by simp [Worker.InPool]) fun h => ?_
    simpa using (List.forall_mem_cons.mp h).1.1
  | quit _ hbad =>
    refine iff_of_false (by simp [Worker.InPool]) fun h => ?_
    have hline := (List.forall_mem_cons.mp h).1.2 r.line (by simp)
    simp [hbad] at hline
  | reply _ hgood =>
    cases writen with
    | false =>
      refine iff_of_false (by simp [Worker.InPool]) fun h => ?_
      simpa using (List.forall_mem_cons.mp h).1.1
    | true =>
      refine iff_of_true (.inr ⟨r.rest,rfl⟩) (List.forall_mem_cons.mpr ⟨⟨rfl,?_⟩,hcs⟩)
      intro line hline
      rcases List.mem_append.mp hline with hline | hline
      · exact hc.2 line hline
      · rw [List.mem_singleton.mp hline]
        exact hgood

theorem lasting_init : Worker.init.Lasting := iff_of_true (.inl rfl) nofun

theorem lasting_step (w : Worker) (a : WorkerAct) (v : Worker) (hw : w.Lasting)
    (h : w.step a = some v) : v.Lasting := by
  cases a with
  | accept arrivals =>
    obtain ⟨hpc,rfl⟩ := step_accept h
    have hclean := hw.mp (.inl hpc)
    exact iff_of_true (.inr ⟨arrivals,rfl⟩)
      (List.forall_mem_cons.mpr ⟨⟨rfl,by simp⟩,hclean⟩)
  | pass writen =>
    obtain ⟨rest,c,cs,hpc,hserved,rfl⟩ := step_pass h
    have hclean := hw.mp (.inr ⟨rest,hpc⟩)
    rw [hserved,List.forall_mem_cons] at hclean
    exact servePass_lasting writen _ hclean.1 hclean.2

theorem childMain_lasting {w : Worker} (h : childMain.Reachable w) : w.Lasting :=
  h.invariant lasting_init lasting_step

/-- One client line "x" is enough to lose a worker. -/
theorem pool_shrinks : ¬ ∀ (n : Int) (p : Pool), (modelServ02 n).Reachable p →
    ∀ w ∈ p.children, w.InPool := by
  intro h
  have hp : (modelServ02 1).Reachable _ := ⟨[.fork,.child 0 (.accept [.data 120 [10]]),
    .child 0 (.pass true)],rfl⟩
  rcases h 1 _ hp _ (List.mem_singleton.mpr rfl) with hpc | ⟨rest,hpc⟩ <;> cases hpc

/-- A child is in the pool exactly as long as the connections it took were clean;
the lines that decide this are bytes its clients sent. -/
theorem pool_child_leaves_iff {n : Int} {p : Pool} (h : (modelServ02 n).Reachable p)
    {w : Worker} (hw : w ∈ p.children) :
    (w.InPool ↔ ∀ c ∈ w.served, c.Clean) ∧ ∀ c ∈ w.served, c.Own :=
  have hr := pool_children h w hw
  ⟨childMain_lasting hr,(childMain_isolated hr).own⟩

/-- The second of two children takes a connection that carries "x". -/
theorem pool_child_leaves_iff_bad :
    let acts := [.fork,.fork,.child 1 (.accept [.data 120 [10]]),.child 1 (.pass true)]
    ∃ p, (modelServ02 2).run ⟨[]⟩ acts = some p ∧
      ∃ w ∈ p.children, ¬ w.InPool ∧ ¬ ∀ c ∈ w.served, c.Clean := by
  intro acts
  refine ⟨_,rfl,_,List.mem_cons_of_mem _ (List.mem_singleton.mpr rfl),?_⟩
  have hiff := (pool_child_leaves_iff (n := 2) ⟨acts,rfl⟩
    (List.mem_cons_of_mem _ (List.mem_singleton.mpr rfl))).1
  rw [← hiff,and_self]
  rintro (hpc | ⟨rest,hpc⟩) <;> cases hpc

end UnixNet
