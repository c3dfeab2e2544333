import UnixNet.Library.Family
import UnixNet.Library.Machine
import UnixNet.NonblockWeb
set_option autoImplicit false

/-! web03: the main thread, which joins the threads that are done, and a thread for each file. -/

namespace UnixNet

/-- Main has joined the thread. -/
def F_JOINED : Nat := 8

/-- `reading` and `done` have yet to set `F_READING` and `F_DONE`; `lock` to `unlock` are the
section of `ndone_mutex`. -/
inductive GetReadPc where
  | absent : GetReadPc
  | reading : GetReadPc
  | done : GetReadPc
  | lock : GetReadPc
  | incr : GetReadPc
  | signal : GetReadPc
  | unlock : GetReadPc
  | ret : GetReadPc
  | terminated : GetReadPc
  deriving DecidableEq, Repr

/-- A file and the thread that reads it. -/
structure WebThread where
  f_flags : Nat
  pc : GetReadPc
  deriving DecidableEq, Repr

/-- `find i` and `scan i` are about to read `file[i].f_flags`. In `wait` the main thread has
given up the mutex, in `woken` it has yet to get it again. -/
inductive Web03Pc where
  | outer : Web03Pc
  | inner : Web03Pc
  | find (i : Nat) : Web03Pc
  | mark (i : Nat) : Web03Pc
  | create (i : Nat) : Web03Pc
  | lock : Web03Pc
  | test : Web03Pc
  | wait : Web03Pc
  | woken : Web03Pc
  | scan (i : Nat) : Web03Pc
  | join (i : Nat) : Web03Pc
  | joined (i : Nat) : Web03Pc
  | unlock : Web03Pc
  | exited : Web03Pc
  deriving DecidableEq, Repr

inductive Web03Owner where
  | main : Web03Owner
  | thread (i : Nat) : Web03Owner
  deriving DecidableEq, Repr

structure Web03 where
  main : Web03Pc
  files : List WebThread
  nconn : Int
  nlefttoconn : Int
  nlefttoread : Int
  ndone : Int
  ndone_mutex : Option Web03Owner
  deriving DecidableEq, Repr

/-- The main thread goes on; a thread goes on; a call of a thread fails, which ends the process;
the main thread is woken without a signal. -/
inductive Web03Act where
  | main : Web03Act
  | thread (i : Nat) : Web03Act
  | fail (i : Nat) : Web03Act
  | spurious : Web03Act
  deriving DecidableEq, Repr

namespace Web03

def setFile (s : Web03) (i : Nat) (f : WebThread) : Web03 := { s with files := s.files.set i f }

/-- `main` from its outer loop on. -/
def mainStep (maxnconn : Int) (s : Web03) : Option Web03 :=
  match s.main with
  | .outer => some { s with main := if s.nlefttoread > 0 then .inner else .exited }
  | .inner => some { s with
      main := if s.nconn < maxnconn ∧ s.nlefttoconn > 0 then .find 0 else .lock }
  | .find i =>
    match s.files[i]? with
    | none => some { s with main := .exited }
    | some f => some { s with main := if f.f_flags = 0 then .mark i else .find (i + 1) }
  | .mark i => s.files[i]?.map fun f =>
      { s.setFile i { f with f_flags := F_CONNECTING } with main := .create i }
  | .create i => s.files[i]?.map fun f =>
      { s.setFile i { f with pc := .reading } with
        main := .inner, nconn := s.nconn + 1, nlefttoconn := s.nlefttoconn - 1 }
  | .lock | .woken =>
    if s.ndone_mutex = none then some { s with main := .test, ndone_mutex := some .main } else none
  | .test =>
    if s.ndone = 0 then some { s with main := .wait, ndone_mutex := none }
    else some { s with main := .scan 0 }
  | .wait => none
  | .scan i =>
    match s.files[i]? with
    | none => some { s with main := .unlock }
    | some f => some { s with
        main := if f.f_flags &&& F_DONE ≠ 0 then .join i else .scan (i + 1) }
  | .join i => s.files[i]?.bind fun f =>
      -- The thread returns its own `fptr`, so that the check of `fptr` never fails.
      if f.pc = .terminated then some { s with main := .joined i } else none
  | .joined i => s.files[i]?.map fun f =>
      { s.setFile i { f with f_flags := F_JOINED } with
        main := .scan (i + 1)
        ndone := s.ndone - 1
        nconn := s.nconn - 1
        nlefttoread := s.nlefttoread - 1 }
  | .unlock => some { s with main := .outer, ndone_mutex := none }
  | .exited => none

/-- `do_get_read`, with `write_get_cmd`, in thread `i`. -/
def threadStep (s : Web03) (i : Nat) (f : WebThread) : Option Web03 :=
  match f.pc with
  | .absent | .terminated => none
  | .reading => some (s.setFile i ⟨F_READING,.done⟩)
  | .done => some (s.setFile i ⟨F_DONE,.lock⟩)
  | .lock =>
    if s.ndone_mutex = none then
      some { s.setFile i { f with pc := .incr } with ndone_mutex := some (.thread i) }
    else none
  | .incr => some { s.setFile i { f with pc := .signal } with ndone := s.ndone + 1 }
  | .signal => some { s.setFile i { f with pc := .unlock } with
      main := if s.main = .wait then .woken else s.main }
  | .unlock => some { s.setFile i { f with pc := .ret } with ndone_mutex := none }
  | .ret => some (s.setFile i { f with pc := .terminated })

def step (maxnconn : Int) (s : Web03) (a : Web03Act) : Option Web03 :=
  if s.main = .exited then none
  else
    match a with
    | .main => s.mainStep maxnconn
    | .thread i => s.files[i]?.bind (s.threadStep i)
    | .fail i => s.files[i]?.bind fun f =>
        if f.pc = .reading ∨ f.pc = .done then some { s with main := .exited } else none
    | .spurious => if s.main = .wait then some { s with main := .woken } else none

end Web03

/-- web03 after `home_page`, called with `n` files. -/
def web03 (n : Nat) (maxnconn : Int) : Machine Web03 Web03Act :=
  let nfiles := min n MAXFILES
  ⟨⟨.outer,List.replicate nfiles ⟨0,.absent⟩,0,nfiles,nfiles,0,none⟩,Web03.step maxnconn⟩

/-- The thread is created and has yet to get the mutex. -/
def GetReadPc.Before (pc : GetReadPc) : Prop := pc = .reading ∨ pc = .done ∨ pc = .lock

instance GetReadPc.decidableBefore (pc : GetReadPc) : Decidable pc.Before :=
  inferInstanceAs (Decidable (_ ∨ _))

namespace Web03

/-- Main holds `ndone_mutex` and joins a thread that has yet to get it. -/
def Deadlocked (s : Web03) : Prop :=
  s.ndone_mutex = some .main ∧ ∃ i f, s.main = .join i ∧ s.files[i]? = some f ∧ f.pc.Before

/-- Main reads `F_DONE` of a file whose thread has yet to get the mutex. -/
def Premature (s : Web03) (a : Web03Act) : Prop :=
  a = .main ∧ ∃ i f, s.main = .scan i ∧ s.files[i]? = some f ∧ f.f_flags &&& F_DONE ≠ 0 ∧
    f.pc.Before

end Web03

/-- The thread is counted in `nconn` and not yet in `ndone`. -/
def WebThread.Pending (f : WebThread) : Prop := f.pc.Before ∨ f.pc = .incr

/-- The thread is counted in `ndone`. -/
def WebThread.Counted (f : WebThread) : Prop :=
  (f.pc = .signal ∨ f.pc = .unlock ∨ f.pc = .ret ∨ f.pc = .terminated) ∧ f.f_flags ≠ F_JOINED

instance WebThread.decidablePending (f : WebThread) : Decidable f.Pending :=
  inferInstanceAs (Decidable (_ ∨ _))

instance WebThread.decidableCounted (f : WebThread) : Decidable f.Counted :=
  inferInstanceAs (Decidable (_ ∧ _))

def GetReadPc.Holds (pc : GetReadPc) : Prop := pc = .incr ∨ pc = .signal ∨ pc = .unlock

/-- The flags that go with the program point of the thread. -/
def WebThread.Ok (f : WebThread) : Prop :=
  match f.pc with
  | .absent => f.f_flags = 0 ∨ f.f_flags = F_CONNECTING
  | .reading => f.f_flags = F_CONNECTING
  | .done => f.f_flags = F_READING
  | .lock | .incr | .signal | .unlock | .ret => f.f_flags = F_DONE
  | .terminated => f.f_flags = F_DONE ∨ f.f_flags = F_JOINED

namespace Web03

/-- What the main thread knows at its program point. -/
def Knows (maxnconn : Int) (s : Web03) : Prop :=
  match s.main with
  | .find _ => s.nconn < maxnconn ∧ 0 < s.nlefttoconn
  | .mark i => (s.nconn < maxnconn ∧ 0 < s.nlefttoconn) ∧ s.files[i]? = some ⟨0,.absent⟩
  | .create i => (s.nconn < maxnconn ∧ 0 < s.nlefttoconn) ∧
      s.files[i]? = some ⟨F_CONNECTING,.absent⟩
  | .test | .scan _ | .unlock => s.ndone_mutex = some .main
  | .join i => s.ndone_mutex = some .main ∧ ∃ f, s.files[i]? = some f ∧ f.f_flags = F_DONE
  | .joined i => s.ndone_mutex = some .main ∧ s.files[i]? = some ⟨F_DONE,.terminated⟩
  | _ => True

structure Inv (maxnconn nfiles : Int) (s : Web03) : Prop where
  ok : ∀ f ∈ s.files, f.Ok
  ndone : s.ndone = s.files.countP fun f => f.Counted
  nconn : s.nconn = s.ndone + s.files.countP fun f => f.Pending
  limit : s.nconn ≤ max maxnconn 0 ∧ 0 ≤ s.nlefttoconn ∧ s.nconn + s.nlefttoconn ≤ nfiles
  owner : ∀ i f, s.files[i]? = some f → f.pc.Holds → s.ndone_mutex = some (.thread i)
  knows : s.Knows maxnconn

variable {s t : Web03} {maxnconn nfiles : Int} {i : Nat} {f f' : WebThread}

theorem init_inv (n : Nat) : Inv maxnconn (min n MAXFILES : Nat) (web03 n maxnconn).init := by
  have hmem : ∀ f ∈ List.replicate (min n MAXFILES) (⟨0,.absent⟩ : WebThread), f = ⟨0,.absent⟩ :=
    fun f hf => (List.mem_replicate.mp hf).2
  refine ⟨fun f hf => ?_,?_,?_,?_,fun i f hi hf => ?_,trivial⟩
  · rw [hmem f hf]
    exact .inl rfl
  · simp [web03,List.countP_replicate,WebThread.Counted]
  · simp [web03,List.countP_replicate,WebThread.Pending,GetReadPc.Before]
  · simp only [web03]
    omega
  · rw [hmem f (List.mem_of_getElem? hi)] at hf
    simp [GetReadPc.Holds] at hf

/-- A step of a thread that leaves the counters alone. -/
structure Quiet (f f' : WebThread) : Prop where
  ok : f'.Ok
  counted : f'.Counted ↔ f.Counted
  pending : f'.Pending ↔ f.Pending

theorem Quiet.countP_counted (h : Quiet f f') (hi : s.files[i]? = some f) :
    (s.files.set i f').countP (fun f => f.Counted) = s.files.countP fun f => f.Counted :=
  Family.countP_same hi (by simp [h.counted])

theorem Quiet.countP_pending (h : Quiet f f') (hi : s.files[i]? = some f) :
    (s.files.set i f').countP (fun f => f.Pending) = s.files.countP fun f => f.Pending :=
  Family.countP_same hi (by simp [h.pending])

/-- Another thread that holds the mutex still does. -/
theorem owner_set {mutex : Option Web03Owner} (h : Inv maxnconn nfiles s)
    (hi : s.files[i]? = some f)
    (hself : f'.pc.Holds → mutex = some (.thread i))
    (hother : ∀ j, j ≠ i → s.ndone_mutex = some (.thread j) → mutex = some (.thread j)) :
    ∀ j g, (s.files.set i f')[j]? = some g → g.pc.Holds → mutex = some (.thread j) := by
  intro j g hj hg
  rw [Family.getElem?_set hi] at hj
  split at hj
  · rename_i hij
    cases hj
    exact hij ▸ hself hg
  · rename_i hij
    exact hother j (Ne.symm hij) (h.owner j g hj hg)

/-- A thread that goes on spoils nothing that the main thread knows. -/
theorem knows_thread {mutex : Option Web03Owner} {ndone : Int} (h : s.Knows maxnconn)
    (hi : s.files[i]? = some f) (hlive : f.pc ≠ .absent ∧ f.pc ≠ .terminated)
    (hdone : f.f_flags = F_DONE → f'.f_flags = F_DONE)
    (hmutex : s.ndone_mutex = some .main → mutex = some .main) :
    Knows maxnconn { s.setFile i f' with ndone := ndone, ndone_mutex := mutex } := by
  have hother : ∀ (j : Nat) (g : WebThread), s.files[j]? = some g → g.pc = .absent ∨
      g.pc = .terminated → (s.files.set i f')[j]? = some g := by
    intro j g hj hg
    rw [Family.getElem?_set hi]
    split
    · rename_i hij
      rw [← hij,hi] at hj
      cases hj
      exact absurd hg (by simp [hlive])
    · exact hj
  unfold Knows at h ⊢
  cases hmain : s.main
  all_goals simp only [setFile,hmain] at h ⊢
  case find => exact h
  case mark j => exact ⟨h.1,hother j _ h.2 (.inl rfl)⟩
  case create j => exact ⟨h.1,hother j _ h.2 (.inl rfl)⟩
  case test => exact hmutex h
  case scan => exact hmutex h
  case unlock => exact hmutex h
  case joined j => exact ⟨hmutex h.1,hother j _ h.2 (.inr rfl)⟩
  case join j =>
    obtain ⟨hm,g,hj,hg⟩ := h
    refine ⟨hmutex hm,?_⟩
    rw [Family.getElem?_set hi]
    split
    · rename_i hij
      rw [← hij,hi] at hj
      cases hj
      exact ⟨f',rfl,hdone hg⟩
    · exact ⟨g,hj,hg⟩

theorem quiet_inv {mutex : Option Web03Owner} (h : Inv maxnconn nfiles s)
    (hi : s.files[i]? = some f)
    (hlive : f.pc ≠ .absent ∧ f.pc ≠ .terminated) (hquiet : Quiet f f')
    (hdone : f.f_flags = F_DONE → f'.f_flags = F_DONE)
    (hmutex : s.ndone_mutex = some .main → mutex = some .main)
    (hself : f'.pc.Holds → mutex = some (.thread i))
    (hother : ∀ j, j ≠ i → s.ndone_mutex = some (.thread j) → mutex = some (.thread j)) :
    Inv maxnconn nfiles { s.setFile i f' with ndone_mutex := mutex } := by
  refine ⟨Family.forall_set h.ok hquiet.ok,?_,?_,?_,owner_set h hi hself hother,
    knows_thread h.knows hi hlive hdone hmutex⟩
  · simp only [setFile]
    rw [hquiet.countP_counted hi]
    exact h.ndone
  · simp only [setFile]
    rw [hquiet.countP_pending hi]
    exact h.nconn
  · exact h.limit

/-- Waking the main thread leaves it nothing to know. -/
theorem wake_inv (h : Inv maxnconn nfiles s) :
    Inv maxnconn nfiles { s with main := if s.main = .wait then .woken else s.main } := by
  refine ⟨h.ok,h.ndone,h.nconn,h.limit,h.owner,?_⟩
  split
  · trivial
  · exact h.knows

theorem incr_inv (h : Inv maxnconn nfiles s) (hi : s.files[i]? = some f) (hpc : f.pc = .incr) :
    Inv maxnconn nfiles { s.setFile i { f with pc := .signal } with ndone := s.ndone + 1 } := by
  have hok := h.ok f (List.mem_of_getElem? hi)
  simp only [WebThread.Ok,hpc] at hok
  have hmutex := h.owner i f hi (.inl hpc)
  have hnot : ¬ f.Counted := by simp [WebThread.Counted,hpc]
  have hcounted : WebThread.Counted { f with pc := .signal } := by
    simp [WebThread.Counted,hok,F_DONE,F_JOINED]
  have hpending : f.Pending := .inr hpc
  have hgone : ¬ WebThread.Pending { f with pc := .signal } := by
    simp [WebThread.Pending,GetReadPc.Before]
  have hgain := Family.countP_gain (p := fun f => decide f.Counted) (y := { f with pc := .signal })
    hi (decide_eq_false hnot) (decide_eq_true hcounted)
  have hloss := Family.countP_loss (p := fun f => decide f.Pending) (y := { f with pc := .signal })
    hi (decide_eq_true hpending) (decide_eq_false hgone)
  have hndone := h.ndone
  have hnconn := h.nconn
  refine ⟨Family.forall_set h.ok ?_,?_,?_,?_,owner_set h hi (fun _ => hmutex) fun _ _ hj => hj,
    knows_thread h.knows hi (by simp [hpc]) id id⟩
  · simpa [WebThread.Ok] using hok
  · simp only [setFile]
    omega
  · simp only [setFile]
    omega
  · exact h.limit

theorem thread_inv (h : Inv maxnconn nfiles s) (hi : s.files[i]? = some f)
    (ht : s.threadStep i f = some t) : Inv maxnconn nfiles t := by
  have hok := h.ok f (List.mem_of_getElem? hi)
  have hholds := h.owner i f hi
  cases hpc : f.pc
  all_goals simp only [threadStep,hpc] at ht
  all_goals simp only [WebThread.Ok,hpc] at hok
  case absent => cases ht
  case terminated => cases ht
  case reading =>
    cases ht
    refine quiet_inv h hi (by simp [hpc]) ⟨rfl,?_,?_⟩ ?_ id (by simp [GetReadPc.Holds])
      fun _ _ hj => hj
    · simp [WebThread.Counted,hpc]
    · simp [WebThread.Pending,GetReadPc.Before,hpc]
    · simp [hok,F_CONNECTING,F_DONE]
  case done =>
    cases ht
    refine quiet_inv h hi (by simp [hpc]) ⟨rfl,?_,?_⟩ (fun _ => rfl) id (by simp [GetReadPc.Holds])
      fun _ _ hj => hj
    · simp [WebThread.Counted,hpc]
    · simp [WebThread.Pending,GetReadPc.Before,hpc]
  case lock =>
    obtain ⟨hfree,ht⟩ := Option.ite_none_right_eq_some.mp ht
    cases ht
    refine quiet_inv h hi (by simp [hpc]) ⟨hok,?_,?_⟩ id (by simp [hfree]) (fun _ => rfl)
      (by simp [hfree])
    · simp [WebThread.Counted,hpc]
    · simp [WebThread.Pending,GetReadPc.Before,hpc]
  case incr =>
    cases ht
    exact incr_inv h hi hpc
  case signal =>
    cases ht
    have hquiet : Quiet f { f with pc := .unlock } := ⟨hok,by simp [WebThread.Counted,hpc],
      by simp [WebThread.Pending,GetReadPc.Before,hpc]⟩
    exact wake_inv (quiet_inv h hi (by simp [hpc]) hquiet id id
      (fun _ => hholds (.inr (.inl hpc))) fun _ _ hj => hj)
  case unlock =>
    cases ht
    have hmutex := hholds (.inr (.inr hpc))
    refine quiet_inv h hi (by simp [hpc]) ⟨hok,?_,?_⟩ id (by simp [hmutex])
      (by simp [GetReadPc.Holds]) fun j hji hj => ?_
    · simp [WebThread.Counted,hpc]
    · simp [WebThread.Pending,GetReadPc.Before,hpc]
    · rw [hmutex] at hj
      cases hj
      exact absurd rfl hji
  case ret =>
    cases ht
    refine quiet_inv h hi (by simp [hpc]) ⟨.inl hok,?_,?_⟩ id id (by simp [GetReadPc.Holds])
      fun _ _ hj => hj
    · simp [WebThread.Counted,hpc]
    · simp [WebThread.Pending,GetReadPc.Before,hpc]

theorem main_inv_of {main : Web03Pc} {mutex : Option Web03Owner} (h : Inv maxnconn nfiles s)
    (howner : ∀ j, s.ndone_mutex = some (.thread j) → mutex = some (.thread j))
    (hknows : Knows maxnconn { s with main := main, ndone_mutex := mutex }) :
    Inv maxnconn nfiles { s with main := main, ndone_mutex := mutex } :=
  ⟨h.ok,h.ndone,h.nconn,h.limit,fun j g hj hg => howner j (h.owner j g hj hg),hknows⟩

theorem ok_absent (h : f.Ok) (hf : f.f_flags = 0) : f = ⟨0,.absent⟩ := by
  obtain ⟨flags,pc⟩ := f
  cases hf
  cases pc <;> simp [WebThread.Ok,F_CONNECTING,F_READING,F_DONE,F_JOINED] at h ⊢

theorem ok_done (h : f.Ok) (hf : f.f_flags &&& F_DONE ≠ 0) : f.f_flags = F_DONE := by
  unfold WebThread.Ok at h
  split at h
  · rcases h with h | h <;> exact absurd (by rw [h]; decide) hf
  · exact absurd (by rw [h]; decide) hf
  · exact absurd (by rw [h]; decide) hf
  all_goals first
    | exact h
    | exact h.resolve_right fun h => absurd (by rw [h]; decide) hf

theorem mark_inv (h : Inv maxnconn nfiles s) (hmain : s.main = .mark i) :
    Inv maxnconn nfiles { s.setFile i ⟨F_CONNECTING,.absent⟩ with main := .create i } := by
  have hknows := h.knows
  simp only [Knows,hmain] at hknows
  obtain ⟨hmore,hi⟩ := hknows
  have hquiet : Quiet ⟨0,.absent⟩ ⟨F_CONNECTING,.absent⟩ :=
    ⟨.inr rfl,by simp [WebThread.Counted],by simp [WebThread.Pending,GetReadPc.Before]⟩
  refine ⟨Family.forall_set h.ok hquiet.ok,?_,?_,?_,
    owner_set h hi (by simp [GetReadPc.Holds]) fun _ _ hj => hj,hmore,?_⟩
  · simp only [setFile]
    rw [hquiet.countP_counted hi]
    exact h.ndone
  · simp only [setFile]
    rw [hquiet.countP_pending hi]
    exact h.nconn
  · exact h.limit
  · simp [setFile,Family.getElem?_set hi]

theorem create_inv (h : Inv maxnconn nfiles s) (hmain : s.main = .create i) :
    Inv maxnconn nfiles { s.setFile i ⟨F_CONNECTING,.reading⟩ with
      main := .inner, nconn := s.nconn + 1, nlefttoconn := s.nlefttoconn - 1 } := by
  have hknows := h.knows
  simp only [Knows,hmain] at hknows
  obtain ⟨hmore,hi⟩ := hknows
  have hsame := Family.countP_same (p := fun f => decide f.Counted)
    (y := ⟨F_CONNECTING,.reading⟩) hi (by decide)
  have hgain := Family.countP_gain (p := fun f => decide f.Pending)
    (y := ⟨F_CONNECTING,.reading⟩) hi (by decide) (by decide)
  have hndone := h.ndone
  have hnconn := h.nconn
  have hlimit := h.limit
  refine ⟨Family.forall_set h.ok rfl,?_,?_,?_,
    owner_set h hi (by simp [GetReadPc.Holds]) fun _ _ hj => hj,trivial⟩
  · simp only [setFile]
    omega
  · simp only [setFile]
    omega
  · simp only
    omega

theorem joined_inv (h : Inv maxnconn nfiles s) (hmain : s.main = .joined i) :
    Inv maxnconn nfiles { s.setFile i ⟨F_JOINED,.terminated⟩ with
      main := .scan (i + 1), ndone := s.ndone - 1, nconn := s.nconn - 1,
      nlefttoread := s.nlefttoread - 1 } := by
  have hknows := h.knows
  simp only [Knows,hmain] at hknows
  obtain ⟨hmutex,hi⟩ := hknows
  have hloss := Family.countP_loss (p := fun f => decide f.Counted)
    (y := ⟨F_JOINED,.terminated⟩) hi (by decide) (by decide)
  have hsame := Family.countP_same (p := fun f => decide f.Pending)
    (y := ⟨F_JOINED,.terminated⟩) hi (by decide)
  have hndone := h.ndone
  have hnconn := h.nconn
  have hlimit := h.limit
  refine ⟨Family.forall_set h.ok (.inr rfl),?_,?_,?_,
    owner_set h hi (by simp [GetReadPc.Holds]) fun _ _ hj => hj,hmutex⟩
  · simp only [setFile]
    omega
  · simp only [setFile]
    omega
  · simp only [setFile]
    omega

theorem main_inv (h : Inv maxnconn nfiles s) (ht : s.mainStep maxnconn = some t) :
    Inv maxnconn nfiles t := by
  have hknows := h.knows
  cases hmain : s.main
  all_goals
    simp only [mainStep,hmain] at ht
    simp only [Knows,hmain] at hknows
  case outer =>
    cases ht
    refine main_inv_of h (fun _ hj => hj) ?_
    split <;> trivial
  case inner =>
    cases ht
    refine main_inv_of h (fun _ hj => hj) ?_
    split
    · rename_i hmore
      exact hmore
    · trivial
  case find =>
    split at ht
    · cases ht
      exact main_inv_of h (fun _ hj => hj) trivial
    · rename_i f hi
      cases ht
      refine main_inv_of h (fun _ hj => hj) ?_
      split
      · rename_i hzero
        exact ⟨hknows,hi.trans (congrArg some (ok_absent (h.ok f (List.mem_of_getElem? hi)) hzero))⟩
      · exact hknows
  case mark =>
    rw [hknows.2] at ht
    cases ht
    exact mark_inv h hmain
  case create =>
    rw [hknows.2] at ht
    cases ht
    exact create_inv h hmain
  case lock =>
    obtain ⟨hfree,ht⟩ := Option.ite_none_right_eq_some.mp ht
    cases ht
    exact main_inv_of h (by simp [hfree]) rfl
  case woken =>
    obtain ⟨hfree,ht⟩ := Option.ite_none_right_eq_some.mp ht
    cases ht
    exact main_inv_of h (by simp [hfree]) rfl
  case test =>
    split at ht
    · cases ht
      exact main_inv_of h (by simp [hknows]) trivial
    · cases ht
      exact main_inv_of h (fun _ hj => hj) hknows
  case wait => cases ht
  case scan =>
    split at ht
    · cases ht
      exact main_inv_of h (fun _ hj => hj) hknows
    · rename_i f hi
      cases ht
      refine main_inv_of h (fun _ hj => hj) ?_
      split
      · rename_i hdone
        exact ⟨hknows,f,hi,ok_done (h.ok f (List.mem_of_getElem? hi)) hdone⟩
      · exact hknows
  case join =>
    obtain ⟨hmutex,f,hi,hf⟩ := hknows
    obtain ⟨g,hg,ht⟩ := Option.bind_eq_some_iff.mp ht
    obtain ⟨hpc,ht⟩ := Option.ite_none_right_eq_some.mp ht
    cases ht
    cases hi.symm.trans hg
    refine main_inv_of h (fun _ hj => hj) ⟨hmutex,hi.trans ?_⟩
    rw [← hf,← hpc]
  case joined =>
    rw [hknows.2] at ht
    cases ht
    exact joined_inv h hmain
  case unlock =>
    cases ht
    exact main_inv_of h (by simp [hknows]) trivial
  case exited => cases ht

theorem step_inv {a : Web03Act} (h : Inv maxnconn nfiles s) (ht : s.step maxnconn a = some t) :
    Inv maxnconn nfiles t := by
  obtain ⟨-,ht⟩ := Option.ite_none_left_eq_some.mp ht
  cases a with
  | main => exact main_inv h ht
  | thread i =>
    obtain ⟨f,hi,hf⟩ := Option.bind_eq_some_iff.mp ht
    exact thread_inv h hi hf
  | fail i =>
    obtain ⟨f,hi,hf⟩ := Option.bind_eq_some_iff.mp ht
    obtain ⟨-,hf⟩ := Option.ite_none_right_eq_some.mp hf
    cases hf
    exact main_inv_of h (fun _ hj => hj) trivial
  | spurious =>
    obtain ⟨-,ht⟩ := Option.ite_none_right_eq_some.mp ht
    cases ht
    exact main_inv_of h (fun _ hj => hj) trivial

theorem reachable_inv {n : Nat} (h : (web03 n maxnconn).Reachable s) :
    Inv maxnconn (min n MAXFILES : Nat) s :=
  h.invariant (init_inv n) fun _ _ _ hs ht => step_inv hs ht

theorem main_join (ht : s.mainStep maxnconn = some t) (hjoin : t.main = .join i) :
    t.files = s.files ∧ s.main = .scan i ∧
      ∃ f, s.files[i]? = some f ∧ f.f_flags &&& F_DONE ≠ 0 := by
  cases hmain : s.main
  all_goals simp only [mainStep,hmain] at ht
  case scan j =>
    split at ht
    · cases ht
      cases hjoin
    · rename_i f hi
      cases ht
      split at hjoin
      · rename_i hdone
        cases hjoin
        exact ⟨rfl,rfl,f,hi,hdone⟩
      · cases hjoin
  all_goals grind

/-- Main goes over the files. -/
def Scanning (s : Web03) : Prop := ∃ i, s.main = .scan i ∨ s.main = .join i ∨ s.main = .joined i

theorem main_scanning (ht : s.mainStep maxnconn = some t) (hscan : t.Scanning) :
    t.nconn - t.ndone = s.nconn - s.ndone ∧ (s.Scanning ∨ s.main = .test ∧ s.ndone ≠ 0) := by
  obtain ⟨i,hscan⟩ := hscan
  cases hmain : s.main
  all_goals simp only [mainStep,hmain] at ht
  all_goals grind [Scanning]

/-- A thread that goes on is past the mutex once it has it, and counts in `ndone` at most. -/
theorem thread_moves (ht : s.threadStep i f = some t) :
    ∃ f', t.files = s.files.set i f' ∧ (f'.pc.Before → f.pc.Before) ∧
      (t.main = s.main ∨ t.main = .woken) ∧ t.nconn - t.ndone ≤ s.nconn - s.ndone := by
  cases hpc : f.pc
  all_goals simp only [threadStep,hpc] at ht
  case absent => cases ht
  case terminated => cases ht
  case lock =>
    obtain ⟨-,ht⟩ := Option.ite_none_right_eq_some.mp ht
    cases ht
    exact ⟨_,rfl,fun _ => .inr (.inr rfl),.inl rfl,Int.le_refl _⟩
  case signal =>
    cases ht
    refine ⟨_,rfl,by simp [GetReadPc.Before],?_,Int.le_refl _⟩
    simp only
    split
    · exact .inr rfl
    · exact .inl rfl
  all_goals
    cases ht
    refine ⟨_,rfl,by simp [GetReadPc.Before],.inl rfl,?_⟩
    simp only [setFile]
    omega

theorem join_holds (h : Inv maxnconn nfiles s) (hmain : s.main = .join i) :
    s.ndone_mutex = some .main := by
  have hknows := h.knows
  simp only [Knows,hmain] at hknows
  exact hknows.1

/-- The main thread comes into the bad state by its own, premature step. -/
theorem deadlocked_step {a : Web03Act} (h : Inv maxnconn nfiles s)
    (ht : s.step maxnconn a = some t) (hdead : t.Deadlocked) : s.Deadlocked ∨ s.Premature a := by
  obtain ⟨-,i,f,hjoin,hi,hbefore⟩ := hdead
  obtain ⟨-,ht⟩ := Option.ite_none_left_eq_some.mp ht
  cases a with
  | main =>
    obtain ⟨hfiles,hscan,g,hg,hdone⟩ := main_join ht hjoin
    rw [hfiles,hg] at hi
    cases hi
    exact .inr ⟨rfl,i,_,hscan,hg,hdone,hbefore⟩
  | thread j =>
    obtain ⟨g,hj,hg⟩ := Option.bind_eq_some_iff.mp ht
    obtain ⟨g',hfiles,hback,hmain,-⟩ := thread_moves hg
    have hsame : s.main = .join i := by
      rcases hmain with hmain | hmain
      · exact hmain.symm.trans hjoin
      · rw [hmain] at hjoin
        cases hjoin
    refine .inl ⟨join_holds h hsame,i,?_⟩
    rw [hfiles,Family.getElem?_set hj] at hi
    split at hi
    · rename_i hij
      cases hi
      exact ⟨g,hsame,hij ▸ hj,hback hbefore⟩
    · exact ⟨f,hsame,hi,hbefore⟩
  | fail j =>
    obtain ⟨g,-,hg⟩ := Option.bind_eq_some_iff.mp ht
    obtain ⟨-,hg⟩ := Option.ite_none_right_eq_some.mp hg
    cases hg
    cases hjoin
  | spurious =>
    obtain ⟨-,ht⟩ := Option.ite_none_right_eq_some.mp ht
    cases ht
    cases hjoin

theorem premature_step {a : Web03Act} (h : Inv maxnconn nfiles s)
    (ht : s.step maxnconn a = some t) (hearly : s.Premature a) : t.Deadlocked := by
  obtain ⟨rfl,i,f,hmain,hi,hdone,hbefore⟩ := hearly
  have hknows := h.knows
  simp only [Knows,hmain] at hknows
  simp only [step,mainStep,hmain,hi] at ht
  cases ht
  exact ⟨hknows,i,f,if_pos hdone,hi,hbefore⟩

/-- With one connection at a time, nobody is pending while main goes over the files. -/
theorem tight_step {a : Web03Act} (h : Inv maxnconn nfiles s) (hfew : maxnconn ≤ 1 ∨ nfiles ≤ 1)
    (htight : s.Scanning → s.nconn ≤ s.ndone) (ht : s.step maxnconn a = some t)
    (hscan : t.Scanning) : t.nconn ≤ t.ndone := by
  obtain ⟨-,ht⟩ := Option.ite_none_left_eq_some.mp ht
  cases a with
  | main =>
    obtain ⟨hsame,hfrom | ⟨-,hne⟩⟩ := main_scanning ht hscan
    · have := htight hfrom
      omega
    · have hndone := h.ndone
      have hlimit := h.limit
      omega
  | thread j =>
    obtain ⟨g,-,hg⟩ := Option.bind_eq_some_iff.mp ht
    obtain ⟨g',-,-,hmain,hle⟩ := thread_moves hg
    obtain ⟨i,hi⟩ := hscan
    rcases hmain with hmain | hmain
    · rw [hmain] at hi
      have := htight ⟨i,hi⟩
      omega
    · simp [hmain] at hi
  | fail j =>
    obtain ⟨g,-,hg⟩ := Option.bind_eq_some_iff.mp ht
    obtain ⟨-,hg⟩ := Option.ite_none_right_eq_some.mp hg
    cases hg
    simp [Scanning] at hscan
  | spurious =>
    obtain ⟨-,ht⟩ := Option.ite_none_right_eq_some.mp ht
    cases ht
    simp [Scanning] at hscan

theorem not_deadlocked (h : Inv maxnconn nfiles s) (htight : s.Scanning → s.nconn ≤ s.ndone) :
    ¬ s.Deadlocked := by
  rintro ⟨-,i,f,hjoin,hi,hbefore⟩
  have hpos : 0 < s.files.countP fun f => f.Pending :=
    List.countP_pos_iff.mpr ⟨f,List.mem_of_getElem? hi,decide_eq_true (.inl hbefore)⟩
  have := htight ⟨i,.inr (.inl hjoin)⟩
  have := h.nconn
  omega

theorem few_safe {n : Nat} (hfew : maxnconn ≤ 1 ∨ n ≤ 1) (h : (web03 n maxnconn).Reachable s) :
    ¬ s.Deadlocked := by
  have hboth := h.invariant
    (I := fun s => Inv maxnconn (min n MAXFILES : Nat) s ∧ (s.Scanning → s.nconn ≤ s.ndone))
    ⟨init_inv n,fun hscan => by simp [Scanning,web03] at hscan⟩
    fun s a t ⟨hs,htight⟩ ht => ⟨step_inv hs ht,tight_step hs (by omega) htight ht⟩
  exact not_deadlocked hboth.1 hboth.2

/-- After `k` of `k + m` threads have been created. -/
def created (k m : Nat) : Web03 :=
  ⟨.inner,List.replicate k ⟨F_CONNECTING,.reading⟩ ++ List.replicate m ⟨0,.absent⟩,k,m,k + m,0,none⟩

theorem created_get (k m j : Nat) (hj : j < k) :
    (created k m).files[j]? = some ⟨F_CONNECTING,.reading⟩ := by
  simp [created,List.getElem?_append,hj]

theorem created_next {n k m : Nat} (hmore : (k : Int) < maxnconn)
    (h : (web03 n maxnconn).Reachable (created k (m + 1))) :
    (web03 n maxnconn).Reachable (created (k + 1) m) := by
  have hfind : ∀ j ≤ k,
      (web03 n maxnconn).Reachable { created k (m + 1) with main := .find j } := by
    intro j hj
    induction j with
    | zero => exact h.step (a := .main) (by simp [web03,step,mainStep,created,hmore])
    | succ j ih =>
      have hget := created_get k (m + 1) j (by omega)
      exact (ih (by omega)).step (a := .main) (by simp [web03,step,mainStep,hget,F_CONNECTING])
  have hget : (created k (m + 1)).files[k]? = some ⟨0,.absent⟩ := by simp [created]
  have hmark : (web03 n maxnconn).Reachable { created k (m + 1) with main := .mark k } :=
    (hfind k (Nat.le_refl k)).step (a := .main) (by simp [web03,step,mainStep,hget])
  have hcreate : (web03 n maxnconn).Reachable { created k (m + 1) with
      main := .create k
      files := (created k (m + 1)).files.set k ⟨F_CONNECTING,.absent⟩ } :=
    hmark.step (a := .main) (by simp [web03,step,mainStep,hget,setFile])
  have hfiles : (created k (m + 1)).files.set k ⟨F_CONNECTING,.reading⟩ =
      (created (k + 1) m).files := by
    have hnext : List.replicate (k + 1) (⟨F_CONNECTING,.reading⟩ : WebThread) =
      List.replicate k ⟨F_CONNECTING,.reading⟩ ++ [⟨F_CONNECTING,.reading⟩] := List.replicate_succ'
    simp [created,hnext,List.replicate_succ (n := m)]
  have hread : (created k (m + 1)).nlefttoread = (created (k + 1) m).nlefttoread := by
    simp only [created]
    omega
  refine hcreate.step (a := .main) ?_
  simp [web03,step,mainStep,setFile,List.getElem?_set_self',hget,hfiles,hread]
  simp [created]

/-- Main can create threads up to its limit before any of them goes on. -/
theorem created_reachable {n k m : Nat} (hn : k + m = min n MAXFILES) (hmax : (k : Int) ≤ maxnconn)
    (hpos : 0 < k + m) : (web03 n maxnconn).Reachable (created k m) := by
  induction k generalizing m with
  | zero =>
    refine (Machine.reachable_init _).step (a := .main) ?_
    simp [web03,step,mainStep,created,← hn]
    omega
  | succ k ih => exact created_next (by omega) (ih (by omega) (by omega) (by omega))

/-- Thread 0 is done, and thread 1 has set its flag and has yet to get the mutex. -/
theorem created_deadlocks {n k m : Nat} (h : (web03 n maxnconn).Reachable (created (k + 2) m))
    (hfull : ¬ ((k : Int) + 2 < maxnconn ∧ 0 < m)) :
    ∃ s, (web03 n maxnconn).Reachable s ∧ s.Deadlocked := by
  have hlock : (web03 n maxnconn).Reachable { created (k + 2) m with main := .lock } := by
    have hstep : (web03 n maxnconn).step (created (k + 2) m) .main =
        some { created (k + 2) m with main := .lock } := by
      simp [web03,step,mainStep,created]
      omega
    exact h.step hstep
  let rest : List WebThread :=
    (List.replicate k ⟨F_CONNECTING,.reading⟩).append (List.replicate m ⟨0,.absent⟩)
  have hdone : (web03 n maxnconn).run { created (k + 2) m with main := .lock }
      (List.replicate 7 (.thread 0)) = some ⟨.lock,⟨F_DONE,.terminated⟩ ::
        ⟨F_CONNECTING,.reading⟩ :: rest,(k + 2 : Nat),m,(k + 2 : Nat) + m,1,none⟩ := rfl
  have hset : (web03 n maxnconn).run ⟨.lock,⟨F_DONE,.terminated⟩ :: ⟨F_CONNECTING,.reading⟩ :: rest,
      (k + 2 : Nat),m,(k + 2 : Nat) + m,1,none⟩ (List.replicate 2 (.thread 1)) = some ⟨.lock,
        ⟨F_DONE,.terminated⟩ :: ⟨F_DONE,.lock⟩ :: rest,(k + 2 : Nat),m,(k + 2 : Nat) + m,1,none⟩ :=
    rfl
  have hjoin : (web03 n maxnconn).run ⟨.lock,⟨F_DONE,.terminated⟩ :: ⟨F_DONE,.lock⟩ :: rest,
      (k + 2 : Nat),m,(k + 2 : Nat) + m,1,none⟩ (List.replicate 6 .main) = some ⟨.join 1,
        ⟨F_JOINED,.terminated⟩ :: ⟨F_DONE,.lock⟩ :: rest,((k + 2 : Nat) : Int) - 1,m,
          (k + 2 : Nat) + m - 1,0,some .main⟩ := rfl
  exact ⟨_,((hlock.run hdone).run hset).run hjoin,rfl,1,_,rfl,rfl,.inr (.inr rfl)⟩

end Web03

/-- The main thread blocks for ever on a thread only after it has read the thread's `F_DONE` too
early, and it may do so exactly when two threads can run at a time. -/
theorem web03_deadlock (n : Nat) (maxnconn : Int) :
    (∀ as s, (web03 n maxnconn).run (web03 n maxnconn).init as = some s →
      (∀ q a, (q,a) ∈ (web03 n maxnconn).trace (web03 n maxnconn).init as → ¬ q.Premature a) →
      ¬ s.Deadlocked) ∧
    (∀ q a t, (web03 n maxnconn).Reachable q → (web03 n maxnconn).step q a = some t →
      q.Premature a → t.Deadlocked) ∧
    ((∀ s, (web03 n maxnconn).Reachable s → ¬ s.Deadlocked) ↔ maxnconn ≤ 1 ∨ n ≤ 1) := by
  refine ⟨fun as s hs hnone hdead => ?_,fun q a t hq ht => Web03.premature_step
    (Web03.reachable_inv hq) ht,fun hsafe => ?_,fun hfew s hs => Web03.few_safe hfew hs⟩
  · have hinit : ¬ (web03 n maxnconn).init.Deadlocked := fun hd => by cases hd.1
    refine Machine.avoiding_invariant (I := fun s => ¬ s.Deadlocked) hinit ?_ hs hnone hdead
    intro s a t hs hlive hearly ht hd
    exact (Web03.deadlocked_step (Web03.reachable_inv hs) ht hd).elim hlive hearly
  · by_contra hmany
    obtain ⟨k,hk⟩ : ∃ k, min maxnconn.toNat (min n MAXFILES) = k + 2 := by
      refine Nat.exists_eq_add_of_le' (le_min ?_ (le_min ?_ (by decide))) <;> omega
    obtain ⟨m,hm⟩ : ∃ m, min n MAXFILES = k + 2 + m :=
      Nat.exists_eq_add_of_le (hk ▸ min_le_right _ _)
    have hcreated : (web03 n maxnconn).Reachable (Web03.created (k + 2) m) :=
      Web03.created_reachable hm.symm (by omega) (by omega)
    obtain ⟨s,hs,hdead⟩ := Web03.created_deadlocks hcreated (by omega)
    exact hsafe s hs hdead

/-- Two files at a time are enough for the bad state. -/
theorem web03_deadlocks : ¬ ∀ (n : Nat) (maxnconn : Int), 1 ≤ maxnconn →
    ∀ s, (web03 n maxnconn).Reachable s → ¬ s.Deadlocked := by
  intro h
  have hcreated : (web03 2 2).Reachable (Web03.created (0 + 2) 0) :=
    Web03.created_reachable rfl (by decide) (by decide)
  obtain ⟨s,hs,hdead⟩ := Web03.created_deadlocks hcreated (by decide)
  exact h 2 2 (by decide) s hs hdead

end UnixNet
