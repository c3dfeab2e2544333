import Mathlib.Data.Finset.Card
import Mathlib.Data.List.Range
import UnixNet.Library.Family
import UnixNet.Library.Machine
set_option autoImplicit false

/-! The parent of server/serv05.c and its children of server/child05.c: accepted
descriptors go down a stream pipe to an idle child, ready bytes come back up. -/

namespace UnixNet

/-- The next call of `child_main`; its argument is the connection it has. -/
inductive PassPc where
  | readFd : PassPc
  | webChild (conn : Nat) : PassPc
  | close (conn : Nat) : PassPc
  | write (conn : Nat) : PassPc
  deriving DecidableEq, Repr

/-- `child_status` and `child_count` as the parent keeps them, the process, and what
is in its stream pipe: descriptors on their way `down`, ready bytes on their way `up`. -/
structure PassChild where
  status : Nat
  count : Nat
  pc : PassPc
  down : List Nat
  up : Nat
  deriving DecidableEq, Repr

def PassChild.init : PassChild := ⟨0,0,.readFd,[],0⟩

/-- The next call of the parent; `scan i` is the loop over the children at `i`. -/
inductive PoolPc where
  | select : PoolPc
  | accept : PoolPc
  | writeFd (conn : Nat) : PoolPc
  | scan (i : Nat) : PoolPc
  | noChildren : PoolPc
  deriving DecidableEq, Repr

/-- `rset` are the children whose pipe `Select` reported; connections are numbered as
they are accepted, and `passed` tells which child got which. -/
structure PassPool where
  pc : PoolPc
  children : List PassChild
  navail : Int
  nsel : Int
  rset : Finset Nat
  accepted : Nat
  passed : List (Nat × Nat)

inductive PassAct where
  | select (listen : Bool) (pipes : Finset Nat) : PassAct
  | parent : PassAct
  | child (i : Nat) : PassAct

namespace PassPool

/-- A ready byte can be read from the pipe of child `i`. -/
def Readable (s : PassPool) (i : Nat) : Prop := ∃ c ∈ s.children[i]?, 0 < c.up

instance decidableReadable (s : PassPool) (i : Nat) : Decidable (s.Readable i) := by
  unfold Readable
  cases s.children[i]? <;> simp only [Option.mem_def] <;> infer_instance

/-- `if (--nsel == 0)` the select results are used up. -/
def next (nsel : Int) (pc : PoolPc) : PoolPc := if nsel - 1 = 0 then .select else pc

/-- Marks the first available child as busy and passes it the connection. -/
def pass (s : PassPool) (conn : Nat) : PassPool :=
  let i := s.children.findIdx fun c => c.status = 0
  match s.children[i]? with
  | none => { s with pc := .noChildren }
  | some c => { s with
      pc := next s.nsel (.scan 0)
      children := s.children.set i { c with
        status := 1, count := c.count + 1, down := c.down ++ [conn] }
      navail := s.navail - 1
      nsel := s.nsel - 1
      passed := s.passed ++ [(conn,i)] }

/-- One pass of the loop over the children. -/
def scan (s : PassPool) (i : Nat) : Option PassPool :=
  match s.children[i]? with
  | none => some { s with pc := .select }
  | some c =>
    if i ∈ s.rset then
      if 0 < c.up then
        some { s with
          pc := next s.nsel (.scan (i+1))
          children := s.children.set i { c with status := 0, up := c.up - 1 }
          navail := s.navail + 1
          nsel := s.nsel - 1 }
      else none
    else some { s with pc := .scan (i+1) }

def parentStep (s : PassPool) : Option PassPool :=
  match s.pc with
  | .select | .noChildren => none
  | .accept => some { s with pc := .writeFd s.accepted, accepted := s.accepted + 1 }
  | .writeFd conn => some (s.pass conn)
  | .scan i => s.scan i

/-- `Select` masks the listening descriptor while `navail <= 0`. -/
def selectStep (s : PassPool) (listen : Bool) (pipes : Finset Nat) : Option PassPool :=
  if s.pc = .select ∧ (listen = true → 0 < s.navail) ∧ (∀ i ∈ pipes, s.Readable i) ∧
      (listen = true ∨ pipes ≠ ∅) then
    some { s with
      pc := if listen then .accept else .scan 0
      nsel := (if listen then 1 else 0) + pipes.card
      rset := pipes }
  else none

end PassPool

/-- The next call of `child_main`. -/
def PassChild.step (c : PassChild) : Option PassChild :=
  match c.pc with
  | .readFd =>
    match c.down with
    | [] => none
    | conn :: rest => some { c with pc := .webChild conn, down := rest }
  | .webChild conn => some { c with pc := .close conn }
  | .close conn => some { c with pc := .write conn }
  | .write _ => some { c with pc := .readFd, up := c.up + 1 }

def PassPool.step (s : PassPool) : PassAct → Option PassPool
  | .select listen pipes => s.selectStep listen pipes
  | .parent => s.parentStep
  | .child i =>
    match s.children[i]? with
    | none => none
    | some c => c.step.map fun d => { s with children := s.children.set i d }

/-- serv05 with `nchildren` children, all of them started. -/
def serv05 (nchildren : Nat) : Machine PassPool PassAct :=
  ⟨⟨.select,List.replicate nchildren .init,nchildren,0,∅,0,[]⟩,PassPool.step⟩

/-- Waiting for a descriptor, with nothing in the pipe. -/
structure PassChild.Idle (c : PassChild) : Prop where
  pc : c.pc = .readFd
  down : c.down = []
  up : c.up = 0

/-- A descriptor is on its way down, or the child has it, or a ready byte is on its way up. -/
def PassChild.Busy (c : PassChild) : Prop :=
  (∃ conn, c.down = [conn]) ∧ c.pc = .readFd ∧ c.up = 0 ∨
    c.down = [] ∧ c.pc ≠ .readFd ∧ c.up = 0 ∨
    c.down = [] ∧ c.pc = .readFd ∧ c.up = 1

/-- What the parent knows of the child is true. -/
def PassChild.Known (c : PassChild) : Prop :=
  c.status = 0 ∧ c.Idle ∨ c.status = 1 ∧ c.Busy

theorem PassChild.Known.idle {c : PassChild} (h : c.Known) (h0 : c.status = 0) : c.Idle :=
  h.elim And.right fun hbusy => absurd (h0.symm.trans hbusy.1) (by decide)

theorem PassChild.Known.busy {c : PassChild} (h : c.Known) (hup : 0 < c.up) :
    c.pc = .readFd ∧ c.down = [] ∧ c.up = 1 ∧ c.status = 1 := by
  rcases h with ⟨_,hidle⟩ | ⟨h1,⟨_,_,h0⟩ | ⟨_,_,h0⟩ | ⟨hdown,hpc,h⟩⟩
  · have h0 := hidle.up
    omega
  · omega
  · omega
  · exact ⟨hpc,hdown,h,h1⟩

/-- A child that moves takes its descriptor, serves it or reports. -/
theorem PassChild.step_known {c d : PassChild} (h : c.Known) (hd : c.step = some d) :
    d.Known ∧ d.status = c.status ∧ c.up ≤ d.up := by
  have hbusy : c.status = 1 ∧ c.Busy := by
    refine h.resolve_left fun ⟨_,hpc,hdown,_⟩ => ?_
    rw [step,hpc,hdown] at hd
    cases hd
  obtain ⟨h1,⟨⟨conn,hdown⟩,hpc,hup⟩ | ⟨hdown,hpc,hup⟩ | ⟨hdown,hpc,_⟩⟩ := hbusy
  · rw [step,hpc,hdown] at hd
    cases hd
    exact ⟨.inr ⟨h1,.inr (.inl ⟨rfl,nofun,hup⟩)⟩,rfl,Nat.le_refl _⟩
  · cases hcase : c.pc with
    | readFd => exact absurd hcase hpc
    | webChild conn | close conn =>
      rw [step,hcase] at hd
      cases hd
      exact ⟨.inr ⟨h1,.inr (.inl ⟨hdown,nofun,hup⟩)⟩,rfl,Nat.le_refl _⟩
    | write conn =>
      rw [step,hcase] at hd
      cases hd
      exact ⟨.inr ⟨h1,.inr (.inr ⟨hdown,rfl,by simp [hup]⟩)⟩,rfl,Nat.le_succ _⟩
  · rw [step,hpc,hdown] at hd
    cases hd

namespace PassPool
variable {s t : PassPool}

/-- The connection that the parent has accepted and not yet passed on. -/
def held : PoolPc → List Nat
  | .writeFd conn => [conn]
  | _ => []

/-- Child `j` is still to be looked at before the next `Select`. -/
def Ahead : PoolPc → Nat → Prop
  | .scan i, j => i ≤ j
  | .accept, _ | .writeFd _, _ => True
  | _, _ => False

structure Inv (s : PassPool) : Prop where
  known : ∀ c ∈ s.children, c.Known
  navail : s.navail = s.children.countP fun c => c.status = 0
  room : held s.pc ≠ [] ∨ s.pc = .accept → 0 < s.navail
  noQuit : s.pc ≠ .noChildren
  passed : s.passed.map Prod.fst ++ held s.pc = List.range s.accepted
  ready : ∀ j ∈ s.rset, Ahead s.pc j → s.Readable j

theorem inv_init (n : Nat) : Inv (serv05 n).init := by
  refine ⟨fun c hc => ?_,?_,?_,nofun,rfl,nofun⟩
  · rw [(List.mem_replicate.mp hc).2]
    exact .inl ⟨rfl,rfl,rfl,rfl⟩
  · simp [serv05,PassChild.init,List.countP_replicate]
  · simp [serv05,held]

theorem select_inv {listen : Bool} {pipes : Finset Nat} (h : Inv s)
    (ht : s.selectStep listen pipes = some t) : Inv t := by
  simp only [selectStep] at ht
  split at ht
  · rename_i hguard
    obtain ⟨hpc,hroom,hready,_⟩ := hguard
    cases ht
    have hpassed := h.passed
    rw [hpc] at hpassed
    cases listen with
    | false => exact ⟨h.known,h.navail,by simp [held],nofun,hpassed,fun j hj _ => hready j hj⟩
    | true =>
      exact ⟨h.known,h.navail,fun _ => hroom rfl,nofun,hpassed,fun j hj _ => hready j hj⟩
  · cases ht

theorem child_inv {i : Nat} {c d : PassChild} (h : Inv s) (hi : s.children[i]? = some c)
    (hd : c.step = some d) : Inv { s with children := s.children.set i d } := by
  obtain ⟨hknown,hstatus,hup⟩ := PassChild.step_known (h.known c (List.mem_of_getElem? hi)) hd
  refine ⟨Family.forall_set h.known hknown,?_,h.room,h.noQuit,h.passed,fun j hj hahead => ?_⟩
  · have hcount := Family.countP_set hi (fun c => c.status = 0) d
    have hnavail := h.navail
    simp only [hstatus] at hcount ⊢
    omega
  · obtain ⟨e,he,hpos⟩ := h.ready j hj hahead
    unfold Readable
    rw [Family.getElem?_set hi]
    split
    · rename_i hij
      subst hij
      rw [hi] at he
      cases he
      exact ⟨d,rfl,by omega⟩
    · exact ⟨e,he,hpos⟩

/-- A child is available for the connection that the parent holds. -/
theorem pass_eq {conn : Nat} (h : Inv s) (hpc : s.pc = .writeFd conn) :
    ∃ i c, s.children[i]? = some c ∧ c.status = 0 ∧ s.pass conn = { s with
      pc := next s.nsel (.scan 0)
      children := s.children.set i { c with
        status := 1, count := c.count + 1, down := c.down ++ [conn] }
      navail := s.navail - 1
      nsel := s.nsel - 1
      passed := s.passed ++ [(conn,i)] } := by
  have hroom := h.room (.inl (by simp [hpc,held]))
  have hpos : 0 < s.children.countP fun c => c.status = 0 := by
    have hnavail := h.navail
    omega
  have hsome := List.findIdx_getElem?_eq_getElem_of_exists (List.countP_pos_iff.mp hpos)
  have hzero := List.findIdx_of_getElem?_eq_some hsome
  refine ⟨_,_,hsome,by simpa using hzero,?_⟩
  simp only [pass]
  rw [hsome]

theorem next_cases (nsel : Int) (pc : PoolPc) : next nsel pc = .select ∨ next nsel pc = pc := by
  unfold next
  split
  · exact .inl rfl
  · exact .inr rfl

theorem held_next (nsel : Int) (i : Nat) : held (next nsel (.scan i)) = [] := by
  rcases next_cases nsel (.scan i) with h | h <;> rw [h] <;> rfl

theorem readable_set {i j : Nat} {c d : PassChild} (hi : s.children[i]? = some c)
    (hup : i = j → c.up ≤ d.up) (h : s.Readable j) :
    ∃ e ∈ (s.children.set i d)[j]?, 0 < e.up := by
  obtain ⟨e,he,hpos⟩ := h
  rw [Family.getElem?_set hi]
  split
  · rename_i hij
    have hle := hup hij
    subst hij
    rw [hi] at he
    cases he
    exact ⟨d,rfl,by omega⟩
  · exact ⟨e,he,hpos⟩

theorem pass_inv {conn : Nat} (h : Inv s) (hpc : s.pc = .writeFd conn) : Inv (s.pass conn) := by
  obtain ⟨i,c,hi,hzero,heq⟩ := pass_eq h hpc
  have hidle := (h.known c (List.mem_of_getElem? hi)).idle hzero
  have hpassed := h.passed
  rw [hpc] at hpassed
  rw [heq]
  refine ⟨Family.forall_set h.known ?_,?_,?_,?_,?_,fun j hj _ => ?_⟩
  · exact .inr ⟨rfl,.inl ⟨⟨conn,by simp [hidle.down]⟩,hidle.pc,hidle.up⟩⟩
  · have hcount := Family.countP_set hi (fun c => c.status = 0) { c with
      status := 1, count := c.count + 1, down := c.down ++ [conn] }
    have hnavail := h.navail
    simp [hzero] at hcount
    simp only
    omega
  · rintro (hheld | haccept)
    · exact absurd (held_next s.nsel 0) hheld
    · rcases next_cases s.nsel (.scan 0) with hnext | hnext <;> rw [hnext] at haccept <;> cases haccept
  · rcases next_cases s.nsel (.scan 0) with hnext | hnext <;> rw [hnext] <;> nofun
  · rw [held_next,List.append_nil,List.map_append]
    exact hpassed
  · exact readable_set hi (fun _ => Nat.le_refl _) (h.ready j hj (by simp [hpc,Ahead]))

theorem scan_inv {i : Nat} (h : Inv s) (hpc : s.pc = .scan i) (ht : s.scan i = some t) :
    Inv t := by
  have hpassed := h.passed
  rw [hpc] at hpassed
  have hahead : ∀ {k}, i ≤ k → ∀ j ∈ s.rset, k ≤ j → s.Readable j := fun hik j hj hkj =>
    h.ready j hj (by rw [hpc]; exact Nat.le_trans hik hkj)
  simp only [scan] at ht
  split at ht
  · cases ht
    exact ⟨h.known,h.navail,by simp [held],nofun,hpassed,nofun⟩
  · rename_i c hi
    split at ht
    · split at ht
      · rename_i hup
        obtain ⟨hread,hdown,hone,hstatus⟩ := (h.known c (List.mem_of_getElem? hi)).busy hup
        cases ht
        refine ⟨Family.forall_set h.known ?_,?_,?_,?_,?_,fun j hj hj' => ?_⟩
        · exact .inl ⟨rfl,hread,hdown,by simp [hone]⟩
        · have hcount := Family.countP_set hi (fun c => c.status = 0)
            { c with status := 0, up := c.up - 1 }
          have hnavail := h.navail
          simp [hstatus] at hcount
          simp only
          omega
        · rintro (hheld | haccept)
          · exact absurd (held_next s.nsel (i+1)) hheld
          · rcases next_cases s.nsel (.scan (i+1)) with hnext | hnext <;>
              rw [hnext] at haccept <;> cases haccept
        · rcases next_cases s.nsel (.scan (i+1)) with hnext | hnext <;> rw [hnext] <;> nofun
        · rw [held_next]
          exact hpassed
        · have hij : i + 1 ≤ j := by
            rcases next_cases s.nsel (.scan (i+1)) with hnext | hnext <;> rw [hnext] at hj'
            · exact hj'.elim
            · exact hj'
          exact readable_set hi (fun hij' => by omega) (hahead (Nat.le_succ i) j hj hij)
      · cases ht
    · cases ht
      exact ⟨h.known,h.navail,by simp [held],nofun,hpassed,hahead (Nat.le_succ i)⟩

theorem parent_inv (h : Inv s) (ht : s.parentStep = some t) : Inv t := by
  have hpassed := h.passed
  simp only [parentStep] at ht
  split at ht
  · cases ht
  · cases ht
  · rename_i hpc
    cases ht
    rw [hpc] at hpassed
    refine ⟨h.known,h.navail,fun _ => h.room (.inr hpc),nofun,?_,fun j hj _ =>
      h.ready j hj (by simp [hpc,Ahead])⟩
    rw [List.range_succ,← hpassed]
    simp [held]
  · rename_i conn hpc
    cases ht
    exact pass_inv h hpc
  · rename_i i hpc
    exact scan_inv h hpc ht

theorem step_inv (s : PassPool) (a : PassAct) (t : PassPool) (h : Inv s)
    (ht : s.step a = some t) : Inv t := by
  cases a with
  | select listen pipes => exact select_inv h ht
  | parent => exact parent_inv h ht
  | child i =>
    simp only [step] at ht
    split at ht
    · cases ht
    · rename_i c hi
      obtain ⟨d,hd,rfl⟩ := Option.map_eq_some_iff.mp ht
      exact child_inv h hi hd

theorem reachable_inv {n : Nat} (h : (serv05 n).Reachable s) : Inv s :=
  h.invariant (inv_init n) step_inv

end PassPool

/-- What holds of the pool after every call. -/
structure PassPool.Sound (s : PassPool) : Prop where
  navail : s.navail = s.children.countP fun c => c.status = 0
  status : ∀ c ∈ s.children, c.status = 0 ∨ c.status = 1
  idle : ∀ c ∈ s.children, c.status = 0 → c.Idle
  busy : ∀ c ∈ s.children, c.status = 1 → c.Busy
  noQuit : s.pc ≠ .noChildren
  passed : s.passed.map Prod.fst ++ held s.pc = List.range s.accepted
  toIdle : ∀ conn, s.pc = .writeFd conn → ∃ i c t, s.children[i]? = some c ∧ c.Idle ∧
    s.step .parent = some t ∧ t.passed = s.passed ++ [(conn,i)] ∧
    t.children = s.children.set i { c with status := 1, count := c.count + 1, down := [conn] }

/-- The parent's view of its children is right at any time, each connection is passed
to one idle child, and "no available children" is never printed. -/
theorem serv05_sound (nchildren : Nat) (s : PassPool) (h : (serv05 nchildren).Reachable s) :
    s.Sound := by
  have hinv := PassPool.reachable_inv h
  refine ⟨hinv.navail,fun c hc => (hinv.known c hc).imp And.left And.left,
    fun c hc => (hinv.known c hc).idle,fun c hc h1 => ?_,hinv.noQuit,hinv.passed,?_⟩
  · exact ((hinv.known c hc).resolve_left fun h0 => absurd (h1.symm.trans h0.1) (by decide)).2
  · intro conn hpc
    obtain ⟨i,c,hi,hzero,heq⟩ := PassPool.pass_eq hinv hpc
    have hidle := (hinv.known c (List.mem_of_getElem? hi)).idle hzero
    refine ⟨i,c,s.pass conn,hi,hidle,?_,by rw [heq],by rw [heq,hidle.down]; rfl⟩
    simp only [PassPool.step,PassPool.parentStep,hpc]

/-- Two children: the first one is still busy when the second connection comes. -/
theorem serv05_sound_two :
    let acts := [.select true ∅,.parent,.parent,.child 0,.select true ∅,.parent,.parent,
      .child 0,.child 0,.child 0,.select false {0},.parent]
    ∃ s, (serv05 2).run (serv05 2).init acts = some s ∧ s.passed = [(0,0),(1,1)] ∧
      s.children.map PassChild.status = [0,1] ∧ s.Sound := by
  intro acts
  have hrun : ((serv05 2).run (serv05 2).init acts).map (fun s => (s.passed,
      s.children.map PassChild.status)) = some ([(0,0),(1,1)],[0,1]) := by decide
  obtain ⟨s,hs,hst⟩ := Option.map_eq_some_iff.mp hrun
  obtain ⟨hpassed,hstatus⟩ := Prod.mk.inj hst
  exact ⟨s,hs,hpassed,hstatus,serv05_sound 2 s ⟨acts,hs⟩⟩

end UnixNet
