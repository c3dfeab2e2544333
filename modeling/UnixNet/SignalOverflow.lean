import UnixNet.SignalEcho
set_option autoImplicit false

/-! sigio: `sig_io` against the datagrams that wait on the socket. -/

namespace UnixNet

/-- The server and what has arrived and not been read. -/
structure SigioEcho where
  server : DgEcho
  socket : List (List Byte × List Byte)

/-- A datagram arrives; the server takes a step. -/
inductive SigioAct where
  | arrive (data addr : List Byte) : SigioAct
  | serve (a : DgEchoAct) : SigioAct
  deriving DecidableEq, Repr

/-- What recvfrom can return: the first datagram, that there is none, or some other error. -/
def Recvfrom.From (r : Recvfrom) (socket : List (List Byte × List Byte)) : Prop :=
  match r with
  | .datagram data addr => socket.head? = some (data,addr)
  | .fail e => e = .ewouldblock → socket = []

instance decidableFrom (r : Recvfrom) (socket : List (List Byte × List Byte)) :
    Decidable (r.From socket) :=
  match r with
  | .datagram data addr => inferInstanceAs (Decidable (socket.head? = some (data,addr)))
  | .fail e => inferInstanceAs (Decidable (e = .ewouldblock → socket = []))

namespace SigioEcho

/-- The handler that finds no room quits before it reads. -/
def read (s : SigioEcho) : Recvfrom → List (List Byte × List Byte)
  | .datagram _ _ => if s.server.nqueue ≥ QSIZE then s.socket else s.socket.tail
  | .fail _ => s.socket

def step (clilen : Nat) (s : SigioEcho) : SigioAct → Option SigioEcho
  | .arrive data addr =>
    if addr.length ≤ clilen then some { s with socket := s.socket ++ [(data,addr)] } else none
  | .serve (.recvfrom r) =>
    if r.From s.socket then
      (s.server.step clilen (.recvfrom r)).map fun server => ⟨server,s.read r⟩
    else none
  | .serve a => (s.server.step clilen a).map fun server => { s with server := server }

end SigioEcho

def sigioEcho (clilen : Nat) (mask : Bool) (malloced : Nat → DG) : Machine SigioEcho SigioAct :=
  ⟨⟨(dgEcho01 clilen mask malloced).init,[]⟩,SigioEcho.step clilen⟩

namespace SigioEcho
variable {s t : SigioEcho} {clilen : Nat} {mask : Bool} {malloced : Nat → DG}

/-- `err_quit("receive overflow")`. -/
def Overflows (s : SigioEcho) (a : SigioAct) : Prop :=
  (∃ r, a = .serve (.recvfrom r)) ∧ s.server.nqueue ≥ QSIZE

/-- The only datagram that waits is read into the last free slot. -/
def Fills (s : SigioEcho) (a : SigioAct) : Prop :=
  (∃ data addr, a = .serve (.recvfrom (.datagram data addr))) ∧
    s.server.nqueue = QSIZE - 1 ∧ s.socket.length = 1

theorem server_step {a : SigioAct} (h : s.step clilen a = some t) :
    t.server = s.server ∨ ∃ b, s.server.step clilen b = some t.server := by
  unfold step at h
  split at h
  · obtain ⟨-,h⟩ := Option.ite_none_right_eq_some.mp h
    cases h
    exact .inl rfl
  · obtain ⟨-,h⟩ := Option.ite_none_right_eq_some.mp h
    obtain ⟨server,hserver,rfl⟩ := Option.map_eq_some_iff.mp h
    exact .inr ⟨_,hserver⟩
  · obtain ⟨server,hserver,rfl⟩ := Option.map_eq_some_iff.mp h
    exact .inr ⟨_,hserver⟩

/-- The server on its socket is the server that takes what recvfrom returns. -/
theorem server_reachable (h : (sigioEcho clilen mask malloced).Reachable s) :
    (dgEcho01 clilen mask malloced).Reachable s.server := by
  refine h.invariant (I := fun s => (dgEcho01 clilen mask malloced).Reachable s.server)
    (Machine.reachable_init _) fun s a t hs ht => ?_
  rcases server_step ht with hsame | ⟨b,hb⟩
  · rw [hsame]
    exact hs
  · exact hs.step hb

/-- A full queue is one in front of which the handler finds another datagram. -/
def Ready (s : SigioEcho) : Prop :=
  s.server.pc ≠ .exited → s.server.nqueue = QSIZE → s.server.handler ≠ none ∧ s.socket ≠ []

theorem main_nqueue {s t : DgEcho} {count : Nat} (h : s.Inv count) (ht : s.dgEchoStep = some t) :
    t.nqueue ≤ s.nqueue := by
  have hknows := h.knows
  unfold DgEcho.Knows at hknows
  cases hpc : s.pc
  all_goals simp only [DgEcho.dgEchoStep,hpc] at ht hknows
  case suspend =>
    split at ht <;> cases ht
    exact Int.le_refl _
  case store n =>
    cases ht
    rw [hknows]
    exact Int.sub_le_self _ (by decide)
  case exited => cases ht
  all_goals
    cases ht
    exact Int.le_refl _

theorem Ready.lt {count : Nat} (h : s.Ready) (hinv : s.server.Inv count)
    (hrun : s.server.pc ≠ .exited) (hnone : s.server.handler = none) : s.server.nqueue < QSIZE := by
  have hne : s.server.nqueue ≠ QSIZE := fun hfull => (h hrun hfull).1 hnone
  have := hinv.nqueue
  have := hinv.room
  omega

theorem ready_of_lt (h : s.server.nqueue < QSIZE) : s.Ready := fun _ hfull => by omega

theorem ready_of_exited (h : s.server.pc = .exited) : s.Ready := fun hrun => absurd h hrun

theorem init_ready : (sigioEcho clilen mask malloced).init.Ready := fun _ hfull => by
  cases hfull

theorem recvfrom_ready {r : Recvfrom} (hfills : ¬ s.Fills (.serve (.recvfrom r)))
    (hr : r.From s.socket) {server : DgEcho}
    (ht : s.server.step clilen (.recvfrom r) = some server) : Ready ⟨server,s.read r⟩ := by
  cases DgEcho.step_moves ht with
  | exits other => exact ready_of_exited rfl
  | stored handler room datagram =>
    intro _ hfull
    refine ⟨Option.some_ne_none _,fun hempty => hfills ⟨⟨_,_,rfl⟩,?_,?_⟩⟩
    · simp only at hfull
      omega
    · simp only [read,if_neg (Int.not_le.mpr room)] at hempty
      obtain ⟨rest,hrest⟩ := List.head?_eq_some_iff.mp hr
      rw [hrest,List.tail_cons] at hempty
      rw [hrest,hempty]
      rfl
  | returned room => exact ready_of_lt room

theorem step_ready {a : SigioAct} (hs : (sigioEcho clilen mask malloced).Reachable s)
    (h : s.Ready) (hfills : ¬ s.Fills a) (ht : s.step clilen a = some t) : t.Ready := by
  have hinv := DgEcho.reachable_inv (server_reachable hs)
  unfold step at ht
  split at ht
  case h_1 =>
    obtain ⟨-,ht⟩ := Option.ite_none_right_eq_some.mp ht
    cases ht
    exact fun hrun hfull => ⟨(h hrun hfull).1,by simp⟩
  case h_2 r =>
    obtain ⟨hr,ht⟩ := Option.ite_none_right_eq_some.mp ht
    obtain ⟨server,hserver,rfl⟩ := Option.map_eq_some_iff.mp ht
    exact recvfrom_ready hfills hr hserver
  case h_3 a hother =>
    obtain ⟨server,hserver,rfl⟩ := Option.map_eq_some_iff.mp ht
    have hrun : s.server.pc ≠ .exited := fun hpc => by
      rw [DgEcho.exited_stays hpc] at hserver
      cases hserver
    obtain ⟨count,hinv⟩ := hinv.resolve_left hrun
    cases a with
    | main =>
      obtain ⟨hnone,hserver⟩ := Option.ite_none_right_eq_some.mp hserver
      exact ready_of_lt (Int.lt_of_le_of_lt (main_nqueue hinv hserver) (h.lt hinv hrun hnone))
    | sendtoFails =>
      obtain ⟨-,hserver⟩ := Option.ite_none_right_eq_some.mp hserver
      cases hserver
      exact ready_of_exited rfl
    | sigio =>
      obtain ⟨hfree,hserver⟩ := Option.ite_none_left_eq_some.mp hserver
      cases hserver
      have hnone : s.server.handler = none := not_not.mp fun hne => hfree (.inr (.inr hne))
      exact ready_of_lt (h.lt hinv hrun hnone)
    | recvfrom r => exact absurd rfl (hother r)
    | sighup =>
      obtain ⟨-,hserver⟩ := Option.ite_none_left_eq_some.mp hserver
      cases hserver
      exact fun _ => h hrun

theorem overflow_full {a : SigioAct} (hs : (sigioEcho clilen mask malloced).Reachable s)
    (ha : s.Overflows a) (ht : s.step clilen a = some t) :
    s.server.pc ≠ .exited ∧ s.server.nqueue = QSIZE := by
  obtain ⟨⟨r,rfl⟩,hge⟩ := ha
  obtain ⟨-,ht⟩ := Option.ite_none_right_eq_some.mp ht
  obtain ⟨server,hserver,-⟩ := Option.map_eq_some_iff.mp ht
  obtain ⟨hrun,-⟩ := Option.ite_none_left_eq_some.mp hserver
  obtain ⟨count,hinv⟩ := (DgEcho.reachable_inv (server_reachable hs)).resolve_left hrun
  have := hinv.nqueue
  have := hinv.room
  exact ⟨hrun,by omega⟩

theorem overflow_quits {n : Nat} (hrun : s.server.pc ≠ .exited)
    (hn : s.server.handler = some n) (hge : s.server.nqueue ≥ QSIZE) (hempty : s.socket = []) :
    ∃ u, s.step clilen (.serve (.recvfrom (.fail .ewouldblock))) = some u ∧
      u.server.pc = .exited := by
  have hr : Recvfrom.From (.fail .ewouldblock) s.socket := fun _ => hempty
  refine ⟨⟨{ s.server with pc := .exited },s.socket⟩,?_,rfl⟩
  simp only [step,if_pos hr,DgEcho.step,if_neg hrun,hn,Option.bind_some,DgEcho.sigIo,if_pos hge,
    Option.map_some,read]

/-- After the last free slot is filled the handler quits, though nothing more waits. -/
theorem fills_overflow {a : SigioAct} (ha : s.Fills a) (ht : s.step clilen a = some t) :
    t.socket = [] ∧ t.Overflows (.serve (.recvfrom (.fail .ewouldblock))) ∧
      ∃ u, t.step clilen (.serve (.recvfrom (.fail .ewouldblock))) = some u ∧
        u.server.pc = .exited := by
  obtain ⟨⟨data,addr,rfl⟩,hlast,hone⟩ := ha
  obtain ⟨hr,ht⟩ := Option.ite_none_right_eq_some.mp ht
  obtain ⟨server,hserver,rfl⟩ := Option.map_eq_some_iff.mp ht
  obtain ⟨hrun,hserver⟩ := Option.ite_none_left_eq_some.mp hserver
  obtain ⟨n,-,hserver⟩ := Option.bind_eq_some_iff.mp hserver
  have hroom : ¬ s.server.nqueue ≥ QSIZE := by omega
  simp only [DgEcho.sigIo,if_neg hroom] at hserver
  split at hserver <;> cases hserver
  have hfull : s.server.nqueue + 1 ≥ QSIZE := by omega
  have hempty : s.socket.tail = [] := by
    obtain ⟨x,hx⟩ := List.length_eq_one_iff.mp hone
    rw [hx]
    rfl
  simp only [read,if_neg hroom,hempty]
  exact ⟨trivial,⟨⟨_,rfl⟩,hfull⟩,overflow_quits hrun rfl hfull rfl⟩

theorem arrive_run {ds : List (List Byte × List Byte)} (hfit : ∀ d ∈ ds, d.2.length ≤ clilen)
    (s : SigioEcho) : (sigioEcho clilen mask malloced).run s (ds.map fun d => .arrive d.1 d.2) =
      some { s with socket := s.socket ++ ds } := by
  induction ds generalizing s with
  | nil => simp
  | cons d ds ih =>
    obtain ⟨hd,hds⟩ := List.forall_mem_cons.mp hfit
    have hstep : (sigioEcho clilen mask malloced).step s (.arrive d.1 d.2) =
        some { s with socket := s.socket ++ [d] } := if_pos hd
    rw [List.map_cons,Machine.run_cons,hstep,Option.bind_some,ih hds]
    simp

theorem recvfrom_step {d : List Byte × List Byte} {ds : List (List Byte × List Byte)} {n : Nat}
    (hrun : s.server.pc ≠ .exited) (hn : s.server.handler = some n)
    (hsocket : s.socket = d :: ds) (hfit : d.2.length ≤ clilen) (hroom : s.server.nqueue < QSIZE) :
    ∃ t, s.step clilen (.serve (.recvfrom (.datagram d.1 d.2))) = some t ∧ t.socket = ds ∧
      t.server.pc = s.server.pc ∧ t.server.handler = some (n + 1) ∧
      t.server.nqueue = s.server.nqueue + 1 := by
  have hr : Recvfrom.From (.datagram d.1 d.2) (d :: ds) := rfl
  have hge : ¬ s.server.nqueue ≥ QSIZE := by omega
  simp only [step,hsocket,if_pos hr,DgEcho.step,if_neg hrun,hn,Option.bind_some,DgEcho.sigIo,
    if_neg hge,if_neg (Nat.not_lt.mpr hfit),Option.map_some,read,List.tail_cons]
  exact ⟨_,rfl,rfl,rfl,rfl,rfl⟩

variable (mask malloced) in
theorem recvfrom_run {ds rest : List (List Byte × List Byte)} {n : Nat}
    (hrun : s.server.pc ≠ .exited) (hn : s.server.handler = some n)
    (hsocket : s.socket = ds ++ rest) (hfit : ∀ d ∈ ds, d.2.length ≤ clilen)
    (hroom : s.server.nqueue + ds.length ≤ QSIZE) :
    ∃ t, (sigioEcho clilen mask malloced).run s
        (ds.map fun d => .serve (.recvfrom (.datagram d.1 d.2))) = some t ∧ t.socket = rest ∧
      t.server.pc = s.server.pc ∧ t.server.handler = some (n + ds.length) ∧
      t.server.nqueue = s.server.nqueue + ds.length := by
  induction ds generalizing s n with
  | nil => exact ⟨s,rfl,hsocket,rfl,hn,by simp⟩
  | cons d ds ih =>
    obtain ⟨hd,hds⟩ := List.forall_mem_cons.mp hfit
    rw [List.length_cons] at hroom
    obtain ⟨u,hu,husocket,hupc,hun,hunqueue⟩ := recvfrom_step hrun hn hsocket hd (by omega)
    obtain ⟨t,ht,htsocket,htpc,htn,htnqueue⟩ :=
      ih (hupc ▸ hrun) hun husocket hds (by omega)
    refine ⟨t,?_,htsocket,htpc.trans hupc,?_,?_⟩
    · rw [List.map_cons,Machine.run_cons]
      exact (congrArg (Option.bind · _) hu).trans ht
    · rw [htn,List.length_cons]
      congr 1
      omega
    · rw [htnqueue,List.length_cons]
      omega

/-- Any eight datagrams that have arrived when the handler of a process that sleeps begins to
read fill the queue. -/
theorem fills_reachable {ds : List (List Byte × List Byte)} {d : List Byte × List Byte}
    (hfit : ∀ x ∈ ds ++ [d], x.2.length ≤ clilen) (hlength : ds.length = QSIZE - 1) :
    ∃ q t, (sigioEcho clilen mask malloced).Reachable q ∧
      q.Fills (.serve (.recvfrom (.datagram d.1 d.2))) ∧
      (sigioEcho clilen mask malloced).step q (.serve (.recvfrom (.datagram d.1 d.2))) =
        some t := by
  let m := sigioEcho clilen mask malloced
  have harrive : m.run m.init ((ds ++ [d]).map fun x => .arrive x.1 x.2) =
      some { m.init with socket := ds ++ [d] } := arrive_run hfit m.init
  obtain ⟨s,hs,hsocket,hpc,hn,hnqueue⟩ : ∃ s, m.run { m.init with socket := ds ++ [d] }
      [.serve .main,.serve .main,.serve .main,.serve .sigio] = some s ∧ s.socket = ds ++ [d] ∧
      s.server.pc = .suspend false ∧ s.server.handler = some 0 ∧ s.server.nqueue = 0 :=
    ⟨_,rfl,rfl,rfl,rfl,rfl⟩
  have hrun : s.server.pc ≠ .exited := by simp [hpc]
  obtain ⟨q,hq,hqsocket,hqpc,hqn,hqnqueue⟩ := recvfrom_run mask malloced hrun hn hsocket
    (fun x hx => hfit x (List.mem_append_left _ hx)) (by simp [hnqueue,hlength])
  have hlast : q.server.nqueue = QSIZE - 1 := by
    rw [hqnqueue,hnqueue,hlength]
    rfl
  obtain ⟨t,ht,-⟩ := recvfrom_step (hqpc ▸ hrun) hqn hqsocket (hfit d (by simp)) (by omega)
  have hreach : m.Reachable s := Machine.Reachable.run ⟨_,harrive⟩ hs
  exact ⟨q,t,hreach.run hq,⟨⟨_,_,rfl⟩,hlast,by simp [hqsocket]⟩,ht⟩

/-- Each overflow in a run of which no step fills the queue. -/
theorem overflow_true {as : List SigioAct} {m : Machine SigioEcho SigioAct}
    (hm : m = sigioEcho clilen mask malloced) (hs : m.run m.init as = some s)
    (hnone : ∀ q a, (q,a) ∈ m.trace m.init as → ¬ q.Fills a) :
    ∀ q a, (q,a) ∈ m.trace m.init as → q.Overflows a →
      q.server.nqueue = QSIZE ∧ q.socket ≠ [] := by
  subst hm
  intro q a hq hover
  have hready : q.Ready := Machine.avoiding_trace init_ready
    (fun s a t hs hinv hfills ht => step_ready hs hinv hfills ht) hnone hq
  obtain ⟨hreach,t,ht⟩ := Machine.mem_trace (Machine.reachable_init _) hs hq
  obtain ⟨hgoes,hfull⟩ := overflow_full hreach hover ht
  exact ⟨hfull,(hready hgoes hfull).2⟩

end SigioEcho

/-- A handler that quits has met a full queue and a further datagram, in every run in which the
only datagram that waits is never read into the last free slot. When it is, the handler quits
in front of an empty socket. -/
theorem sigIo_overflow (clilen : Nat) (mask : Bool) (malloced : Nat → DG) :
    let m := sigioEcho clilen mask malloced
    (∀ as s, m.run m.init as = some s → (∀ q a, (q,a) ∈ m.trace m.init as → ¬ q.Fills a) →
      ∀ q a, (q,a) ∈ m.trace m.init as → q.Overflows a →
        q.server.nqueue = QSIZE ∧ q.socket ≠ []) ∧
    (∀ q a t, q.Fills a → m.step q a = some t →
      t.socket = [] ∧ t.Overflows (.serve (.recvfrom (.fail .ewouldblock))) ∧
      ∃ u, m.step t (.serve (.recvfrom (.fail .ewouldblock))) = some u ∧
        u.server.pc = .exited) ∧
    ∀ (ds : List (List Byte × List Byte)) (d : List Byte × List Byte),
      (∀ x ∈ ds ++ [d], x.2.length ≤ clilen) → ds.length = QSIZE - 1 →
      ∃ q t, m.Reachable q ∧ q.Fills (.serve (.recvfrom (.datagram d.1 d.2))) ∧
        m.step q (.serve (.recvfrom (.datagram d.1 d.2))) = some t := by
  intro m
  exact ⟨fun as s hs hnone => SigioEcho.overflow_true rfl hs hnone,
    fun q a t hq ht => SigioEcho.fills_overflow hq ht,
    fun ds d hfit hlength => SigioEcho.fills_reachable hfit hlength⟩

/-- Eight datagrams arrive while the server sleeps, and it quits once it has read them. -/
theorem sigIo_false_overflow : ¬ ∀ (clilen : Nat) (mask : Bool) (malloced : Nat → DG)
    (q : SigioEcho) (a : SigioAct) (t : SigioEcho),
    (sigioEcho clilen mask malloced).Reachable q → q.Overflows a →
    (sigioEcho clilen mask malloced).step q a = some t →
      q.server.nqueue = QSIZE ∧ q.socket ≠ [] := by
  intro h
  let d : List Byte × List Byte := ([1],[7])
  obtain ⟨q,t,hq,hfills,ht⟩ := @SigioEcho.fills_reachable 16 false (fun _ => ⟨[],0,[],0⟩)
    [d,d,d,d,d,d,d] d (by decide) rfl
  obtain ⟨hempty,hover,u,hu,_⟩ := SigioEcho.fills_overflow hfills ht
  exact (h 16 false _ t _ u (hq.step ht) hover hu).2 hempty

end UnixNet
