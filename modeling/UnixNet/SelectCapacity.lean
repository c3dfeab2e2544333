import UnixNet.SelectServer
set_option autoImplicit false

/-! The descriptors that `tcp_serv_select01` puts into its sets, under any descriptor limit. -/

namespace UnixNet

/-- The number that `socket` and `accept` give to a new descriptor. -/
def lowestUnused (fds : Finset Int) : Int :=
  Slots.search (fun fd => (fd : Int) ∉ fds) 0 (fds.card + 1)

theorem lowestUnused_spec (fds : Finset Int) : 0 ≤ lowestUnused fds ∧ lowestUnused fds ∉ fds ∧
    ∀ fd, 0 ≤ fd → fd < lowestUnused fds → fd ∈ fds := by
  have hsome : ∃ i < fds.card + 1, decide ((i : Int) ∉ fds) = true := by
    by_contra hall
    push Not at hall
    have hle : (Finset.range (fds.card + 1)).card ≤ fds.card := by
      refine Finset.card_le_card_of_injOn (fun i : Nat => (i : Int)) (fun i hi => ?_) ?_
      · simpa using hall i (Finset.mem_range.mp hi)
      · exact fun i _ j _ hij => Int.ofNat_inj.mp hij
    rw [Finset.card_range] at hle
    omega
  obtain ⟨_,hfree,hused⟩ := Slots.search_found hsome
  refine ⟨Int.natCast_nonneg _,by simpa [lowestUnused] using hfree,fun fd h0 hlt => ?_⟩
  obtain ⟨i,rfl⟩ := Int.eq_ofNat_of_zero_le h0
  simpa using hused i (by simpa [lowestUnused] using hlt)

theorem lowestUnused_le {fds : Finset Int} {fd : Int} (h0 : 0 ≤ fd) (h : fd ∉ fds) :
    lowestUnused fds ≤ fd := by
  by_contra hlt
  exact h ((lowestUnused_spec fds).2.2 fd h0 (by omega))

/-- What one iteration may meet in a process that had `others` open from the start and
may open descriptors below `limit`. -/
structure SelectRound.Possible (others : Finset Int) (limit listenfd : Int) (r : SelectRound)
    (s : SelectServer) : Prop where
  watched : r.rset ⊆ s.allset
  examined : ∀ fd ∈ r.rset, fd < s.maxfd + 1
  woken : r.rset ≠ ∅
  counted : r.nready = r.rset.card
  given : listenfd ∈ r.rset → ∀ c ∈ r.connfd, c = lowestUnused (others ∪ s.fds) ∧ c < limit

instance SelectRound.decidablePossible (others : Finset Int) (limit listenfd : Int)
    (r : SelectRound) (s : SelectServer) : Decidable (r.Possible others limit listenfd s) :=
  decidable_of_iff (r.rset ⊆ s.allset ∧ (∀ fd ∈ r.rset, fd < s.maxfd + 1) ∧ r.rset ≠ ∅ ∧
    r.nready = r.rset.card ∧
    (listenfd ∈ r.rset → ∀ c ∈ r.connfd, c = lowestUnused (others ∪ s.fds) ∧ c < limit))
    ⟨fun ⟨h₁,h₂,h₃,h₄,h₅⟩ => ⟨h₁,h₂,h₃,h₄,h₅⟩,fun ⟨h₁,h₂,h₃,h₄,h₅⟩ => ⟨h₁,h₂,h₃,h₄,h₅⟩⟩

/-- The server from `Socket` on. A negative `nready` is a `select` that failed. -/
def tcpServSelect01Within (others : Finset Int) (limit : Int) : Machine SelectRun SelectRound where
  init :=
    let listenfd := lowestUnused others
    if listenfd < limit then SelectServer.boot listenfd
    else ⟨⟨fun _ => -1,-1,-1,∅,∅⟩,some (.errSys "socket error"),[]⟩
  step p r :=
    let listenfd := lowestUnused others
    if p.stop = none ∧ (r.nready < 0 ∨ r.Possible others limit listenfd p.state) then
      some (p.andThen (SelectServer.turn listenfd r))
    else none

/-- No set is indexed outside: `FD_SET` stops with `undefined` there, and the others are
given entries of `client`. A connection beyond the capacity ends the server. -/
structure SelectRun.Contained (others : Finset Int) (limit : Int) (p : SelectRun) : Prop where
  set : p.stop ≠ some .undefined
  listed : ∀ i, p.state.client i < FD_SETSIZE
  refused : p.stop = none → ∀ r : SelectRound,
    r.Possible others limit (lowestUnused others) p.state → lowestUnused others ∈ r.rset →
    ∀ c ∈ r.connfd, FD_SETSIZE ≤ c ∨ (∀ i < FD_SETSIZE, 0 ≤ p.state.client i) →
    (p.state.turn (lowestUnused others) r).stop = some (.errQuit "too many clients")

namespace SelectServer
variable {others : Finset Int} {limit : Int} {s : SelectServer}

theorem serve_stop (ans : Answers) (i : Nat) (s : SelectServer) :
    (serve ans i s).stop ≠ some .undefined := by
  cases hread : ans.read (s.client i) with
  | data bs => by_cases hw : ans.writen (s.client i) <;> simp [serve,hread,hw]
  | eof => by_cases hopen : s.client i ∈ s.fds <;> simp [serve,hread,hopen]
  | fail e => simp [serve,hread]

theorem checkClients_contained {listenfd : Int} (h : Inv listenfd s) (r : SelectRound)
    (nready : Int) : (s.checkClients r nready).stop ≠ some .undefined ∧
      Inv listenfd (s.checkClients r nready).state := by
  refine ⟨Pass.countdown_stop (P := fun e => e ≠ some Exit.undefined) (by simp)
    (serve_stop r.toAnswers) _ s nready,?_⟩
  refine Pass.countdown_keeps (I := Inv listenfd) (fun i t ht hhot => ?_) _ nready h
  exact serve_inv ht r.toAnswers (of_decide_eq_true hhot).1

theorem Inv.listed {listenfd : Int} (h : Inv listenfd s) (i : Nat) : s.client i < FD_SETSIZE := by
  by_cases h0 : 0 ≤ s.client i
  · exact (h.bound _ (h.client_mem h0).2).2.1
  · exact (Int.not_le.mp h0).trans (by decide)

/-- Where the limit leaves no number from `FD_SETSIZE` on, none is given. -/
theorem given_small (hcond : ∀ fd : Int, FD_SETSIZE ≤ fd → fd < limit → fd ∈ others)
    {fds : Finset Int} (hlimit : lowestUnused (others ∪ fds) < limit) :
    lowestUnused (others ∪ fds) < FD_SETSIZE := by
  by_contra hge
  have hmem := hcond _ (by omega) hlimit
  exact (lowestUnused_spec (others ∪ fds)).2.1 (Finset.mem_union_left _ hmem)

theorem turn_contained (hcond : ∀ fd : Int, FD_SETSIZE ≤ fd → fd < limit → fd ∈ others)
    {listenfd : Int} (h : Inv listenfd s) {r : SelectRound}
    (hr : r.nready < 0 ∨ r.Possible others limit listenfd s) :
    (s.turn listenfd r).stop ≠ some .undefined ∧ Inv listenfd (s.turn listenfd r).state := by
  unfold turn
  by_cases hneg : r.nready < 0
  · rw [if_pos hneg]
    exact ⟨by simp,h⟩
  · rw [if_neg hneg]
    have hposs := hr.resolve_left hneg
    by_cases hl : listenfd ∈ r.rset
    · rw [if_pos hl]
      cases hc : r.connfd with
      | none =>
        have hacc : s.accept r.toAnswers = ⟨s,some (.errSys "accept error"),[]⟩ := by
          simp [accept,hc]
        rw [hacc,Pass.andThen_some (by simp)]
        exact ⟨by simp,h⟩
      | some c =>
        obtain ⟨rfl,hlimit⟩ := hposs.given hl c hc
        have hsmall := given_small hcond hlimit
        obtain ⟨h0,hnew,_⟩ := lowestUnused_spec (others ∪ s.fds)
        obtain ⟨i,hacc,hi,hfree,_⟩ := accept_eq h hc hsmall
        have hinv := inv_store h hi hfree h0 hsmall fun hmem => hnew (Finset.mem_union_right _ hmem)
        rw [hacc,Pass.andThen_none rfl]
        by_cases hlast : r.nready - 1 ≤ 0
        · simp only [if_pos hlast,Pass.done_stop,Pass.done_state]
          exact ⟨by simp,hinv⟩
        · simp only [if_neg hlast]
          exact checkClients_contained hinv r _
    · rw [if_neg hl]
      exact checkClients_contained h r _

/-- A client that connects while nothing else happens. -/
def arrival (listenfd c : Int) : SelectRound :=
  ⟨⟨some c,fun _ => .eof,fun _ => true⟩,{listenfd},1⟩

theorem arrival_possible {listenfd : Int} (h : Inv listenfd s)
    (hlimit : lowestUnused (others ∪ s.fds) < limit) :
    (arrival listenfd (lowestUnused (others ∪ s.fds))).Possible others limit listenfd s := by
  refine ⟨?_,?_,Finset.singleton_ne_empty _,rfl,?_⟩
  · rw [h.watched]
    exact Finset.singleton_subset_iff.mpr h.listening
  · intro fd hfd
    rw [Finset.mem_singleton.mp hfd]
    exact Int.lt_add_one_of_le (h.bound _ h.listening).2.2
  · intro _ c hc
    cases hc
    exact ⟨rfl,hlimit⟩

theorem turn_arrival (listenfd c : Int) (s : SelectServer) :
    s.turn listenfd (arrival listenfd c) = s.accept (arrival listenfd c).toAnswers := by
  simp [turn,arrival]

/-- The slot is there, but the set is not. -/
theorem accept_undefined {listenfd : Int} (h : Inv listenfd s) {ans : Answers} {c : Int}
    (hc : ans.connfd = some c) (hlarge : FD_SETSIZE ≤ c) :
    (s.accept ans).stop = some .undefined := by
  obtain ⟨hlt,_⟩ := Slots.search_found h.slot_free
  simp only [accept,hc]
  rw [if_neg (by omega),if_neg (by omega)]

/-- The descriptors that still fit into a set. -/
def unused (others : Finset Int) (s : SelectServer) : Finset Nat :=
  (Finset.range FD_SETSIZE).filter fun fd => (fd : Int) ∉ others ∪ s.fds

theorem unused_store (i : Nat) {c : Int} (h0 : 0 ≤ c) (hsmall : c < FD_SETSIZE)
    (hnew : c ∉ others ∪ s.fds) :
    (unused others (s.store i c)).card < (unused others s).card := by
  obtain ⟨n,rfl⟩ := Int.eq_ofNat_of_zero_le h0
  have hsub : unused others (s.store i n) ⊆ unused others s := by
    refine Finset.monotone_filter_right _ fun fd _ hfd hmem => hfd ?_
    exact Finset.union_subset_union_right (Finset.subset_insert _ _) hmem
  have hbefore : n ∈ unused others s :=
    Finset.mem_filter.mpr ⟨Finset.mem_range.mpr (by omega),hnew⟩
  have hafter : n ∉ unused others (s.store i n) := fun hmem =>
    (Finset.mem_filter.mp hmem).2 (Finset.mem_union_right _ (Finset.mem_insert_self _ _))
  exact Finset.card_lt_card ((Finset.ssubset_iff_of_subset hsub).mpr ⟨n,hbefore,hafter⟩)

/-- The run of arrivals: it goes on, or a set was indexed outside. -/
def Filling (listenfd : Int) (p : SelectRun) : Prop :=
  p.stop = some .undefined ∨ p.stop = none ∧ Inv listenfd p.state

def room (others : Finset Int) (p : SelectRun) : Nat :=
  if p.stop = none then (unused others p.state).card + 1 else 0

/-- One more client, while some number `fd` beyond the sets is left to give. -/
theorem filling_step {fd : Int} (hlarge : FD_SETSIZE ≤ fd) (hlimit : fd < limit)
    (hfree : fd ∉ others) {p : SelectRun} (hp : Filling (lowestUnused others) p)
    (hno : ¬ p.stop = some .undefined) :
    ∃ r q, (tcpServSelect01Within others limit).step p r = some q ∧
      Filling (lowestUnused others) q ∧ room others q < room others p := by
  obtain ⟨hgo,hinv⟩ := hp.resolve_left hno
  have hunused : fd ∉ others ∪ p.state.fds := by
    rw [Finset.mem_union]
    rintro (hmem | hmem)
    · exact hfree hmem
    · have hsmall := (hinv.bound fd hmem).2.1
      omega
  have hnext := lowestUnused_le ((Int.natCast_nonneg _).trans hlarge) hunused
  have hposs := arrival_possible hinv (Int.lt_of_le_of_lt hnext hlimit)
  obtain ⟨h0,hnew,_⟩ := lowestUnused_spec (others ∪ p.state.fds)
  generalize lowestUnused (others ∪ p.state.fds) = c at hposs h0 hnew
  have hconn : (arrival (lowestUnused others) c).connfd = some c := rfl
  refine ⟨_,_,if_pos ⟨hgo,.inr hposs⟩,?_⟩
  rw [Pass.andThen_none hgo,turn_arrival]
  by_cases hsmall : c < FD_SETSIZE
  · obtain ⟨i,hacc,hi,hslot,_⟩ := accept_eq hinv hconn hsmall
    have hless := unused_store i h0 hsmall hnew
    rw [hacc]
    refine ⟨.inr ⟨rfl,inv_store hinv hi hslot h0 hsmall ?_⟩,?_⟩
    · exact fun hmem => hnew (Finset.mem_union_right _ hmem)
    · simpa [room,hgo] using hless
  · have hstop := accept_undefined hinv hconn (Int.not_lt.mp hsmall)
    exact ⟨.inl hstop,by simp [room,hstop,hgo]⟩

theorem overruns {fd : Int} (hlarge : FD_SETSIZE ≤ fd) (hlimit : fd < limit)
    (hfree : fd ∉ others) :
    ∃ p, (tcpServSelect01Within others limit).Reachable p ∧ p.stop = some .undefined := by
  have hle := lowestUnused_le ((Int.natCast_nonneg _).trans hlarge) hfree
  have hinit : (tcpServSelect01Within others limit).init = boot (lowestUnused others) :=
    if_pos (Int.lt_of_le_of_lt hle hlimit)
  have hfill : Filling (lowestUnused others) (tcpServSelect01Within others limit).init := by
    rw [hinit]
    by_cases hl : lowestUnused others < FD_SETSIZE
    · obtain ⟨hstop,_,hinv⟩ := inv_boot (lowestUnused_spec others).1 hl
      exact .inr ⟨hstop,hinv⟩
    · exact .inl (by rw [boot,if_neg hl])
  obtain ⟨p,hp,_,hstop⟩ := Machine.reaches_of_rank (room others)
    (fun p => filling_step hlarge hlimit hfree) hfill (Machine.reachable_init _)
  exact ⟨p,hp,hstop⟩

/-- What the server keeps where no number beyond the sets can be given. -/
structure Kept (listenfd : Int) (p : SelectRun) : Prop where
  set : p.stop ≠ some .undefined
  listed : ∀ i, p.state.client i < FD_SETSIZE
  inv : p.stop = none → Inv listenfd p.state

theorem kept_init (hcond : ∀ fd : Int, FD_SETSIZE ≤ fd → fd < limit → fd ∈ others) :
    Kept (lowestUnused others) (tcpServSelect01Within others limit).init := by
  by_cases hl : lowestUnused others < limit
  · have hsmall : lowestUnused (others ∪ ∅) < FD_SETSIZE :=
      given_small hcond (by simpa using hl)
    rw [Finset.union_empty] at hsmall
    obtain ⟨hstop,_,hinv⟩ := inv_boot (lowestUnused_spec others).1 hsmall
    have hinit : (tcpServSelect01Within others limit).init = boot (lowestUnused others) :=
      if_pos hl
    rw [hinit]
    exact ⟨by simp [hstop],hinv.listed,fun _ => hinv⟩
  · have hinit : (tcpServSelect01Within others limit).init =
        ⟨⟨fun _ => -1,-1,-1,∅,∅⟩,some (.errSys "socket error"),[]⟩ := if_neg hl
    rw [hinit]
    exact ⟨by simp,fun i => by simp [FD_SETSIZE],by simp⟩

theorem kept_run (hcond : ∀ fd : Int, FD_SETSIZE ≤ fd → fd < limit → fd ∈ others)
    {p : SelectRun} (hp : (tcpServSelect01Within others limit).Reachable p) :
    Kept (lowestUnused others) p := by
  refine hp.invariant (kept_init hcond) ?_
  rintro q r t hq ht
  obtain ⟨⟨hgo,hr⟩,rfl⟩ := Option.ite_some_none_eq_some.mp ht
  obtain ⟨hset,hinv⟩ := turn_contained hcond (hq.inv hgo) hr
  rw [Pass.andThen_none hgo]
  exact ⟨hset,hinv.listed,fun _ => hinv⟩

end SelectServer

/-- The sets are kept in range exactly when no number beyond them can be given. -/
theorem tcpServSelect01_contained_iff (others : Finset Int) (limit : Int) :
    (∀ p, (tcpServSelect01Within others limit).Reachable p → p.Contained others limit) ↔
      ∀ fd : Int, FD_SETSIZE ≤ fd → fd < limit → fd ∈ others := by
  constructor
  · intro hall fd hlarge hlimit
    by_contra hfree
    obtain ⟨p,hp,hstop⟩ := SelectServer.overruns hlarge hlimit hfree
    exact (hall p hp).set hstop
  · intro hcond p hp
    have hkept := SelectServer.kept_run hcond hp
    refine ⟨hkept.set,hkept.listed,fun hgo r hr hl c hc hfull => ?_⟩
    obtain ⟨rfl,hlimit⟩ := hr.given hl c hc
    have hsmall := SelectServer.given_small hcond hlimit
    obtain ⟨i,hi,hslot⟩ := (hkept.inv hgo).slot_free
    have hneg : p.state.client i < 0 := of_decide_eq_true hslot
    rcases hfull with hlarge | hused
    · omega
    · have h0 := hused i hi
      omega

/-- With three descriptors open and room for 4096, the 1021st client gets number 1024. -/
theorem tcpServSelect01_not_contained :
    ¬ ∀ p, (tcpServSelect01Within {0,1,2} 4096).Reachable p → p.Contained {0,1,2} 4096 := by
  intro hall
  have hlimit : (1024 : Int) < 4096 := by decide
  have hfree : (1024 : Int) ∉ ({0,1,2} : Finset Int) := by decide
  obtain ⟨p,hp,hstop⟩ := SelectServer.overruns (by decide) hlimit hfree
  exact (hall p hp).set hstop

end UnixNet
