import Mathlib.Data.Finset.Card
import UnixNet.EventLoop
import UnixNet.Library.Machine
import UnixNet.Library.Pass
import UnixNet.Library.Slots
set_option autoImplicit false

/-! The loop of `tcp_serv_select01`, one iteration a step. -/

namespace UnixNet

/-- The variables that live across iterations; `fds` are the descriptors that the
process has open. -/
structure SelectServer where
  client : Nat → Int
  maxi : Int
  maxfd : Int
  allset : Finset Int
  fds : Finset Int

/-- `Select` leaves the readable descriptors in `rset` and returns `nready`. -/
structure SelectRound extends Answers where
  rset : Finset Int
  nready : Int

abbrev SelectRun := Pass SelectServer Exit Action

namespace SelectServer

/-- `Close(sockfd); FD_CLR(sockfd, &allset); client[i] = -1;` -/
def drop (i : Nat) (s : SelectServer) : SelectServer :=
  { s with
    client := Function.update s.client i (-1)
    allset := s.allset.erase (s.client i)
    fds := s.fds.erase (s.client i) }

/-- The body of `if (FD_ISSET(sockfd, &rset))`. -/
def serve (ans : Answers) (i : Nat) (s : SelectServer) : SelectRun :=
  let sockfd := s.client i
  match ans.read sockfd with
  | .fail e => ⟨s,some (.errSys "read error"),[.read sockfd (.fail e)]⟩
  | .eof =>
    if sockfd ∈ s.fds then ⟨s.drop i,none,[.read sockfd .eof,.close sockfd]⟩
    else ⟨s,some (.errSys "close error"),[.read sockfd .eof]⟩
  | .data bs =>
    if ans.writen sockfd then ⟨s,none,[.read sockfd (.data bs),.write sockfd bs]⟩
    else ⟨s,some (.errSys "writen error"),[.read sockfd (.data bs)]⟩

/-- Slot `i`, the set and the two maxima for a new connection. -/
def store (i : Nat) (connfd : Int) (s : SelectServer) : SelectServer :=
  { client := Function.update s.client i connfd
    maxi := max s.maxi i
    maxfd := max s.maxfd connfd
    allset := insert connfd s.allset
    fds := insert connfd s.fds }

/-- The new connection. `FD_SET` checks no bound. -/
def accept (ans : Answers) (s : SelectServer) : SelectRun :=
  match ans.connfd with
  | none => ⟨s,some (.errSys "accept error"),[]⟩
  | some connfd =>
    let i := Slots.search (fun i => s.client i < 0) 0 FD_SETSIZE
    if i = FD_SETSIZE then
      ⟨{ s with fds := insert connfd s.fds },some (.errQuit "too many clients"),[.accept connfd]⟩
    else if connfd < FD_SETSIZE then ⟨s.store i connfd,none,[.accept connfd]⟩
    else
      ⟨{ s with client := Function.update s.client i connfd, fds := insert connfd s.fds },
        some .undefined,[.accept connfd]⟩

def hot (rset : Finset Int) (s : SelectServer) (i : Nat) : Bool :=
  0 ≤ s.client i ∧ s.client i ∈ rset

def checkClients (r : SelectRound) (nready : Int) (s : SelectServer) : SelectRun :=
  Pass.countdown (hot r.rset) (serve r.toAnswers) (List.range (s.maxi + 1).toNat) s nready

/-- One turn of `while (1)`. -/
def turn (listenfd : Int) (r : SelectRound) (s : SelectServer) : SelectRun :=
  if r.nready < 0 then ⟨s,some (.errSys "select error"),[]⟩
  else if listenfd ∈ r.rset then
    (s.accept r.toAnswers).andThen fun s =>
      if r.nready - 1 ≤ 0 then Pass.done s else s.checkClients r (r.nready - 1)
  else s.checkClients r r.nready

def boot (listenfd : Int) : SelectRun :=
  let s := ⟨fun _ => -1,-1,listenfd,{listenfd},{listenfd}⟩
  if listenfd < FD_SETSIZE then Pass.done s else ⟨s,some .undefined,[]⟩

end SelectServer

/-- What `select`, `accept` and well-behaved clients may answer. -/
structure SelectRound.Valid (listenfd : Int) (r : SelectRound) (s : SelectServer) : Prop where
  watched : r.rset ⊆ s.allset
  examined : ∀ fd ∈ r.rset, fd < s.maxfd + 1
  woken : r.rset ≠ ∅
  counted : r.nready = r.rset.card
  fresh : listenfd ∈ r.rset → r.Fresh s.fds
  small : listenfd ∈ r.rset → ∀ c ∈ r.connfd, c < FD_SETSIZE
  orderly : ∀ fd ∈ r.rset, fd ≠ listenfd → (r.read fd).Orderly ∧ r.writen fd = true

instance SelectRound.decidableValid (listenfd : Int) (r : SelectRound) (s : SelectServer) :
    Decidable (r.Valid listenfd s) :=
  decidable_of_iff (r.rset ⊆ s.allset ∧ (∀ fd ∈ r.rset, fd < s.maxfd + 1) ∧ r.rset ≠ ∅ ∧
    r.nready = r.rset.card ∧ (listenfd ∈ r.rset → r.Fresh s.fds) ∧
    (listenfd ∈ r.rset → ∀ c ∈ r.connfd, c < FD_SETSIZE) ∧
    ∀ fd ∈ r.rset, fd ≠ listenfd → (r.read fd).Orderly ∧ r.writen fd = true)
    ⟨fun ⟨h₁,h₂,h₃,h₄,h₅,h₆,h₇⟩ => ⟨h₁,h₂,h₃,h₄,h₅,h₆,h₇⟩,
      fun ⟨h₁,h₂,h₃,h₄,h₅,h₆,h₇⟩ => ⟨h₁,h₂,h₃,h₄,h₅,h₆,h₇⟩⟩

def tcpServSelect01 (listenfd : Int) : Machine SelectRun SelectRound where
  init := SelectServer.boot listenfd
  step p r :=
    if p.stop = none ∧ r.Valid listenfd p.state then
      some (p.andThen (SelectServer.turn listenfd r))
    else none

namespace SelectServer
variable {listenfd : Int} {s : SelectServer}

/-- Every client has one slot, and `allset` is what the process has open. -/
structure Inv (listenfd : Int) (s : SelectServer) : Prop where
  table : Slots.Keeps (0 ≤ ·) s.client (s.maxi + 1).toNat (s.fds.erase listenfd)
  listening : listenfd ∈ s.fds
  watched : s.allset = s.fds
  bound : ∀ fd ∈ s.fds, 0 ≤ fd ∧ fd < FD_SETSIZE ∧ fd ≤ s.maxfd
  maxi : -1 ≤ s.maxi ∧ s.maxi < FD_SETSIZE

theorem Inv.client_mem (h : Inv listenfd s) {i : Nat} (hi : 0 ≤ s.client i) :
    s.client i ≠ listenfd ∧ s.client i ∈ s.fds := Finset.mem_erase.mp (h.table.mem i hi).2

theorem inv_drop (h : Inv listenfd s) {i : Nat} (hi : 0 ≤ s.client i) :
    Inv listenfd (s.drop i) := by
  obtain ⟨hne,hmem⟩ := h.client_mem hi
  refine ⟨?_,Finset.mem_erase.mpr ⟨Ne.symm hne,h.listening⟩,?_,?_,h.maxi⟩
  · have ht := h.table.erase hi (k := -1) (by decide)
    rwa [Finset.erase_right_comm] at ht
  · simp [drop,h.watched]
  · intro fd hfd
    exact h.bound fd (Finset.mem_of_mem_erase hfd)

theorem serve_state (ans : Answers) (i : Nat) (s : SelectServer) :
    (serve ans i s).state = s ∨ (serve ans i s).state = s.drop i := by
  cases hread : ans.read (s.client i) with
  | data bs => by_cases hw : ans.writen (s.client i) <;> simp [serve,hread,hw]
  | eof => by_cases hopen : s.client i ∈ s.fds <;> simp [serve,hread,hopen]
  | fail e => simp [serve,hread]

theorem serve_client (ans : Answers) {i j : Nat} (hij : i ≠ j) (s : SelectServer) :
    (serve ans i s).state.client j = s.client j := by
  rcases serve_state ans i s with h | h
  · rw [h]
  · rw [h]
    exact Function.update_of_ne (Ne.symm hij) _ _

theorem serve_good {ans : Answers} {i : Nat} (horderly : (ans.read (s.client i)).Orderly)
    (hwriten : ans.writen (s.client i) = true) (hopen : s.client i ∈ s.fds) :
    serve ans i s =
      ⟨if (ans.read (s.client i)).ends then s.drop i else s,none,ans.echo (s.client i)⟩ := by
  cases hread : ans.read (s.client i) with
  | data bs => simp [serve,Answers.echo,ReadResult.ends,hread,hwriten]
  | eof => simp [serve,Answers.echo,ReadResult.ends,hread,hopen]
  | fail e => simp [hread,ReadResult.Orderly] at horderly

theorem serve_inv (h : Inv listenfd s) (ans : Answers) {i : Nat} (h0 : 0 ≤ s.client i) :
    Inv listenfd (serve ans i s).state := by
  rcases serve_state ans i s with hst | hst
  · rwa [hst]
  · rw [hst]
    exact inv_drop h h0

theorem Inv.slot_free (h : Inv listenfd s) : ∃ i < FD_SETSIZE, decide (s.client i < 0) = true :=
  UnixNet.slot_free h.table (Finset.erase_ssubset h.listening)
    fun fd hfd => ⟨(h.bound fd hfd).1,(h.bound fd hfd).2.1⟩

theorem accept_eq (h : Inv listenfd s) {ans : Answers} {c : Int} (hc : ans.connfd = some c)
    (hsmall : c < FD_SETSIZE) : ∃ i, s.accept ans = ⟨s.store i c,none,[.accept c]⟩ ∧
      i < FD_SETSIZE ∧ s.client i < 0 ∧ ∀ j < i, 0 ≤ s.client j := by
  obtain ⟨hlt,hneg,hused⟩ := Slots.search_found h.slot_free
  simp only [accept,hc]
  rw [if_neg (by omega),if_pos hsmall]
  exact ⟨_,rfl,hlt,by simpa using hneg,fun j hj => by simpa using hused j hj⟩

theorem inv_store (h : Inv listenfd s) {i : Nat} {c : Int} (hi : i < FD_SETSIZE)
    (hneg : s.client i < 0) (h0 : 0 ≤ c) (hsmall : c < FD_SETSIZE) (hnew : c ∉ s.fds) :
    Inv listenfd (s.store i c) := by
  have hcl : c ≠ listenfd := by
    rintro rfl
    exact hnew h.listening
  refine ⟨?_,Finset.mem_insert_of_mem h.listening,?_,?_,?_⟩
  · have ht := h.table.insert (max s.maxi i + 1).toNat (by simpa using hneg) h0
      (fun hmem => hnew (Finset.mem_of_mem_erase hmem)) (by omega) (by omega)
    rwa [← Finset.erase_insert_of_ne hcl] at ht
  · simp [store,h.watched]
  · exact bound_insert h.bound h0 hsmall
  · have hm := h.maxi
    simp only [store]
    omega

theorem accept_good (h : Inv listenfd s) {ans : Answers} (hfresh : ans.Fresh s.fds)
    (hsmall : ∀ c ∈ ans.connfd, c < FD_SETSIZE) :
    ∃ c, (s.accept ans).stop = none ∧ (s.accept ans).log = [.accept c] ∧
      (s.accept ans).state.fds = insert c s.fds ∧ Inv listenfd (s.accept ans).state := by
  obtain ⟨c,hc,h0,hnew⟩ := hfresh.elim
  obtain ⟨i,heq,hi,hneg,_⟩ := accept_eq h hc (hsmall c hc)
  rw [heq]
  exact ⟨c,rfl,rfl,rfl,inv_store h hi hneg h0 (hsmall c hc) hnew⟩

/-- The clients that an iteration reads, in the order of their slots. -/
def served (listenfd : Int) (rset : Finset Int) (s : SelectServer) : List Int :=
  (Slots.among s.client (s.maxi + 1).toNat (rset.erase listenfd)).map s.client

theorem Inv.filter_hot (h : Inv listenfd s) {rset : Finset Int} (hopen : rset ⊆ s.fds) :
    (List.range (s.maxi + 1).toNat).filter (hot rset s) =
      Slots.among s.client (s.maxi + 1).toNat (rset.erase listenfd) := by
  refine List.filter_congr fun i _ => ?_
  simp only [hot,decide_eq_decide,Finset.mem_erase]
  constructor
  · rintro ⟨h0,hi⟩
    exact ⟨(h.client_mem h0).1,hi⟩
  · rintro ⟨_,hi⟩
    exact ⟨(h.bound _ (hopen hi)).1,hi⟩

/-- `nready` reported clients are all served before the loop leaves. -/
theorem checkClients_eq (h : Inv listenfd s) {r : SelectRound} (nready : Int)
    (hopen : r.rset ⊆ s.fds) (hpos : 0 < nready)
    (hcount : nready = (r.rset.erase listenfd).card) :
    s.checkClients r nready = Pass.each (serve r.toAnswers)
      (Slots.among s.client (s.maxi + 1).toNat (r.rset.erase listenfd)) s := by
  have hkeep : ∀ i j t, i ≠ j → hot r.rset (serve r.toAnswers i t).state j = hot r.rset t j := by
    intro i j t hij
    simp only [hot,serve_client r.toAnswers hij]
  have hall : (Slots.among s.client (s.maxi + 1).toNat (r.rset.erase listenfd)).length ≤
      nready.toNat := by
    rw [h.table.length_among (Finset.erase_subset_erase listenfd hopen)]
    omega
  rw [checkClients,Pass.countdown_eq_each hkeep List.nodup_range hpos,h.filter_hot hopen,
    List.take_of_length_le hall]

theorem checkClients_good (h : Inv listenfd s) {r : SelectRound} (nready : Int)
    (hopen : r.rset ⊆ s.fds) (hpos : 0 < nready)
    (hcount : nready = (r.rset.erase listenfd).card)
    (horderly : ∀ fd ∈ r.rset, fd ≠ listenfd → (r.read fd).Orderly ∧ r.writen fd = true) :
    (s.checkClients r nready).stop = none ∧
      (s.checkClients r nready).log = (s.served listenfd r.rset).flatMap r.echo ∧
      Inv listenfd (s.checkClients r nready).state := by
  rw [checkClients_eq h nready hopen hpos hcount,served,List.flatMap_map]
  refine Pass.each_served (I := Inv listenfd)
    (Q := fun i t => t.client i = s.client i ∧ s.client i ∈ r.rset.erase listenfd)
    (fun i => r.echo (s.client i)) ?_ ?_ (Slots.among_nodup _ _ _) h ?_
  · rintro i t ht ⟨hsame,hi⟩
    obtain ⟨hne,hmem⟩ := Finset.mem_erase.mp hi
    have h0 : 0 ≤ t.client i := hsame ▸ (h.bound _ (hopen hmem)).1
    rw [← hsame] at hne hmem ⊢
    obtain ⟨hread,hwriten⟩ := horderly _ hmem hne
    have hgood := serve_good hread hwriten (ht.client_mem h0).2
    exact ⟨by rw [hgood],by rw [hgood],serve_inv ht r.toAnswers h0⟩
  · rintro i j t hij ⟨hsame,hj⟩
    exact ⟨(serve_client r.toAnswers hij t).trans hsame,hj⟩
  · intro i hi
    exact ⟨rfl,(h.table.mem_among (Finset.erase_subset_erase listenfd hopen)).mp hi⟩

theorem Inv.served_once (h : Inv listenfd s) {rset : Finset Int} (hopen : rset ⊆ s.fds) :
    (s.served listenfd rset).Nodup ∧
      ∀ fd, fd ∈ s.served listenfd rset ↔ fd ∈ rset ∧ fd ≠ listenfd := by
  have hsub := Finset.erase_subset_erase listenfd hopen
  refine ⟨h.table.map_nodup hsub,fun fd => ?_⟩
  rw [served,← List.mem_toFinset,h.table.map_among hsub,Finset.mem_erase,and_comm]

theorem turn_good (h : Inv listenfd s) {r : SelectRound} (hr : r.Valid listenfd s) :
    (s.turn listenfd r).stop = none ∧ Inv listenfd (s.turn listenfd r).state ∧
      ∃ (pre : List Action) (cs : List Int), (s.turn listenfd r).log = pre ++ cs.flatMap r.echo ∧
        (pre = [] ∨ ∃ c, pre = [.accept c]) ∧ cs.Nodup ∧
        ∀ fd, fd ∈ cs ↔ fd ∈ r.rset ∧ fd ≠ listenfd := by
  have hopen : r.rset ⊆ s.fds := h.watched ▸ hr.watched
  have hpos := Finset.card_pos.mpr (Finset.nonempty_iff_ne_empty.mpr hr.woken)
  have hcount := hr.counted
  rw [turn,if_neg (by omega)]
  by_cases hl : listenfd ∈ r.rset
  · obtain ⟨c,hstop,hlog,hfds,hinv⟩ := accept_good h (hr.fresh hl) (hr.small hl)
    have hcard := Finset.card_erase_of_mem hl
    have hopen' : r.rset ⊆ (s.accept r.toAnswers).state.fds := by
      rw [hfds]
      exact hopen.trans (Finset.subset_insert _ _)
    rw [if_pos hl,Pass.andThen_none hstop]
    by_cases hlast : r.nready - 1 ≤ 0
    · have hnone : r.rset.erase listenfd = ∅ := Finset.card_eq_zero.mp (by omega)
      simp only [if_pos hlast,Pass.done_stop,Pass.done_state,Pass.done_log,hlog,List.append_nil]
      refine ⟨trivial,hinv,[.accept c],[],by simp,.inr ⟨c,rfl⟩,List.nodup_nil,fun fd => ?_⟩
      rw [and_comm,← Finset.mem_erase,hnone]
      simp
    · obtain ⟨hstop',hlog',hinv'⟩ := checkClients_good hinv (r.nready - 1) hopen'
        (by omega) (by omega) hr.orderly
      simp only [if_neg hlast,hlog,hlog']
      obtain ⟨hnd,hmem⟩ := hinv.served_once hopen'
      exact ⟨hstop',hinv',[.accept c],_,rfl,.inr ⟨c,rfl⟩,hnd,hmem⟩
  · rw [if_neg hl]
    obtain ⟨hstop,hlog,hinv⟩ := checkClients_good h r.nready hopen (by omega)
      (by rw [Finset.erase_eq_of_notMem hl]; exact hcount) hr.orderly
    obtain ⟨hnd,hmem⟩ := h.served_once hopen
    exact ⟨hstop,hinv,[],_,hlog,.inl rfl,hnd,hmem⟩

/-- What holds at the top of the loop. -/
structure RepInv (listenfd : Int) (s : SelectServer) : Prop where
  allset : ∀ fd, fd ∈ s.allset ↔ fd = listenfd ∨ 0 ≤ fd ∧ ∃ i < FD_SETSIZE, s.client i = fd
  distinct : ∀ i j, 0 ≤ s.client i → s.client i = s.client j → i = j
  usedBelow : ∀ i, 0 ≤ s.client i → i ≤ s.maxi
  belowMaxfd : ∀ fd ∈ s.allset, fd ≤ s.maxfd

theorem Inv.repInv (h : Inv listenfd s) : RepInv listenfd s := by
  have hbelow : ∀ i, 0 ≤ s.client i → (i : Int) ≤ s.maxi := by
    intro i hi
    have hlt := (h.table.mem i hi).1
    omega
  refine ⟨fun fd => ?_,h.table.inj,hbelow,fun fd hfd => ?_⟩
  · rw [h.watched]
    constructor
    · intro hfd
      by_cases hl : fd = listenfd
      · exact .inl hl
      · obtain ⟨h0,i,rfl⟩ := h.table.slot fd (Finset.mem_erase.mpr ⟨hl,hfd⟩)
        have hi := hbelow i h0
        have hmaxi := h.maxi.2
        exact .inr ⟨h0,i,by omega,rfl⟩
    · rintro (rfl | ⟨h0,i,_,rfl⟩)
      · exact h.listening
      · exact (h.client_mem h0).2
  · exact (h.bound fd (h.watched ▸ hfd)).2.2

/-- Each reported client is read once, the others not at all, and each gets back
what was read from it. -/
structure TurnServes (listenfd : Int) (r : SelectRound) (p : SelectRun) : Prop where
  goesOn : p.stop = none
  readOnce : ∀ fd, readsOn fd p.log =
    if fd ∈ r.rset ∧ fd ≠ listenfd then [r.read fd] else []
  echoes : ∀ fd, sent fd p.log = received fd p.log

theorem turn_serves (h : Inv listenfd s) {r : SelectRound} (hr : r.Valid listenfd s) :
    TurnServes listenfd r (s.turn listenfd r) := by
  obtain ⟨hstop,_,pre,cs,hlog,hpre,hnd,hmem⟩ := turn_good h hr
  refine ⟨hstop,fun fd => ?_,fun fd => ?_⟩
  · have hnone : readsOn fd pre = [] := by rcases hpre with rfl | ⟨c,rfl⟩ <;> rfl
    rw [hlog,readsOn_append,hnone,readsOn_echoes _ _ hnd,if_congr (hmem fd) rfl rfl]
    rfl
  · have hnone : sent fd pre = received fd pre := by rcases hpre with rfl | ⟨c,rfl⟩ <;> rfl
    rw [hlog,sent_append,received_append,hnone,sent_echoes]

theorem inv_boot (h0 : 0 ≤ listenfd) (h1 : listenfd < FD_SETSIZE) :
    (boot listenfd).stop = none ∧ (boot listenfd).log = [] ∧ Inv listenfd (boot listenfd).state := by
  simp only [boot,if_pos h1,Pass.done_stop,Pass.done_log,Pass.done_state,true_and]
  refine ⟨?_,Finset.mem_singleton_self _,rfl,fun fd hfd => ?_,by simp [FD_SETSIZE]⟩
  · rw [Finset.erase_singleton]
    exact Slots.keeps_empty fun i => by simp
  · rw [Finset.mem_singleton.mp hfd]
    exact ⟨h0,h1,Int.le_refl _⟩

end SelectServer

theorem select_run (listenfd : Int) (h0 : 0 ≤ listenfd) (h1 : listenfd < FD_SETSIZE)
    {p : SelectRun} (hp : (tcpServSelect01 listenfd).Reachable p) :
    p.stop = none ∧ SelectServer.Inv listenfd p.state ∧ ∀ fd, sent fd p.log = received fd p.log := by
  refine hp.invariant (I := fun p => p.stop = none ∧ SelectServer.Inv listenfd p.state ∧
    ∀ fd, sent fd p.log = received fd p.log) ?_ ?_
  · obtain ⟨hstop,hlog,hinv⟩ := SelectServer.inv_boot h0 h1
    refine ⟨hstop,hinv,fun fd => ?_⟩
    change sent fd (SelectServer.boot listenfd).log = received fd (SelectServer.boot listenfd).log
    rw [hlog]
    rfl
  · rintro p r t ⟨hstop,hinv,hecho⟩ ht
    obtain ⟨⟨_,hr⟩,rfl⟩ := Option.ite_some_none_eq_some.mp ht
    have hturn := SelectServer.turn_serves hinv hr
    rw [Pass.andThen_none hstop]
    refine ⟨hturn.goesOn,(SelectServer.turn_good hinv hr).2.1,fun fd => ?_⟩
    rw [sent_append,received_append,hecho fd,hturn.echoes fd]

/-- The representation invariant of the `select` server, and what each iteration does. -/
theorem tcpServSelect01_serves (listenfd : Int) (h0 : 0 ≤ listenfd) (h1 : listenfd < FD_SETSIZE)
    (p : SelectRun) (hp : (tcpServSelect01 listenfd).Reachable p) :
    SelectServer.RepInv listenfd p.state ∧ (∀ fd, sent fd p.log = received fd p.log) ∧
      ∀ r : SelectRound, r.Valid listenfd p.state →
        SelectServer.TurnServes listenfd r (p.state.turn listenfd r) := by
  obtain ⟨_,hinv,hecho⟩ := select_run listenfd h0 h1 hp
  exact ⟨hinv.repInv,hecho,fun r hr => SelectServer.turn_serves hinv hr⟩

/-- Client 4 connects and sends "x" while client 5 connects. -/
theorem tcpServSelect01_serves_two : ∃ p, (tcpServSelect01 3).Reachable p ∧
    p.log = [.accept 4,.accept 5,.read 4 (.data [120]),.write 4 [120]] ∧
    SelectServer.RepInv 3 p.state := by
  have hrun : ((tcpServSelect01 3).run (tcpServSelect01 3).init
      [⟨⟨some 4,fun _ => .eof,fun _ => true⟩,{3},1⟩,
        ⟨⟨some 5,fun _ => .data [120],fun _ => true⟩,{3,4},2⟩]).map Pass.log =
      some [.accept 4,.accept 5,.read 4 (.data [120]),.write 4 [120]] := by decide
  obtain ⟨p,hp,hlog⟩ := Option.map_eq_some_iff.mp hrun
  have hreach : (tcpServSelect01 3).Reachable p := ⟨_,hp⟩
  exact ⟨p,hreach,hlog,(tcpServSelect01_serves 3 (by decide) (by decide) p hreach).1⟩

end UnixNet
