import Mathlib.Data.Finset.Card
import UnixNet.EventLoop
import UnixNet.Library.Machine
import UnixNet.Library.Pass
import UnixNet.Library.Slots
set_option autoImplicit false

/-! The loop of `tcp_serv_poll01`, one iteration a step. -/

namespace UnixNet

def OPEN_MAX : Nat := 1024

/-- The bits of poll.h. -/
def POLLRDNORM : BitVec 16 := 0x040
def POLLERR : BitVec 16 := 0x008
def POLLHUP : BitVec 16 := 0x010
def POLLNVAL : BitVec 16 := 0x020

structure PollFd where
  fd : Int
  events : BitVec 16
  revents : BitVec 16

/-- `client[0]` is the listening socket. -/
structure PollServer where
  client : Nat → PollFd
  maxi : Nat
  fds : Finset Int

/-- `Poll` stores `revents` in the slots up to `maxi` and returns `nready`. -/
structure PollRound extends Answers where
  revents : Nat → BitVec 16
  nready : Int

abbrev PollRun := Pass PollServer Exit Action

/-- `revents & (POLLRDNORM | POLLERR)` -/
def readable (revents : BitVec 16) : Bool := revents &&& (POLLRDNORM ||| POLLERR) ≠ 0

@[simp] theorem readable_zero : readable 0#16 = false := rfl

namespace PollServer

/-- `Close(sockfd); client[i].fd = -1;` -/
def drop (i : Nat) (s : PollServer) : PollServer :=
  { s with
    client := Function.update s.client i { s.client i with fd := -1 }
    fds := s.fds.erase (s.client i).fd }

/-- The body of `if (client[i].revents & (POLLRDNORM | POLLERR))`. -/
def serve (ans : Answers) (i : Nat) (s : PollServer) : PollRun :=
  let sockfd := (s.client i).fd
  let close (r : ReadResult) : PollRun :=
    if sockfd ∈ s.fds then ⟨s.drop i,none,[.read sockfd r,.close sockfd]⟩
    else ⟨s,some (.errSys "close error"),[.read sockfd r]⟩
  match ans.read sockfd with
  | .fail .econnreset => close (.fail .econnreset)
  | .fail e => ⟨s,some (.errSys "read error"),[.read sockfd (.fail e)]⟩
  | .eof => close .eof
  | .data bs =>
    if ans.writen sockfd then ⟨s,none,[.read sockfd (.data bs),.write sockfd bs]⟩
    else ⟨s,some (.errSys "writen error"),[.read sockfd (.data bs)]⟩

/-- Slot `i` for a new connection; its `revents` is left as it is. -/
def store (i : Nat) (connfd : Int) (s : PollServer) : PollServer :=
  { client := Function.update s.client i { s.client i with fd := connfd, events := POLLRDNORM }
    maxi := max s.maxi i
    fds := insert connfd s.fds }

def accept (ans : Answers) (s : PollServer) : PollRun :=
  match ans.connfd with
  | none => ⟨s,some (.errSys "accept error"),[]⟩
  | some connfd =>
    let i := Slots.search (fun i => (s.client i).fd < 0) 1 (OPEN_MAX - 1)
    if i = OPEN_MAX then
      ⟨{ s with fds := insert connfd s.fds },some (.errQuit "too many clients"),[.accept connfd]⟩
    else ⟨s.store i connfd,none,[.accept connfd]⟩

def hot (s : PollServer) (i : Nat) : Bool := 0 ≤ (s.client i).fd ∧ readable (s.client i).revents

def checkClients (ans : Answers) (nready : Int) (s : PollServer) : PollRun :=
  Pass.countdown hot (serve ans) (List.range' 1 s.maxi) s nready

/-- The array after `Poll(client, maxi+1, INFTIM)`. -/
def polled (r : PollRound) (s : PollServer) : PollServer :=
  { s with client := fun i =>
      if i ≤ s.maxi then { s.client i with revents := r.revents i } else s.client i }

/-- One turn of `while (1)`. -/
def turn (r : PollRound) (s : PollServer) : PollRun :=
  if r.nready < 0 then ⟨s,some (.errSys "poll error"),[]⟩
  else if ((s.polled r).client 0).revents &&& POLLRDNORM ≠ 0 then
    ((s.polled r).accept r.toAnswers).andThen fun s =>
      if r.nready - 1 ≤ 0 then Pass.done s else s.checkClients r.toAnswers (r.nready - 1)
  else (s.polled r).checkClients r.toAnswers r.nready

/-- `client` as the code sets it up; whatever `array` held stays in the other fields. -/
def boot (listenfd : Int) (array : Nat → PollFd) : PollServer :=
  { client := fun i =>
      if i = 0 then { array i with fd := listenfd, events := POLLRDNORM }
      else { array i with fd := -1 }
    maxi := 0
    fds := {listenfd} }

end PollServer

/-- What `poll` and `accept` may answer; reads and writes may do anything. -/
structure PollRound.Valid (r : PollRound) (s : PollServer) : Prop where
  ignored : ∀ i ≤ s.maxi, (s.client i).fd < 0 → r.revents i = 0
  selected : ∀ i ≤ s.maxi,
    r.revents i &&& ~~~((s.client i).events ||| POLLERR ||| POLLHUP ||| POLLNVAL) = 0
  counted : r.nready = ((List.range (s.maxi + 1)).filter fun i => r.revents i ≠ 0).length
  woken : 0 < r.nready
  fresh : r.revents 0 &&& POLLRDNORM ≠ 0 → ∀ c ∈ r.connfd, 0 ≤ c ∧ c ∉ s.fds

instance PollRound.decidableValid (r : PollRound) (s : PollServer) : Decidable (r.Valid s) :=
  decidable_of_iff ((∀ i ≤ s.maxi, (s.client i).fd < 0 → r.revents i = 0) ∧
    (∀ i ≤ s.maxi,
      r.revents i &&& ~~~((s.client i).events ||| POLLERR ||| POLLHUP ||| POLLNVAL) = 0) ∧
    r.nready = ((List.range (s.maxi + 1)).filter fun i => r.revents i ≠ 0).length ∧
    0 < r.nready ∧
    (r.revents 0 &&& POLLRDNORM ≠ 0 → ∀ c ∈ r.connfd, 0 ≤ c ∧ c ∉ s.fds))
    ⟨fun ⟨h₁,h₂,h₃,h₄,h₅⟩ => ⟨h₁,h₂,h₃,h₄,h₅⟩,fun ⟨h₁,h₂,h₃,h₄,h₅⟩ => ⟨h₁,h₂,h₃,h₄,h₅⟩⟩

def tcpServPoll01 (listenfd : Int) (array : Nat → PollFd) : Machine PollRun PollRound where
  init := Pass.done (PollServer.boot listenfd array)
  step p r :=
    if p.stop = none ∧ r.Valid p.state then some (p.andThen (PollServer.turn r)) else none

/-- Each read is on a descriptor that this `Poll` found readable in its slot, and a
client accepted meanwhile is not read. -/
structure PollServer.ReadsPolled (r : PollRound) (s : PollServer) : Prop where
  polled : ∀ fd x, .read fd x ∈ (s.turn r).log →
    ∃ i ≤ s.maxi, (s.client i).fd = fd ∧ readable (r.revents i) = true
  newWaits : ∀ c, .accept c ∈ (s.turn r).log → readsOn c (s.turn r).log = []

/-- Serving the descriptor ends the process. -/
def Answers.fatal (ans : Answers) (fd : Int) : Bool :=
  match ans.read fd with
  | .fail .econnreset => false
  | .fail _ => true
  | .eof => false
  | .data _ => !ans.writen fd

/-- A new connection opens slot `maxi + 1`, whose `revents` was never set but looks
readable, while another slot has used up `nready` with `POLLHUP` or `POLLNVAL`. -/
structure PollServer.Stale (r : PollRound) (s : PollServer) : Prop where
  listening : r.revents 0 &&& POLLRDNORM ≠ 0
  accepted : r.connfd ≠ none
  full : ∀ i, 1 ≤ i → i ≤ s.maxi → 0 ≤ (s.client i).fd
  room : s.maxi + 1 < OPEN_MAX
  garbage : readable (s.client (s.maxi + 1)).revents = true
  unread : ∃ i, 1 ≤ i ∧ i ≤ s.maxi ∧ r.revents i ≠ 0 ∧ readable (r.revents i) = false
  survives : ∀ i, 1 ≤ i → i ≤ s.maxi → readable (r.revents i) = true →
    r.fatal (s.client i).fd = false

namespace PollServer
variable {listenfd : Int} {s : PollServer}

structure Inv (listenfd : Int) (s : PollServer) : Prop where
  table : Slots.Keeps (0 ≤ ·) (fun i => (s.client (i+1)).fd) s.maxi (s.fds.erase listenfd)
  listening : listenfd ∈ s.fds
  first : (s.client 0).fd = listenfd
  events : ∀ i, 0 ≤ (s.client i).fd → (s.client i).events = POLLRDNORM
  maxi : s.maxi < OPEN_MAX

theorem Inv.client_mem (h : Inv listenfd s) {i : Nat} (hi : 1 ≤ i) (h0 : 0 ≤ (s.client i).fd) :
    i ≤ s.maxi ∧ (s.client i).fd ≠ listenfd ∧ (s.client i).fd ∈ s.fds := by
  obtain ⟨k,rfl⟩ := Nat.exists_eq_add_of_le' hi
  obtain ⟨hlt,hmem⟩ := h.table.mem k h0
  exact ⟨hlt,Finset.mem_erase.mp hmem⟩

/-- Serving a slot ends the process, answers the client or closes the connection. -/
theorem serve_cases (ans : Answers) (i : Nat) (s : PollServer) :
    (∃ e, serve ans i s =
      ⟨s,some e,[.read (s.client i).fd (ans.read (s.client i).fd)]⟩) ∨
    (∃ bs, serve ans i s = ⟨s,none,
      [.read (s.client i).fd (ans.read (s.client i).fd),.write (s.client i).fd bs]⟩) ∨
    serve ans i s = ⟨s.drop i,none,
      [.read (s.client i).fd (ans.read (s.client i).fd),.close (s.client i).fd]⟩ := by
  cases hread : ans.read (s.client i).fd with
  | data bs => by_cases hw : ans.writen (s.client i).fd <;> simp [serve,hread,hw]
  | eof => by_cases hopen : (s.client i).fd ∈ s.fds <;> simp [serve,hread,hopen]
  | fail e =>
    cases e with
    | econnreset => by_cases hopen : (s.client i).fd ∈ s.fds <;> simp [serve,hread,hopen]
    | eintr | econnaborted | eproto | echild | ewouldblock | other => simp [serve,hread]

theorem serve_state (ans : Answers) (i : Nat) (s : PollServer) :
    (serve ans i s).state = s ∨ (serve ans i s).state = s.drop i := by
  rcases serve_cases ans i s with ⟨e,h⟩ | ⟨bs,h⟩ | h
  · exact .inl (by rw [h])
  · exact .inl (by rw [h])
  · exact .inr (by rw [h])

theorem serve_client (ans : Answers) {i j : Nat} (hij : i ≠ j) (s : PollServer) :
    (serve ans i s).state.client j = s.client j := by
  rcases serve_state ans i s with h | h
  · rw [h]
  · rw [h]
    exact Function.update_of_ne (Ne.symm hij) _ _

theorem serve_log (ans : Answers) (i : Nat) (s : PollServer) :
    ∃ tl, (serve ans i s).log = .read (s.client i).fd (ans.read (s.client i).fd) :: tl ∧
      ∀ a ∈ tl, (∀ f x, a ≠ .read f x) ∧ ∀ c, a ≠ .accept c := by
  rcases serve_cases ans i s with ⟨e,h⟩ | ⟨bs,h⟩ | h
  · exact ⟨[],by rw [h],nofun⟩
  · exact ⟨_,by rw [h],by simp⟩
  · exact ⟨_,by rw [h],by simp⟩

theorem serve_track (ans : Answers) (i : Nat) (s : PollServer) :
    (serve ans i s).state.fds = (serve ans i s).log.foldl Action.track s.fds := by
  rcases serve_cases ans i s with ⟨e,h⟩ | ⟨bs,h⟩ | h <;> rw [h] <;> rfl

theorem serve_fatal {ans : Answers} {i : Nat} (hbad : ans.fatal (s.client i).fd = true) :
    (serve ans i s).stop ≠ none := by
  cases hread : ans.read (s.client i).fd with
  | data bs =>
    have hw : ans.writen (s.client i).fd = false := by simpa [Answers.fatal,hread] using hbad
    simp [serve,hread,hw]
  | eof => simp [Answers.fatal,hread] at hbad
  | fail e =>
    cases e with
    | econnreset => simp [Answers.fatal,hread] at hbad
    | eintr | econnaborted | eproto | echild | ewouldblock | other => simp [serve,hread]

theorem serve_good {ans : Answers} {i : Nat} (hopen : (s.client i).fd ∈ s.fds)
    (hok : ans.fatal (s.client i).fd = false) :
    serve ans i s = ⟨if (ans.read (s.client i).fd).ends then s.drop i else s,none,
      ans.echo (s.client i).fd⟩ := by
  cases hread : ans.read (s.client i).fd with
  | data bs =>
    have hw : ans.writen (s.client i).fd = true := by simpa [Answers.fatal,hread] using hok
    simp [serve,Answers.echo,ReadResult.ends,hread,hw]
  | eof => simp [serve,Answers.echo,ReadResult.ends,hread,hopen]
  | fail e =>
    cases e with
    | econnreset => simp [serve,Answers.echo,ReadResult.ends,hread,hopen]
    | eintr | econnaborted | eproto | echild | ewouldblock | other =>
      simp [Answers.fatal,hread] at hok

theorem fd_update (client : Nat → PollFd) (k : Nat) (slot : PollFd) :
    (fun j => (Function.update client (k+1) slot (j+1)).fd) =
      Function.update (fun j => (client (j+1)).fd) k slot.fd := by
  funext j
  by_cases hj : j = k
  · subst hj
    simp
  · simp [hj]

theorem inv_drop (h : Inv listenfd s) {i : Nat} (hi : 1 ≤ i) (h0 : 0 ≤ (s.client i).fd) :
    Inv listenfd (s.drop i) := by
  obtain ⟨_,hne,hmem⟩ := h.client_mem hi h0
  refine ⟨?_,Finset.mem_erase.mpr ⟨Ne.symm hne,h.listening⟩,?_,fun j hj => ?_,h.maxi⟩
  · obtain ⟨k,rfl⟩ := Nat.exists_eq_add_of_le' hi
    have ht := h.table.erase h0 (k := -1) (by decide)
    rwa [Finset.erase_right_comm,← fd_update s.client k { s.client (k+1) with fd := -1 }] at ht
  · simpa only [drop,Function.update_of_ne (by omega : 0 ≠ i)] using h.first
  · by_cases hji : j = i
    · subst hji
      simp [drop] at hj
    · simp only [drop,Function.update_of_ne hji] at hj ⊢
      exact h.events j hj

theorem serve_inv (h : Inv listenfd s) (ans : Answers) {i : Nat} (hi : 1 ≤ i)
    (h0 : 0 ≤ (s.client i).fd) : Inv listenfd (serve ans i s).state := by
  rcases serve_state ans i s with hst | hst
  · rwa [hst]
  · rw [hst]
    exact inv_drop h hi h0

@[simp] theorem polled_fd (r : PollRound) (s : PollServer) (i : Nat) :
    ((s.polled r).client i).fd = (s.client i).fd := by
  simp only [polled]
  split <;> rfl

@[simp] theorem polled_events (r : PollRound) (s : PollServer) (i : Nat) :
    ((s.polled r).client i).events = (s.client i).events := by
  simp only [polled]
  split <;> rfl

theorem inv_polled (h : Inv listenfd s) (r : PollRound) : Inv listenfd (s.polled r) := by
  refine ⟨?_,h.listening,(polled_fd r s 0).trans h.first,fun i hi => ?_,h.maxi⟩
  · simp only [polled_fd]
    exact h.table
  · rw [polled_fd] at hi
    rw [polled_events]
    exact h.events i hi

theorem inv_store (h : Inv listenfd s) {i : Nat} {c : Int} (hi : 1 ≤ i) (hmax : i < OPEN_MAX)
    (hneg : (s.client i).fd < 0) (h0 : 0 ≤ c) (hnew : c ∉ s.fds) : Inv listenfd (s.store i c) := by
  obtain ⟨k,rfl⟩ := Nat.exists_eq_add_of_le' hi
  have hcl : c ≠ listenfd := by
    rintro rfl
    exact hnew h.listening
  have ht := h.table.insert (max s.maxi (k+1)) (by simpa using hneg) h0
    (fun hmem => hnew (Finset.mem_of_mem_erase hmem)) (by omega) (by omega)
  refine ⟨?_,Finset.mem_insert_of_mem h.listening,?_,fun j hj => ?_,?_⟩
  · rwa [← Finset.erase_insert_of_ne hcl,
      ← fd_update s.client k { s.client (k+1) with fd := c, events := POLLRDNORM }] at ht
  · simpa only [store,Function.update_of_ne (Nat.succ_ne_zero k).symm] using h.first
  · by_cases hjk : j = k + 1
    · subst hjk
      simp [store]
    · simp only [store,Function.update_of_ne hjk] at hj ⊢
      exact h.events j hj
  · have hm := h.maxi
    simp only [store]
    omega

/-- A new client takes the first free slot, or the process ends without a read. -/
theorem accept_cases (ans : Answers) (s : PollServer) :
    (s.accept ans).stop ≠ none ∧ (∀ fd x, .read fd x ∉ (s.accept ans).log) ∧
      (ans.connfd = none ∨ ∀ i, 1 ≤ i → i < OPEN_MAX → 0 ≤ (s.client i).fd) ∨
    ∃ c i, ans.connfd = some c ∧ s.accept ans = ⟨s.store i c,none,[.accept c]⟩ ∧
      1 ≤ i ∧ i < OPEN_MAX ∧ (s.client i).fd < 0 ∧ ∀ j, 1 ≤ j → j < i → 0 ≤ (s.client j).fd := by
  cases hc : ans.connfd with
  | none => simp [accept,hc]
  | some c =>
    obtain ⟨hge,hle,hskip,hhit⟩ :=
      Slots.search_spec (fun i => (s.client i).fd < 0) 1 (OPEN_MAX - 1)
    have hmax : 1 + (OPEN_MAX - 1) = OPEN_MAX := rfl
    rw [hmax] at hle hhit
    simp only [accept,hc]
    generalize Slots.search (fun i => (s.client i).fd < 0) 1 (OPEN_MAX - 1) = i at *
    have hused : ∀ j, 1 ≤ j → j < i → 0 ≤ (s.client j).fd := by
      intro j hj hlt
      simpa using hskip j hj hlt
    by_cases hi : i = OPEN_MAX
    · subst hi
      rw [if_pos rfl]
      exact .inl ⟨by simp,by simp,.inr hused⟩
    · rw [if_neg hi]
      exact .inr ⟨c,i,rfl,rfl,hge,by omega,by simpa using hhit (by omega),hused⟩

/-- The slots that the loop over the clients would serve, were it not for `nready`. -/
def slots (s : PollServer) : List Nat := (List.range' 1 s.maxi).filter (hot s)

theorem mem_slots {i : Nat} : i ∈ s.slots ↔
    1 ≤ i ∧ i ≤ s.maxi ∧ 0 ≤ (s.client i).fd ∧ readable (s.client i).revents = true := by
  simp only [slots,hot,List.mem_filter,List.mem_range'_1,decide_eq_true_eq,and_assoc,
    Nat.lt_one_add_iff]

theorem slots_nodup (s : PollServer) : s.slots.Nodup := (List.nodup_range' 1).filter _

theorem checkClients_eq (ans : Answers) {nready : Int} (hpos : 0 < nready) (s : PollServer) :
    s.checkClients ans nready = Pass.each (serve ans) (s.slots.take nready.toNat) s := by
  have hkeep : ∀ i j t, i ≠ j → hot (serve ans i t).state j = hot t j := by
    intro i j t hij
    simp only [hot,serve_client ans hij]
  exact Pass.countdown_eq_each hkeep (List.nodup_range' 1) hpos s

theorem mem_each_serve {ans : Answers} {is : List Nat} (hnd : is.Nodup) {a : Action}
    (ha : a ∈ (Pass.each (serve ans) is s).log) :
    (∀ f x, a = .read f x → ∃ i ∈ is, (s.client i).fd = f) ∧ ∀ c, a ≠ .accept c := by
  obtain ⟨i,hi,t,hsame,hlog⟩ := Pass.mem_each (Q := fun i t => t.client i = s.client i)
    (fun i j t hij hj => (serve_client ans hij t).trans hj) hnd (fun _ _ => rfl) ha
  obtain ⟨tl,htl,hother⟩ := serve_log ans i t
  rw [htl] at hlog
  rcases List.mem_cons.mp hlog with rfl | hlog
  · refine ⟨fun f x hx => ⟨i,hi,?_⟩,nofun⟩
    rw [← hsame]
    exact (Action.read.inj hx).1
  · exact ⟨fun f x hx => absurd hx ((hother a hlog).1 f x),(hother a hlog).2⟩

theorem mem_slots_polled {r : PollRound} {i : Nat} : i ∈ (s.polled r).slots ↔
    1 ≤ i ∧ i ≤ s.maxi ∧ 0 ≤ (s.client i).fd ∧ readable (r.revents i) = true := by
  rw [mem_slots,polled_fd]
  have hmaxi : (s.polled r).maxi = s.maxi := rfl
  constructor
  · rintro ⟨h1,hmax,h0,hread⟩
    rw [hmaxi] at hmax
    exact ⟨h1,hmax,h0,by simpa [polled,hmax] using hread⟩
  · rintro ⟨h1,hmax,h0,hread⟩
    exact ⟨h1,hmax,h0,by simpa [polled,hmax] using hread⟩

/-- A turn is as claimed when it serves slots that `Poll` reported. -/
theorem readsPolled_of (h : Inv listenfd s) {r : PollRound} {pre : List Action} {t : PollServer}
    {is : List Nat}
    (hlog : (s.turn r).log = pre ++ (Pass.each (serve r.toAnswers) is t).log)
    (hpre : pre = [] ∨ ∃ c, c ∉ s.fds ∧ pre = [.accept c]) (his : is.Sublist (s.polled r).slots)
    (hsame : ∀ i ∈ is, (t.client i).fd = (s.client i).fd) : ReadsPolled r s := by
  have hnd : is.Nodup := (slots_nodup _).sublist his
  have hreads : ∀ fd x, .read fd x ∈ (s.turn r).log →
      ∃ i, 1 ≤ i ∧ i ≤ s.maxi ∧ (s.client i).fd = fd ∧ readable (r.revents i) = true ∧ 0 ≤ fd := by
    intro fd x hmem
    rw [hlog] at hmem
    have hmem' := (List.mem_append.mp hmem).resolve_left (by rcases hpre with rfl | ⟨c,_,rfl⟩ <;> simp)
    obtain ⟨i,hi,hfd⟩ := (mem_each_serve hnd hmem').1 fd x rfl
    obtain ⟨h1,hmax,h0,hread⟩ := mem_slots_polled.mp (his.subset hi)
    rw [hsame i hi] at hfd
    exact ⟨i,h1,hmax,hfd,hread,hfd ▸ h0⟩
  refine ⟨fun fd x hmem => ?_,fun c hc => readsOn_eq_nil.mpr fun x hmem => ?_⟩
  · obtain ⟨i,_,hmax,hfd,hread,_⟩ := hreads fd x hmem
    exact ⟨i,hmax,hfd,hread⟩
  · obtain ⟨i,h1,_,rfl,_,h0⟩ := hreads c x hmem
    have hopen := (h.client_mem h1 h0).2.2
    rw [hlog] at hc
    rcases List.mem_append.mp hc with hc | hc
    · rcases hpre with rfl | ⟨c,hnew,rfl⟩
      · cases hc
      · obtain rfl := Action.accept.inj (List.mem_singleton.mp hc)
        exact hnew hopen
    · exact (mem_each_serve hnd hc).2 _ rfl

theorem store_client {r : PollRound} {i j : Nat} (c : Int) (hneg : (s.client i).fd < 0)
    (hj : j ∈ (s.polled r).slots) :
    (((s.polled r).store i c).client j).fd = (s.client j).fd := by
  have hji : j ≠ i := by
    rintro rfl
    have h0 := (mem_slots_polled.mp hj).2.2.1
    omega
  rw [← polled_fd r s j]
  exact congrArg PollFd.fd (Function.update_of_ne hji _ _)

/-- A reused slot has no `revents`, as `Poll` saw it unused. -/
theorem slots_store_reused {r : PollRound} {i : Nat} (c : Int) (hi : i ≤ s.maxi)
    (hneg : (s.client i).fd < 0) (hzero : r.revents i = 0) :
    ((s.polled r).store i c).slots = (s.polled r).slots := by
  have hmaxi : ((s.polled r).store i c).maxi = s.maxi := Nat.max_eq_left hi
  rw [slots,hmaxi]
  refine List.filter_congr fun j _ => ?_
  by_cases hji : j = i
  · subst hji
    have hno : ¬ 0 ≤ (s.client j).fd := by omega
    simp [hot,store,polled,hi,hzero,hno]
  · simp only [hot,store,Function.update_of_ne hji]

/-- A new slot keeps the `revents` it always had. -/
theorem slots_store_new {r : PollRound} {c : Int} (h0 : 0 ≤ c) :
    ((s.polled r).store (s.maxi + 1) c).slots = (s.polled r).slots ++
      if readable (s.client (s.maxi + 1)).revents then [s.maxi + 1] else [] := by
  have hmaxi : ((s.polled r).store (s.maxi + 1) c).maxi = s.maxi + 1 :=
    Nat.max_eq_right (Nat.le_succ s.maxi)
  rw [slots,hmaxi,List.range'_1_concat,List.filter_append]
  congr 1
  · refine List.filter_congr fun j hj => ?_
    have hlt := (List.mem_range'_1.mp hj).2
    have hne : j ≠ s.maxi + 1 := by omega
    simp only [hot,store,Function.update_of_ne hne]
  · rw [Nat.add_comm 1 s.maxi]
    simp [List.filter_cons,hot,store,h0,polled,Nat.not_succ_le_self]

theorem each_serve_good (h : Inv listenfd s) (ans : Answers) {is : List Nat} (hnd : is.Nodup)
    (his : ∀ i ∈ is, 1 ≤ i ∧ 0 ≤ (s.client i).fd ∧ ans.fatal (s.client i).fd = false) :
    (Pass.each (serve ans) is s).stop = none ∧
      (Pass.each (serve ans) is s).log = is.flatMap (fun i => ans.echo (s.client i).fd) ∧
      Inv listenfd (Pass.each (serve ans) is s).state := by
  refine Pass.each_served (I := Inv listenfd) (Q := fun i t => t.client i = s.client i ∧
    1 ≤ i ∧ 0 ≤ (s.client i).fd ∧ ans.fatal (s.client i).fd = false) _ ?_ ?_ hnd h ?_
  · rintro i t ht ⟨hsame,h1,h0,hok⟩
    rw [← hsame] at h0 hok ⊢
    have hgood := serve_good (ht.client_mem h1 h0).2.2 hok
    exact ⟨by rw [hgood],by rw [hgood],serve_inv ht ans h1 h0⟩
  · rintro i j t hij ⟨hsame,hj⟩
    exact ⟨(serve_client ans hij t).trans hsame,hj⟩
  · intro i hi
    exact ⟨rfl,his i hi⟩

theorem each_serve_stops {ans : Answers} {is : List Nat} {i : Nat} (hi : i ∈ is)
    (hbad : ans.fatal (s.client i).fd = true) : (Pass.each (serve ans) is s).stop ≠ none := by
  refine Pass.each_stops (Q := fun i t => ans.fatal (t.client i).fd = true)
    (fun i t hbad => serve_fatal hbad) ?_ hi hbad
  intro i j t hij hj
  rwa [serve_client ans hij]

theorem each_serve_client {ans : Answers} {is : List Nat} (hnd : is.Nodup) {i : Nat}
    (hi : i ∉ is) : (Pass.each (serve ans) is s).state.client i = s.client i :=
  Pass.each_keeps (I := fun t => t.client i = s.client i) (Q := fun j _ => j ≠ i)
    (fun _ t ht hj => (serve_client ans hj t).trans ht) (fun _ _ _ _ hj => hj) hnd rfl
    fun _ hj => ne_of_mem_of_not_mem hj hi

/-- The slots that `Poll` reported with neither `POLLRDNORM` nor `POLLERR`. -/
def unread (r : PollRound) (s : PollServer) : List Nat :=
  (List.range' 1 s.maxi).filter fun i => r.revents i ≠ 0 ∧ readable (r.revents i) = false

theorem counted_full {r : PollRound} (hr : r.Valid s) (hl : r.revents 0 ≠ 0)
    (hfull : ∀ i, 1 ≤ i → i ≤ s.maxi → 0 ≤ (s.client i).fd) :
    r.nready - 1 = (s.polled r).slots.length + (unread r s).length := by
  have hslots : (s.polled r).slots = (List.range' 1 s.maxi).filter fun i =>
      readable (r.revents i) && decide (r.revents i ≠ 0) := by
    refine List.filter_congr fun i hi => ?_
    obtain ⟨h1,hlt⟩ := List.mem_range'_1.mp hi
    have hmax : i ≤ s.maxi := Nat.lt_one_add_iff.mp hlt
    have h0 := hfull i h1 hmax
    by_cases hz : r.revents i = 0#16 <;> simp [hot,polled,hmax,h0,hz]
  have hunread : unread r s = (List.range' 1 s.maxi).filter fun i =>
      !readable (r.revents i) && decide (r.revents i ≠ 0) := by
    refine List.filter_congr fun i _ => ?_
    cases readable (r.revents i) <;> simp
  have hcount := hr.counted
  rw [List.range_eq_range',List.range'_succ,List.filter_cons_of_pos (by simpa using hl),
    List.length_cons,Nat.zero_add] at hcount
  rw [hslots,hunread,← List.filter_filter,← List.filter_filter]
  have hsplit := ((List.range' 1 s.maxi).filter fun i => decide (r.revents i ≠ 0))
    |>.length_eq_length_filter_add fun i => readable (r.revents i)
  omega

theorem unread_ne_nil {r : PollRound} : unread r s ≠ [] ↔
    ∃ i, 1 ≤ i ∧ i ≤ s.maxi ∧ r.revents i ≠ 0 ∧ readable (r.revents i) = false := by
  rw [unread,ne_eq,List.eq_nil_iff_forall_not_mem,not_forall_not]
  simp only [List.mem_filter,List.mem_range'_1,decide_eq_true_eq,Nat.lt_one_add_iff,and_assoc]

theorem polled_listening (r : PollRound) (s : PollServer) :
    ((s.polled r).client 0).revents = r.revents 0 := by simp [polled]

theorem Inv.next_free (h : Inv listenfd s) : (s.client (s.maxi + 1)).fd < 0 := by
  by_contra hused
  have hle := (h.client_mem (by omega) (Int.not_lt.mp hused)).1
  omega

section
variable {r : PollRound} {c : Int}

theorem turn_idle (hr : r.Valid s) (hl : ¬ r.revents 0 &&& POLLRDNORM ≠ 0) :
    s.turn r = (s.polled r).checkClients r.toAnswers r.nready := by
  have hwoken := hr.woken
  rw [turn,if_neg (by omega),polled_listening,if_neg hl]

theorem turn_listening (hr : r.Valid s) (hl : r.revents 0 &&& POLLRDNORM ≠ 0) :
    s.turn r = ((s.polled r).accept r.toAnswers).andThen fun s =>
      if r.nready - 1 ≤ 0 then Pass.done s else s.checkClients r.toAnswers (r.nready - 1) := by
  have hwoken := hr.woken
  rw [turn,if_neg (by omega),polled_listening,if_pos hl]

theorem turn_accepted_log (hr : r.Valid s) (hl : r.revents 0 &&& POLLRDNORM ≠ 0) {i : Nat}
    (hacc : (s.polled r).accept r.toAnswers = ⟨(s.polled r).store i c,none,[.accept c]⟩) :
    (s.turn r).log = [.accept c] ++ (Pass.each (serve r.toAnswers)
      (((s.polled r).store i c).slots.take (r.nready - 1).toNat) ((s.polled r).store i c)).log := by
  rw [turn_listening hr hl,hacc,Pass.andThen_none rfl]
  dsimp only
  by_cases hlast : r.nready - 1 ≤ 0
  · have hzero : (r.nready - 1).toNat = 0 := by omega
    rw [if_pos hlast,hzero]
    rfl
  · rw [if_neg hlast,checkClients_eq _ (by omega)]

theorem idle_reads (h : Inv listenfd s) (hr : r.Valid s)
    (hl : ¬ r.revents 0 &&& POLLRDNORM ≠ 0) : ReadsPolled r s := by
  have hlog : (s.turn r).log = [] ++ (Pass.each (serve r.toAnswers)
      ((s.polled r).slots.take r.nready.toNat) (s.polled r)).log := by
    rw [turn_idle hr hl,checkClients_eq _ hr.woken]
    rfl
  exact readsPolled_of h hlog (.inl rfl) (List.take_sublist _ _) fun i _ => polled_fd r s i

theorem refused_reads (hr : r.Valid s) (hl : r.revents 0 &&& POLLRDNORM ≠ 0)
    (hstop : ((s.polled r).accept r.toAnswers).stop ≠ none)
    (hnone : ∀ fd x, .read fd x ∉ ((s.polled r).accept r.toAnswers).log) : ReadsPolled r s := by
  have hturn := turn_listening hr hl
  rw [Pass.andThen_some hstop] at hturn
  refine ⟨fun fd x hmem => ?_,fun c _ => readsOn_eq_nil.mpr fun x hmem => ?_⟩
  · exact absurd (hturn ▸ hmem) (hnone fd x)
  · exact absurd (hturn ▸ hmem) (hnone c x)

/-- A slot that `Poll` examined while it was free makes no difference. -/
theorem reusedSlot_reads (h : Inv listenfd s) (hr : r.Valid s) (hnew : c ∉ s.fds) {i : Nat}
    (hi : i ≤ s.maxi) (hneg : (s.client i).fd < 0)
    (hlog : (s.turn r).log = [.accept c] ++ (Pass.each (serve r.toAnswers)
      (((s.polled r).store i c).slots.take (r.nready - 1).toNat) ((s.polled r).store i c)).log) :
    ReadsPolled r s := by
  rw [slots_store_reused c hi hneg (hr.ignored i hi hneg)] at hlog
  exact readsPolled_of h hlog (.inr ⟨c,hnew,rfl⟩) (List.take_sublist _ _) fun j hj =>
    store_client c hneg (List.mem_of_mem_take hj)

/-- Slot `maxi + 1` follows all reported ones, as far as `nready` lets the loop go on. -/
theorem newSlot_log (hr : r.Valid s) (h0 : 0 ≤ c) (hl : r.revents 0 ≠ 0)
    (hfull : ∀ i, 1 ≤ i → i ≤ s.maxi → 0 ≤ (s.client i).fd)
    (hlog : (s.turn r).log = [.accept c] ++ (Pass.each (serve r.toAnswers)
      (((s.polled r).store (s.maxi + 1) c).slots.take (r.nready - 1).toNat)
      ((s.polled r).store (s.maxi + 1) c)).log) :
    (s.turn r).log = [.accept c] ++ (Pass.each (serve r.toAnswers)
      ((s.polled r).slots ++ if readable (s.client (s.maxi + 1)).revents = true ∧ unread r s ≠ []
        then [s.maxi + 1] else []) ((s.polled r).store (s.maxi + 1) c)).log := by
  have hcount := counted_full hr hl hfull
  have hnat : (r.nready - 1).toNat = (s.polled r).slots.length + (unread r s).length := by omega
  rw [slots_store_new h0,hnat,List.take_length_add_append] at hlog
  rw [hlog]
  congr 4
  by_cases hgarbage : readable (s.client (s.maxi + 1)).revents = true
  · cases hun : unread r s <;> simp [hgarbage]
  · simp [hgarbage]

/-- The new client itself is read when nothing stops the loop before its slot. -/
theorem newSlot_read (h : Inv listenfd s) (h0 : 0 ≤ c) (hnew : c ∉ s.fds)
    (hroom : s.maxi + 1 < OPEN_MAX)
    (hok : ∀ i ∈ (s.polled r).slots, r.fatal (s.client i).fd = false)
    (hlog : (s.turn r).log = [.accept c] ++ (Pass.each (serve r.toAnswers)
      ((s.polled r).slots ++ [s.maxi + 1]) ((s.polled r).store (s.maxi + 1) c)).log) :
    ¬ ReadsPolled r s := by
  intro hpolled
  have hneg := h.next_free
  have hinv : Inv listenfd ((s.polled r).store (s.maxi + 1) c) :=
    inv_store (inv_polled h r) (by omega) hroom (by rwa [polled_fd]) h0 hnew
  have hgood := each_serve_good hinv r.toAnswers (slots_nodup _) fun i hi => by
    obtain ⟨h1,_,hpos,_⟩ := mem_slots_polled.mp hi
    rw [store_client c hneg hi]
    exact ⟨h1,hpos,hok i hi⟩
  have hlast : s.maxi + 1 ∉ (s.polled r).slots := fun hmem => by
    have hmax := (mem_slots_polled.mp hmem).2.1
    omega
  rw [Pass.each_append,Pass.andThen_none hgood.1,Pass.each_singleton] at hlog
  obtain ⟨tl,htl,_⟩ := serve_log r.toAnswers (s.maxi + 1) (Pass.each (serve r.toAnswers)
    (s.polled r).slots ((s.polled r).store (s.maxi + 1) c)).state
  have hc : (((s.polled r).store (s.maxi + 1) c).client (s.maxi + 1)).fd = c := by simp [store]
  rw [each_serve_client (slots_nodup _) hlast,hc] at htl
  refine readsOn_eq_nil.mp (hpolled.newWaits c ?_) (r.read c) ?_
  · simp [hlog]
  · simp [hlog,htl]

theorem newSlot_iff (h : Inv listenfd s) (hr : r.Valid s) (h0 : 0 ≤ c) (hnew : c ∉ s.fds)
    (hroom : s.maxi + 1 < OPEN_MAX) (hl : r.revents 0 ≠ 0)
    (hfull : ∀ i, 1 ≤ i → i ≤ s.maxi → 0 ≤ (s.client i).fd)
    (hlog : (s.turn r).log = [.accept c] ++ (Pass.each (serve r.toAnswers)
      (((s.polled r).store (s.maxi + 1) c).slots.take (r.nready - 1).toNat)
      ((s.polled r).store (s.maxi + 1) c)).log) :
    ReadsPolled r s ↔ ¬ (readable (s.client (s.maxi + 1)).revents = true ∧ unread r s ≠ [] ∧
      ∀ i ∈ (s.polled r).slots, r.fatal (s.client i).fd = false) := by
  have hnewlog := newSlot_log hr h0 hl hfull hlog
  have hfd : ∀ i ∈ (s.polled r).slots,
      (((s.polled r).store (s.maxi + 1) c).client i).fd = (s.client i).fd :=
    fun i hi => store_client c h.next_free hi
  have hold : (s.turn r).log = [.accept c] ++ (Pass.each (serve r.toAnswers) (s.polled r).slots
      ((s.polled r).store (s.maxi + 1) c)).log → ReadsPolled r s := fun hlog =>
    readsPolled_of h hlog (.inr ⟨c,hnew,rfl⟩) (List.Sublist.refl _) hfd
  by_cases hstale : readable (s.client (s.maxi + 1)).revents = true ∧ unread r s ≠ []
  · rw [if_pos hstale] at hnewlog
    by_cases hok : ∀ i ∈ (s.polled r).slots, r.fatal (s.client i).fd = false
    · exact iff_of_false (newSlot_read h h0 hnew hroom hok hnewlog)
        fun hno => hno ⟨hstale.1,hstale.2,hok⟩
    · refine iff_of_true (hold ?_) fun hno => hok hno.2.2
      obtain ⟨i,hi,hbad⟩ : ∃ i ∈ (s.polled r).slots, r.fatal (s.client i).fd = true := by
        simpa using hok
      rw [← hfd i hi] at hbad
      rwa [Pass.each_append,Pass.andThen_some (each_serve_stops hi hbad)] at hnewlog
  · rw [if_neg hstale,List.append_nil] at hnewlog
    exact iff_of_true (hold hnewlog) fun hno => hstale ⟨hno.1,hno.2.1⟩

theorem stale_iff (hl : r.revents 0 &&& POLLRDNORM ≠ 0) (hc : r.connfd ≠ none)
    (hfull : ∀ i, 1 ≤ i → i ≤ s.maxi → 0 ≤ (s.client i).fd) (hroom : s.maxi + 1 < OPEN_MAX) :
    Stale r s ↔ readable (s.client (s.maxi + 1)).revents = true ∧ unread r s ≠ [] ∧
      ∀ i ∈ (s.polled r).slots, r.fatal (s.client i).fd = false := by
  constructor
  · intro hst
    refine ⟨hst.garbage,unread_ne_nil.mpr hst.unread,fun i hi => ?_⟩
    obtain ⟨h1,hmax,_,hread⟩ := mem_slots_polled.mp hi
    exact hst.survives i h1 hmax hread
  · rintro ⟨hgarbage,hunread,hok⟩
    exact ⟨hl,hc,hfull,hroom,hgarbage,unread_ne_nil.mp hunread,fun i h1 hmax hread =>
      hok i (mem_slots_polled.mpr ⟨h1,hmax,hfull i h1 hmax,hread⟩)⟩

theorem Stale.not_refused (h : Inv listenfd s) (hst : Stale r s)
    (hwhy : r.connfd = none ∨ ∀ i, 1 ≤ i → i < OPEN_MAX → 0 ≤ ((s.polled r).client i).fd) :
    False := by
  rcases hwhy with hnone | hall
  · exact hst.accepted hnone
  · have hused := hall (s.maxi + 1) (by omega) hst.room
    have hneg := h.next_free
    rw [polled_fd] at hused
    omega

/-- One iteration reads as claimed unless it meets a stale slot. -/
theorem turn_readsPolled_iff (h : Inv listenfd s) (hr : r.Valid s) :
    ReadsPolled r s ↔ ¬ Stale r s := by
  by_cases hl : r.revents 0 &&& POLLRDNORM ≠ 0
  · rcases accept_cases r.toAnswers (s.polled r) with
      ⟨hstop,hnone,hwhy⟩ | ⟨c,i,hc,hacc,h1,hmax,hneg,hused⟩
    · exact iff_of_true (refused_reads hr hl hstop hnone) fun hst => hst.not_refused h hwhy
    · obtain ⟨h0,hnew⟩ := hr.fresh hl c hc
      have hlog := turn_accepted_log hr hl hacc
      rw [polled_fd] at hneg
      simp only [polled_fd] at hused
      by_cases hi : i ≤ s.maxi
      · refine iff_of_true (reusedSlot_reads h hr hnew hi hneg hlog) fun hst => ?_
        have hfull := hst.full i h1 hi
        omega
      · have hnext : i = s.maxi + 1 := by
          by_contra hne
          have hfree := hused (s.maxi + 1) (by omega) (by omega)
          have hneg' := h.next_free
          omega
        subst hnext
        have hfull : ∀ j, 1 ≤ j → j ≤ s.maxi → 0 ≤ (s.client j).fd :=
          fun j h1 hj => hused j h1 (by omega)
        have hzero : r.revents 0 ≠ 0 := by
          intro hz
          rw [hz] at hl
          exact hl rfl
        rw [stale_iff hl (by simp [hc]) hfull hmax]
        exact newSlot_iff h hr h0 hnew hmax hzero hfull hlog
  · exact iff_of_true (idle_reads h hr hl) fun hst => hl hst.listening

end

theorem checkClients_inv (h : Inv listenfd s) (ans : Answers) {nready : Int} (hpos : 0 < nready) :
    Inv listenfd (s.checkClients ans nready).state := by
  rw [checkClients_eq _ hpos]
  refine Pass.each_keeps (I := Inv listenfd)
    (Q := fun i t => t.client i = s.client i ∧ 1 ≤ i ∧ 0 ≤ (s.client i).fd) ?_ ?_
    ((slots_nodup s).sublist (List.take_sublist _ _)) h ?_
  · rintro i t ht ⟨hsame,h1,h0⟩
    exact serve_inv ht ans h1 (hsame ▸ h0)
  · rintro i j t hij ⟨hsame,hj⟩
    exact ⟨(serve_client ans hij t).trans hsame,hj⟩
  · intro i hi
    obtain ⟨h1,_,h0,_⟩ := mem_slots.mp (List.mem_of_mem_take hi)
    exact ⟨rfl,h1,h0⟩

theorem turn_inv (h : Inv listenfd s) {r : PollRound} (hr : r.Valid s)
    (hstop : (s.turn r).stop = none) : Inv listenfd (s.turn r).state := by
  have hinv := inv_polled h r
  by_cases hl : r.revents 0 &&& POLLRDNORM ≠ 0
  · rw [turn_listening hr hl] at hstop ⊢
    have hacc := (Pass.andThen_stop.mp hstop).1
    rw [Pass.andThen_none hacc]
    rcases accept_cases r.toAnswers (s.polled r) with ⟨hno,_⟩ | ⟨c,i,hc,heq,h1,hmax,hneg,_⟩
    · exact absurd hacc hno
    · obtain ⟨h0,hnew⟩ := hr.fresh hl c hc
      have hnext := inv_store hinv h1 hmax hneg h0 hnew
      rw [heq]
      dsimp only
      split
      · exact hnext
      · exact checkClients_inv hnext _ (by omega)
  · rw [turn_idle hr hl]
    exact checkClients_inv hinv _ hr.woken

theorem inv_boot (listenfd : Int) (array : Nat → PollFd) : Inv listenfd (boot listenfd array) := by
  refine ⟨?_,Finset.mem_singleton_self _,rfl,fun i hi => ?_,by simp [boot,OPEN_MAX]⟩
  · simp only [boot,Finset.erase_singleton]
    exact Slots.keeps_empty fun i => by simp
  · by_cases h0 : i = 0
    · simp [boot,h0]
    · simp [boot,h0] at hi

end PollServer

theorem poll_run {listenfd : Int} {array : Nat → PollFd} {p : PollRun}
    (hp : (tcpServPoll01 listenfd array).Reachable p) :
    p.stop = none → PollServer.Inv listenfd p.state := by
  refine hp.invariant (I := fun p => p.stop = none → PollServer.Inv listenfd p.state)
    (fun _ => PollServer.inv_boot listenfd array) ?_
  intro p r t hinv ht hstop
  obtain ⟨⟨hrun,hr⟩,rfl⟩ := Option.ite_some_none_eq_some.mp ht
  rw [Pass.andThen_none hrun] at hstop ⊢
  exact PollServer.turn_inv (hinv hrun) hr hstop

/-- A run of the `poll` server reads polled descriptors only, if and only if no
iteration of it meets a stale slot. -/
theorem tcpServPoll01_reads_iff (listenfd : Int) (array : Nat → PollFd) (rs : List PollRound)
    (p : PollRun)
    (hp : (tcpServPoll01 listenfd array).run (tcpServPoll01 listenfd array).init rs = some p) :
    (∀ x ∈ (tcpServPoll01 listenfd array).trace (tcpServPoll01 listenfd array).init rs,
        PollServer.ReadsPolled x.2 x.1.state) ↔
      ∀ x ∈ (tcpServPoll01 listenfd array).trace (tcpServPoll01 listenfd array).init rs,
        ¬ PollServer.Stale x.2 x.1.state := by
  refine forall₂_congr fun x hx => ?_
  obtain ⟨hreach,t,ht⟩ := Machine.mem_trace (Machine.reachable_init _) hp hx
  obtain ⟨⟨hstop,hr⟩,_⟩ := Option.ite_some_none_eq_some.mp ht
  exact PollServer.turn_readsPolled_iff (poll_run hreach hstop) hr

/-- Client 4 connects; client 5 connects when `poll` reports `POLLHUP` for client 4. -/
def hangUp : List PollRound :=
  [⟨⟨some 4,fun _ => .eof,fun _ => true⟩,fun _ => POLLRDNORM,1⟩,
    ⟨⟨some 5,fun _ => .eof,fun _ => true⟩,fun i => if i = 0 then POLLRDNORM else POLLHUP,2⟩]

theorem tcpServPoll01_reads_hangUp : ∃ p,
    (tcpServPoll01 3 fun _ => ⟨0,0,0⟩).run (tcpServPoll01 3 fun _ => ⟨0,0,0⟩).init hangUp =
      some p ∧
    ∀ x ∈ (tcpServPoll01 3 fun _ => ⟨0,0,0⟩).trace (tcpServPoll01 3 fun _ => ⟨0,0,0⟩).init hangUp,
      PollServer.ReadsPolled x.2 x.1.state := by
  obtain ⟨p,hp⟩ := Option.isSome_iff_exists.mp (by decide :
    ((tcpServPoll01 3 fun _ => ⟨0,0,0⟩).run (tcpServPoll01 3 fun _ => ⟨0,0,0⟩).init
      hangUp).isSome = true)
  have hclean : ∀ x ∈ (tcpServPoll01 3 fun _ => ⟨0,0,0⟩).trace
      (tcpServPoll01 3 fun _ => ⟨0,0,0⟩).init hangUp,
      readable (x.1.state.client (x.1.state.maxi + 1)).revents = false := by decide
  refine ⟨p,hp,(tcpServPoll01_reads_iff 3 (fun _ => ⟨0,0,0⟩) hangUp p hp).mpr fun x hx hst => ?_⟩
  exact absurd hst.garbage (by simp [hclean x hx])

/-- The same run when the array held `POLLRDNORM` before the server started. -/
theorem tcpServPoll01_reads_stale : ¬ ∀ (listenfd : Int) (array : Nat → PollFd)
    (rs : List PollRound) (p : PollRun),
    (tcpServPoll01 listenfd array).run (tcpServPoll01 listenfd array).init rs = some p →
    ∀ x ∈ (tcpServPoll01 listenfd array).trace (tcpServPoll01 listenfd array).init rs,
      PollServer.ReadsPolled x.2 x.1.state := by
  intro h
  obtain ⟨p,hp⟩ := Option.isSome_iff_exists.mp (by decide :
    ((tcpServPoll01 3 fun _ => ⟨0,0,POLLRDNORM⟩).run (tcpServPoll01 3 fun _ => ⟨0,0,POLLRDNORM⟩).init
      hangUp).isSome = true)
  obtain ⟨x,hx,hacc,hread⟩ : ∃ x ∈ (tcpServPoll01 3 fun _ => ⟨0,0,POLLRDNORM⟩).trace
      (tcpServPoll01 3 fun _ => ⟨0,0,POLLRDNORM⟩).init hangUp,
      .accept 5 ∈ (x.1.state.turn x.2).log ∧ readsOn 5 (x.1.state.turn x.2).log ≠ [] := by decide
  exact hread ((h 3 _ hangUp p hp x hx).newWaits 5 hacc)

end UnixNet
