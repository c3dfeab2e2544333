import UnixNet.SelectServer
import UnixNet.PollServer
set_option autoImplicit false

/-! `tcp_serv_select01` and `tcp_serv_poll01` before the same clients. -/

namespace UnixNet

/-- What the clients do until the server looks: `connect` is a new connection, `ready`
are the clients with data, an end of file or a reset to read, and `bits` what `poll`
says of them. -/
structure EchoRound extends Answers where
  connect : Bool
  ready : Finset Int
  bits : Int → BitVec 16

namespace EchoRound

def forSelect (listenfd : Int) (r : EchoRound) : SelectRound :=
  let rset := if r.connect then insert listenfd r.ready else r.ready
  ⟨r.toAnswers,rset,rset.card⟩

def forPoll (r : EchoRound) (s : PollServer) : PollRound :=
  { toAnswers := r.toAnswers
    revents := fun i =>
      if i = 0 then if r.connect then POLLRDNORM else 0
      else if (s.client i).fd ∈ r.ready then r.bits (s.client i).fd else 0
    nready := (if r.connect then 1 else 0) + r.ready.card }

/-- Data, an orderly close or a reset. -/
def Event (r : ReadResult) : Prop := r.Orderly ∨ r = .fail .econnreset

/-- The rounds that clients can cause while the connections `conns` are open. -/
structure Valid (listenfd : Int) (conns : Finset Int) (r : EchoRound) : Prop where
  watched : r.ready ⊆ conns
  woken : r.connect = true ∨ r.ready ≠ ∅
  fresh : r.connect = true → r.Fresh (insert listenfd conns)
  few : r.connect = true → conns.card < 1023
  events : ∀ fd ∈ r.ready, Event (r.read fd) ∧ r.writen fd = true
  reported : ∀ fd ∈ r.ready, readable (r.bits fd) = true ∧
    r.bits fd &&& ~~~(POLLRDNORM ||| POLLERR ||| POLLHUP ||| POLLNVAL) = 0

def joined (r : EchoRound) (conns : Finset Int) : Finset Int :=
  match r.connect,r.connfd with
  | true,some c => insert c conns
  | _,_ => conns

/-- The open connections after the round. -/
def after (r : EchoRound) (conns : Finset Int) : Finset Int :=
  r.joined conns \ r.ready.filter fun fd => (r.read fd).ends

def ValidFrom (listenfd : Int) : Finset Int → List EchoRound → Prop
  | _, [] => True
  | conns, r :: rs => r.Valid listenfd conns ∧ ValidFrom listenfd (r.after conns) rs

/-- No reset is read and a new descriptor has room in an `fd_set`. -/
structure Tame (r : EchoRound) : Prop where
  noReset : ∀ fd ∈ r.ready, r.read fd ≠ .fail .econnreset
  small : r.connect = true → ∀ c ∈ r.connfd, c < FD_SETSIZE

theorem Valid.not_fatal {listenfd : Int} {conns : Finset Int} {r : EchoRound}
    (hr : r.Valid listenfd conns) {fd : Int} (hfd : fd ∈ r.ready) : r.fatal fd = false := by
  obtain ⟨hevent,hw⟩ := hr.events fd hfd
  cases hread : r.read fd with
  | data bs => simp [Answers.fatal,hread,hw]
  | eof => simp [Answers.fatal,hread]
  | fail e =>
    have he : e = .econnreset := by simpa [Event,ReadResult.Orderly,hread] using hevent
    simp [Answers.fatal,hread,he]

theorem Valid.orderly {listenfd : Int} {conns : Finset Int} {r : EchoRound}
    (hr : r.Valid listenfd conns) (ht : r.Tame) {fd : Int} (hfd : fd ∈ r.ready) :
    (r.read fd).Orderly := (hr.events fd hfd).1.resolve_right (ht.noReset fd hfd)

end EchoRound

namespace PollServer
variable {listenfd : Int} {t : PollServer} {r : EchoRound}

def table (t : PollServer) (i : Nat) : Int := (t.client (i+1)).fd

theorem forPoll_revents (r : EchoRound) (t : PollServer) (k : Nat) : (r.forPoll t).revents (k+1) =
    if t.table k ∈ r.ready then r.bits (t.table k) else 0 := rfl

theorem slots_forPoll (h : Inv listenfd t) (hr : r.Valid listenfd (t.fds.erase listenfd)) :
    (t.polled (r.forPoll t)).slots = (Slots.among t.table t.maxi r.ready).map (· + 1) := by
  have hhot : ∀ k ∈ List.range t.maxi,
      hot (t.polled (r.forPoll t)) (k+1) = decide (t.table k ∈ r.ready) := by
    intro k hk
    have hmax : k + 1 ≤ t.maxi := List.mem_range.mp hk
    have hrevents : ((t.polled (r.forPoll t)).client (k+1)).revents =
        if t.table k ∈ r.ready then r.bits (t.table k) else 0 := by
      simp only [polled,if_pos hmax,forPoll_revents]
    simp only [hot,polled_fd,hrevents]
    by_cases hready : t.table k ∈ r.ready
    · have h0 : 0 ≤ (t.client (k+1)).fd := (h.table.slot _ (hr.watched hready)).1
      simp [hready,h0,(hr.reported _ hready).1]
    · simp [hready]
  have hmaxi : (t.polled (r.forPoll t)).maxi = t.maxi := rfl
  rw [slots,hmaxi,List.range'_eq_map_range,List.filter_map,Slots.among,← List.filter_congr hhot]
  simp only [Nat.add_comm 1,Function.comp_def]

theorem forPoll_revents_ne_zero (hr : r.Valid listenfd (t.fds.erase listenfd)) (k : Nat) :
    (r.forPoll t).revents (k+1) ≠ 0 ↔ t.table k ∈ r.ready := by
  rw [forPoll_revents]
  by_cases hready : t.table k ∈ r.ready
  · have hne : r.bits (t.table k) ≠ 0 := by
      intro hz
      have hbit := (hr.reported _ hready).1
      rw [hz] at hbit
      cases hbit
    simpa [hready] using hne
  · simp [hready]

theorem forPoll_counted (h : Inv listenfd t) (hr : r.Valid listenfd (t.fds.erase listenfd)) :
    ((List.range (t.maxi + 1)).filter fun i => (r.forPoll t).revents i ≠ 0).length =
      (if r.connect then 1 else 0) + r.ready.card := by
  have hclients : ((List.range t.maxi).map Nat.succ).filter
      (fun i => (r.forPoll t).revents i ≠ 0) = (Slots.among t.table t.maxi r.ready).map Nat.succ := by
    rw [List.filter_map,Slots.among]
    congr 1
    refine List.filter_congr fun k _ => ?_
    exact decide_eq_decide.mpr (forPoll_revents_ne_zero hr k)
  have hlen := h.table.length_among hr.watched
  have hzero : (r.forPoll t).revents 0 = if r.connect then POLLRDNORM else 0 := rfl
  have htable : (fun i => (t.client (i+1)).fd) = t.table := rfl
  rw [htable] at hlen
  rw [List.range_succ_eq_map,List.filter_cons,hclients,hzero]
  cases r.connect with
  | false => simp [hlen]
  | true =>
    rw [if_pos (by decide)]
    simp [hlen,Nat.add_comm]

theorem forPoll_valid (h0 : 0 ≤ listenfd) (h : Inv listenfd t)
    (hr : r.Valid listenfd (t.fds.erase listenfd)) : (r.forPoll t).Valid t := by
  have hzero : (r.forPoll t).revents 0 = if r.connect then POLLRDNORM else 0 := rfl
  refine ⟨fun i _ hneg => ?_,fun i _ => ?_,?_,?_,fun hl c hc => ?_⟩
  · cases i with
    | zero =>
      rw [h.first] at hneg
      omega
    | succ k =>
      by_contra hne
      have hused : 0 ≤ (t.client (k+1)).fd :=
        (h.table.slot _ (hr.watched ((forPoll_revents_ne_zero hr k).mp hne))).1
      omega
  · cases i with
    | zero =>
      rw [hzero,h.events 0 (by rw [h.first]; exact h0)]
      cases r.connect <;> decide
    | succ k =>
      rw [forPoll_revents]
      by_cases hready : t.table k ∈ r.ready
      · rw [if_pos hready,h.events (k+1) (h.table.slot _ (hr.watched hready)).1]
        exact (hr.reported _ hready).2
      · simp [hready]
  · rw [forPoll_counted h hr]
    simp only [EchoRound.forPoll]
    cases r.connect <;> simp
  · simp only [EchoRound.forPoll]
    rcases hr.woken with hconnect | hready
    · simp only [hconnect,if_true]
      omega
    · have hpos := Finset.card_pos.mpr (Finset.nonempty_iff_ne_empty.mpr hready)
      split <;> omega
  · have hconnect : r.connect = true := by
      rw [hzero] at hl
      by_contra hno
      simp [hno] at hl
    obtain ⟨d,hd,hd0,hnew⟩ := (hr.fresh hconnect).elim
    obtain rfl := Option.some.inj (hc.symm.trans hd)
    rw [Finset.insert_erase h.listening] at hnew
    exact ⟨hd0,hnew⟩

def places (r : EchoRound) (t : PollServer) : List Nat :=
  (Slots.among t.table t.maxi r.ready).map (· + 1)

theorem places_length (h : Inv listenfd t) (hr : r.Valid listenfd (t.fds.erase listenfd)) :
    (places r t).length = r.ready.card := by
  rw [places,List.length_map]
  exact h.table.length_among hr.watched

theorem turn_quiet (h0 : 0 ≤ listenfd) (h : Inv listenfd t)
    (hr : r.Valid listenfd (t.fds.erase listenfd)) (hc : r.connect = false) :
    t.turn (r.forPoll t) = Pass.each (serve r.toAnswers) (places r t) (t.polled (r.forPoll t)) := by
  have hvalid := forPoll_valid h0 h hr
  have hzero : ¬ (r.forPoll t).revents 0 &&& POLLRDNORM ≠ 0 := by simp [EchoRound.forPoll,hc]
  have hcard : (r.forPoll t).nready = r.ready.card := by simp [EchoRound.forPoll,hc]
  have hlen := places_length h hr
  rw [turn_idle hvalid hzero,checkClients_eq _ hvalid.woken,slots_forPoll h hr,← places,
    List.take_of_length_le (by omega)]
  rfl

structure FirstFree (t : PollServer) (i : Nat) : Prop where
  pos : 1 ≤ i
  room : i < OPEN_MAX
  free : (t.client i).fd < 0
  used : ∀ j, 1 ≤ j → j < i → 0 ≤ (t.client j).fd

theorem accept_firstFree (h : Inv listenfd t) (hr : r.Valid listenfd (t.fds.erase listenfd))
    (hc : r.connect = true) : ∃ c i, r.connfd = some c ∧ 0 ≤ c ∧ c ∉ t.fds ∧ FirstFree t i ∧
      (t.polled (r.forPoll t)).accept r.toAnswers =
        ⟨(t.polled (r.forPoll t)).store i c,none,[.accept c]⟩ := by
  obtain ⟨c,hconn,h0,hnew⟩ := (hr.fresh hc).elim
  rw [Finset.insert_erase h.listening] at hnew
  rcases accept_cases r.toAnswers (t.polled (r.forPoll t)) with ⟨_,_,hfull⟩ | ⟨d,i,hd,heq,hi⟩
  · obtain ⟨k,hk,hfree⟩ := h.table.free (hr.few hc)
    have hused := hfull.resolve_left (by simp [hconn]) (k+1) (by omega)
      (Nat.succ_lt_succ hk)
    rw [polled_fd] at hused
    exact absurd hused hfree
  · obtain rfl := Option.some.inj (hconn.symm.trans hd)
    simp only [polled_fd] at hi
    exact ⟨c,i,hconn,h0,hnew,⟨hi.1,hi.2.1,hi.2.2.1,hi.2.2.2⟩,heq⟩

theorem FirstFree.le_succ {i : Nat} (hi : FirstFree t i) (h : Inv listenfd t) :
    i ≤ t.maxi + 1 := by
  by_contra hgt
  have hle := (h.client_mem (by omega) (hi.used (t.maxi + 1) (by omega) (by omega))).1
  omega

theorem turn_connect (h0 : 0 ≤ listenfd) (h : Inv listenfd t)
    (hr : r.Valid listenfd (t.fds.erase listenfd)) (hc : r.connect = true) {c : Int} {i : Nat}
    (hpos : 0 ≤ c) (hi : FirstFree t i) (hacc : (t.polled (r.forPoll t)).accept r.toAnswers =
      ⟨(t.polled (r.forPoll t)).store i c,none,[.accept c]⟩) :
    t.turn (r.forPoll t) = Pass.andThen ⟨(t.polled (r.forPoll t)).store i c,none,[.accept c]⟩
      (Pass.each (serve r.toAnswers) (places r t)) := by
  have hvalid := forPoll_valid h0 h hr
  have hzero : (r.forPoll t).revents 0 &&& POLLRDNORM ≠ 0 := by simp [EchoRound.forPoll,hc,POLLRDNORM]
  have hcard : (r.forPoll t).nready - 1 = r.ready.card := by simp [EchoRound.forPoll,hc]
  have hlen := places_length h hr
  rw [turn_listening hvalid hzero]
  have hans : (r.forPoll t).toAnswers = r.toAnswers := rfl
  rw [hans,hacc,Pass.andThen_none rfl,Pass.andThen_none rfl,hcard]
  dsimp only
  by_cases hlast : (r.ready.card : Int) ≤ 0
  · have hnil : places r t = [] := List.length_eq_zero_iff.mp (by omega)
    rw [if_pos hlast,hnil]
    rfl
  · rw [if_neg hlast,checkClients_eq _ (by omega)]
    have hslots : (((t.polled (r.forPoll t)).store i c).slots).take (r.ready.card : Int).toNat =
        places r t := by
      rcases Nat.lt_or_ge t.maxi i with hnew | hold
      · obtain rfl : i = t.maxi + 1 := Nat.le_antisymm (hi.le_succ h) hnew
        rw [slots_store_new hpos,slots_forPoll h hr,← places]
        exact List.take_left' (by omega)
      · rw [slots_store_reused c hold hi.free (hvalid.ignored i hold hi.free),slots_forPoll h hr]
        exact List.take_of_length_le (by rw [← places]; omega)
    rw [hslots]

theorem client_places (h : Inv listenfd t) (hr : r.Valid listenfd (t.fds.erase listenfd))
    {i : Nat} (hi : i ∈ places r t) : 1 ≤ i ∧ 0 ≤ (t.client i).fd ∧ (t.client i).fd ∈ r.ready := by
  obtain ⟨k,hk,rfl⟩ := List.mem_map.mp hi
  have hready := (h.table.mem_among hr.watched).mp hk
  exact ⟨by omega,(h.table.slot _ (hr.watched hready)).1,hready⟩

theorem each_places (h : Inv listenfd t) (hr : r.Valid listenfd (t.fds.erase listenfd))
    {u : PollServer} (hu : Inv listenfd u)
    (hsame : ∀ i ∈ places r t, (u.client i).fd = (t.client i).fd) :
    (Pass.each (serve r.toAnswers) (places r t) u).stop = none ∧
      Inv listenfd (Pass.each (serve r.toAnswers) (places r t) u).state ∧
      (Pass.each (serve r.toAnswers) (places r t) u).state.fds =
        u.fds \ r.ready.filter fun fd => (r.read fd).ends := by
  have hnd : (places r t).Nodup := (Slots.among_nodup _ _ _).map (Nat.succ_injective)
  obtain ⟨hstop,hlog,hinv⟩ := each_serve_good hu r.toAnswers hnd fun i hi => by
    obtain ⟨h1,hpos,hready⟩ := client_places h hr hi
    rw [hsame i hi]
    exact ⟨h1,hpos,hr.not_fatal hready⟩
  refine ⟨hstop,hinv,?_⟩
  have hfds : (places r t).map (fun i => (u.client i).fd) =
      (Slots.among t.table t.maxi r.ready).map t.table := by
    rw [List.map_congr_left hsame,places,List.map_map]
    rfl
  rw [Pass.each_fold (f := PollServer.fds) (g := Action.track) (serve_track r.toAnswers),hlog,
    ← List.flatMap_map (fun i => (u.client i).fd) r.echo,hfds,track_echoes]
  congr 2
  exact h.table.map_among hr.watched

theorem turn_goesOn (h0 : 0 ≤ listenfd) (h : Inv listenfd t)
    (hr : r.Valid listenfd (t.fds.erase listenfd)) :
    (t.turn (r.forPoll t)).stop = none ∧ Inv listenfd (t.turn (r.forPoll t)).state ∧
      (t.turn (r.forPoll t)).state.fds.erase listenfd = r.after (t.fds.erase listenfd) := by
  have hpolled := inv_polled h (r.forPoll t)
  cases hc : r.connect with
  | false =>
    rw [turn_quiet h0 h hr hc]
    obtain ⟨hstop,hinv,hfds⟩ := each_places h hr hpolled fun i _ => polled_fd _ _ i
    refine ⟨hstop,hinv,?_⟩
    rw [hfds,← Finset.erase_sdiff_comm,EchoRound.after,EchoRound.joined,hc]
    rfl
  | true =>
    obtain ⟨c,i,hconn,hpos,hnew,hi,hacc⟩ := accept_firstFree h hr hc
    have hstore := inv_store hpolled hi.pos hi.room (by rw [polled_fd]; exact hi.free) hpos hnew
    rw [turn_connect h0 h hr hc hpos hi hacc,Pass.andThen_none rfl]
    obtain ⟨hstop,hinv,hfds⟩ := each_places h hr hstore fun j hj => by
      have hused := (client_places h hr hj).2.1
      have hne : j ≠ i := by
        rintro rfl
        have hfree := hi.free
        omega
      rw [← polled_fd (r.forPoll t) t j]
      exact congrArg PollFd.fd (Function.update_of_ne hne _ _)
    have hcl : c ≠ listenfd := by
      rintro rfl
      exact hnew h.listening
    refine ⟨hstop,hinv,?_⟩
    rw [hfds,← Finset.erase_sdiff_comm,EchoRound.after,EchoRound.joined,hc,hconn]
    congr 1
    exact Finset.erase_insert_of_ne hcl

end PollServer

namespace SelectServer
variable {listenfd : Int} {s : SelectServer} {r : EchoRound}

def serveReady (r : EchoRound) (s : SelectServer) : SelectRun :=
  Pass.each (serve r.toAnswers) (Slots.among s.client (s.maxi + 1).toNat r.ready) s

theorem listenfd_not_ready {fds : Finset Int} (hr : r.Valid listenfd (fds.erase listenfd)) :
    listenfd ∉ r.ready := fun hmem => Finset.ne_of_mem_erase (hr.watched hmem) rfl

theorem forSelect_valid (h : Inv listenfd s) (hr : r.Valid listenfd (s.fds.erase listenfd))
    (ht : r.Tame) : (r.forSelect listenfd).Valid listenfd s := by
  have hsub : (r.forSelect listenfd).rset ⊆ s.fds := by
    have hready := hr.watched.trans (Finset.erase_subset listenfd s.fds)
    simp only [EchoRound.forSelect]
    split
    · exact Finset.insert_subset h.listening hready
    · exact hready
  have hconnect : listenfd ∈ (r.forSelect listenfd).rset → r.connect = true := by
    intro hmem
    by_contra hno
    simp only [EchoRound.forSelect,if_neg hno] at hmem
    exact listenfd_not_ready hr hmem
  refine ⟨by rwa [h.watched],fun fd hfd => ?_,?_,rfl,fun hl => ?_,fun hl c hc => ?_,
    fun fd hfd hne => ?_⟩
  · have hmax := (h.bound fd (hsub hfd)).2.2
    omega
  · simp only [EchoRound.forSelect]
    split
    · exact Finset.insert_ne_empty _ _
    · rename_i hno
      exact hr.woken.resolve_left hno
  · have hfresh := hr.fresh (hconnect hl)
    rwa [Finset.insert_erase h.listening] at hfresh
  · exact ht.small (hconnect hl) c hc
  · have hready : fd ∈ r.ready := by
      simp only [EchoRound.forSelect] at hfd
      split at hfd
      · exact (Finset.mem_insert.mp hfd).resolve_left hne
      · exact hfd
    exact ⟨hr.orderly ht hready,(hr.events fd hready).2⟩

theorem checkClients_ready (h : Inv listenfd s) (hl : listenfd ∉ r.ready) (hsub : r.ready ⊆ s.fds)
    (hpos : 0 < r.ready.card) :
    s.checkClients (r.forSelect listenfd) r.ready.card = s.serveReady r := by
  have herase : (r.forSelect listenfd).rset.erase listenfd = r.ready := by
    simp only [EchoRound.forSelect]
    split
    · exact Finset.erase_insert hl
    · exact Finset.erase_eq_of_notMem hl
  have hopen : (r.forSelect listenfd).rset ⊆ s.fds := by
    simp only [EchoRound.forSelect]
    split
    · exact Finset.insert_subset h.listening hsub
    · exact hsub
  rw [checkClients_eq h _ hopen (by omega) (by rw [herase]),herase]
  rfl

theorem turn_quiet (h : Inv listenfd s) (hr : r.Valid listenfd (s.fds.erase listenfd))
    (hc : r.connect = false) : s.turn listenfd (r.forSelect listenfd) = s.serveReady r := by
  have hl := listenfd_not_ready hr
  have hsub := hr.watched.trans (Finset.erase_subset _ _)
  have hready := hr.woken.resolve_left (by simp [hc])
  have hpos := Finset.card_pos.mpr (Finset.nonempty_iff_ne_empty.mpr hready)
  have hrset : (r.forSelect listenfd).rset = r.ready := by simp [EchoRound.forSelect,hc]
  have hcard : (r.forSelect listenfd).nready = r.ready.card := by simp [EchoRound.forSelect,hc]
  rw [turn,if_neg (by omega),hrset,if_neg hl,hcard]
  exact checkClients_ready h hl hsub hpos

theorem turn_connect (hr : r.Valid listenfd (s.fds.erase listenfd)) (hc : r.connect = true)
    (hinv : (s.accept r.toAnswers).stop = none → Inv listenfd (s.accept r.toAnswers).state ∧
      s.fds ⊆ (s.accept r.toAnswers).state.fds) :
    s.turn listenfd (r.forSelect listenfd) = (s.accept r.toAnswers).andThen (serveReady r) := by
  have hl := listenfd_not_ready hr
  have hrset : listenfd ∈ (r.forSelect listenfd).rset := by simp [EchoRound.forSelect,hc]
  have hcard : (r.forSelect listenfd).nready - 1 = r.ready.card := by
    simp [EchoRound.forSelect,hc,Finset.card_insert_of_notMem hl]
  have hans : (r.forSelect listenfd).toAnswers = r.toAnswers := rfl
  rw [turn,if_neg (by omega),if_pos hrset,hans,hcard]
  by_cases hstop : (s.accept r.toAnswers).stop = none
  · obtain ⟨hI,hsub⟩ := hinv hstop
    rw [Pass.andThen_none hstop,Pass.andThen_none hstop]
    by_cases hlast : (r.ready.card : Int) ≤ 0
    · have hnone : r.ready = ∅ := Finset.card_eq_zero.mp (by omega)
      simp [serveReady,Slots.among,hnone]
    · rw [if_neg hlast,checkClients_ready hI hl ((hr.watched.trans (Finset.erase_subset _ _)).trans hsub)
        (by omega)]
  · rw [Pass.andThen_some hstop,Pass.andThen_some hstop]

theorem accept_large (h : Inv listenfd s) {ans : Answers} {c : Int} (hc : ans.connfd = some c)
    (hlarge : ¬ c < FD_SETSIZE) : (s.accept ans).stop ≠ none := by
  have hlt := (Slots.search_found h.slot_free).1
  simp only [accept,hc]
  rw [if_neg (by omega),if_neg hlarge]
  exact Option.some_ne_none _

theorem serveReady_stops (h : Inv listenfd s) (hsub : r.ready ⊆ s.fds.erase listenfd) {fd : Int}
    (hfd : fd ∈ r.ready) {e : Errno} (hread : r.read fd = .fail e) :
    (s.serveReady r).stop ≠ none := by
  obtain ⟨_,i,rfl⟩ := h.table.slot fd (hsub hfd)
  refine Pass.each_stops (Q := fun i u => r.read (u.client i) = .fail e) ?_ ?_
    ((h.table.mem_among hsub).mpr hfd) hread
  · intro i u hu
    simp [serve,hu]
  · intro i j u hij hj
    rwa [serve_client r.toAnswers hij]

end SelectServer

open EchoRound

/-- The tables of the two servers: slot `i` of the one is slot `i + 1` of the other. -/
structure Related (listenfd : Int) (s : SelectServer) (t : PollServer) : Prop where
  select : SelectServer.Inv listenfd s
  poll : PollServer.Inv listenfd t
  slots : s.client = t.table
  maxi : s.maxi + 1 = t.maxi
  fds : s.fds = t.fds

section
variable {listenfd : Int} {s : SelectServer} {t : PollServer} {r : EchoRound}

theorem related_boot (h0 : 0 ≤ listenfd) (h1 : listenfd < FD_SETSIZE) (array : Nat → PollFd) :
    Related listenfd (SelectServer.boot listenfd).state (PollServer.boot listenfd array) := by
  refine ⟨(SelectServer.inv_boot h0 h1).2.2,PollServer.inv_boot listenfd array,?_,?_,?_⟩
  · funext i
    simp [SelectServer.boot,h1,PollServer.table,PollServer.boot]
  · simp [SelectServer.boot,h1,PollServer.boot]
  · simp [SelectServer.boot,h1,PollServer.boot]

theorem Related.polled (h : Related listenfd s t) (r : PollRound) :
    Related listenfd s (t.polled r) := by
  refine ⟨h.select,PollServer.inv_polled h.poll r,?_,h.maxi,h.fds⟩
  rw [h.slots]
  funext i
  exact (PollServer.polled_fd r t (i+1)).symm

theorem Related.drop (h : Related listenfd s t) {i : Nat} (hi : 0 ≤ s.client i) :
    Related listenfd (s.drop i) (t.drop (i+1)) := by
  have hfd : s.client i = (t.client (i+1)).fd := congrFun h.slots i
  refine ⟨SelectServer.inv_drop h.select hi,
    PollServer.inv_drop h.poll (by omega) (hfd ▸ hi),?_,h.maxi,?_⟩
  · exact (congrArg (Function.update · i (-1)) h.slots).trans
      (PollServer.fd_update t.client i { t.client (i+1) with fd := -1 }).symm
  · simp only [SelectServer.drop,PollServer.drop,h.fds,hfd]

theorem Related.store (h : Related listenfd s t) {i : Nat} {c : Int}
    (hs : SelectServer.Inv listenfd (s.store i c))
    (ht : PollServer.Inv listenfd (t.store (i+1) c)) :
    Related listenfd (s.store i c) (t.store (i+1) c) := by
  refine ⟨hs,ht,?_,?_,?_⟩
  · exact (congrArg (Function.update · i c) h.slots).trans
      (PollServer.fd_update t.client i { t.client (i+1) with fd := c, events := POLLRDNORM }).symm
  · have hmaxi := h.maxi
    simp only [SelectServer.store,PollServer.store]
    omega
  · simp only [SelectServer.store,PollServer.store,h.fds]

theorem serve_agree (h : Related listenfd s t) {ans : Answers} {i : Nat} (hi : 0 ≤ s.client i)
    (horderly : (ans.read (s.client i)).Orderly) (hw : ans.writen (s.client i) = true) :
    Pass.Agree (Related listenfd) (SelectServer.serve ans i s) (PollServer.serve ans (i+1) t) := by
  have hfd : (t.client (i+1)).fd = s.client i := (congrFun h.slots i).symm
  have hok : ans.fatal (s.client i) = false := by
    cases hread : ans.read (s.client i) with
    | data bs => simp [Answers.fatal,hread,hw]
    | eof => simp [Answers.fatal,hread]
    | fail e => simp [ReadResult.Orderly,hread] at horderly
  have hopen := (h.select.client_mem hi).2
  rw [SelectServer.serve_good horderly hw hopen,
    PollServer.serve_good (by rw [hfd,← h.fds]; exact hopen) (by rw [hfd]; exact hok),hfd]
  refine ⟨rfl,rfl,rfl,?_⟩
  dsimp only
  split
  · exact h.drop hi
  · exact h

theorem serveReady_agree (h : Related listenfd s t) (ht : r.Tame) {conns : Finset Int}
    (hr : r.Valid listenfd conns) (hsub : r.ready ⊆ s.fds.erase listenfd) {places : List Nat}
    (hplaces : places = (Slots.among s.client (s.maxi + 1).toNat r.ready).map (· + 1)) :
    Pass.Agree (Related listenfd) (s.serveReady r)
      (Pass.each (PollServer.serve r.toAnswers) places t) := by
  rw [hplaces]
  refine Pass.each_agree (Q := fun i u => u.client i ∈ r.ready ∧ 0 ≤ u.client i) ?_ ?_
    (Slots.among_nodup _ _ _) h ?_
  · rintro i u v huv ⟨hready,hi⟩
    exact serve_agree huv hi (hr.orderly ht hready) (hr.events _ hready).2
  · rintro i j u hij hj
    rwa [SelectServer.serve_client r.toAnswers hij]
  · intro i hi
    have hready := (h.select.table.mem_among hsub).mp hi
    exact ⟨hready,(h.select.table.slot _ (hsub hready)).1⟩

theorem firstFree_eq (h : Related listenfd s t) {i k : Nat} (hi : PollServer.FirstFree t i)
    (hneg : s.client k < 0) (hused : ∀ j < k, 0 ≤ s.client j) : i = k + 1 := by
  rw [h.slots] at hneg hused
  have hge : ¬ i < k + 1 := by
    intro hlt
    have hpos := hi.pos
    obtain ⟨l,rfl⟩ := Nat.exists_eq_add_of_le' hpos
    have hl : 0 ≤ (t.client (l+1)).fd := hused l (by omega)
    have hfree := hi.free
    omega
  have hle : ¬ k + 1 < i := by
    intro hlt
    have hk : 0 ≤ t.table k := hi.used (k+1) (by omega) hlt
    omega
  omega

theorem turn_agree (h0 : 0 ≤ listenfd) (h : Related listenfd s t)
    (hr : r.Valid listenfd (t.fds.erase listenfd)) (ht : r.Tame) :
    Pass.Agree (Related listenfd) (s.turn listenfd (r.forSelect listenfd))
      (t.turn (r.forPoll t)) := by
  have hrs := hr
  rw [← h.fds] at hrs
  have hmaxi : (s.maxi + 1).toNat = t.maxi := by
    have hm := h.maxi
    omega
  cases hc : r.connect with
  | false =>
    rw [SelectServer.turn_quiet h.select hrs hc,PollServer.turn_quiet h0 h.poll hr hc]
    exact serveReady_agree (h.polled _) ht hr hrs.watched (by rw [PollServer.places,hmaxi,h.slots])
  | true =>
    obtain ⟨c,i,hconn,hpos,hnew,hfirst,hacc⟩ := PollServer.accept_firstFree h.poll hr hc
    have hsmall := ht.small hc c hconn
    obtain ⟨k,heq,hk,hneg,hused⟩ := SelectServer.accept_eq h.select hconn hsmall
    obtain rfl := firstFree_eq h hfirst hneg hused
    have hnew' : c ∉ s.fds := h.fds ▸ hnew
    have hstore := SelectServer.inv_store h.select hk hneg hpos hsmall hnew'
    have hrel := (h.polled (r.forPoll t)).store hstore (PollServer.inv_store
      (PollServer.inv_polled h.poll _) hfirst.pos hfirst.room
      (by rw [PollServer.polled_fd]; exact hfirst.free) hpos hnew)
    rw [SelectServer.turn_connect hrs hc fun _ => by
        rw [heq]
        exact ⟨hstore,Finset.subset_insert _ _⟩,
      heq,PollServer.turn_connect h0 h.poll hr hc hpos hfirst hacc]
    have hagree : Pass.Agree (Related listenfd)
        (⟨s.store k c,none,[.accept c]⟩ : SelectRun)
        (⟨(t.polled (r.forPoll t)).store (k+1) c,none,[.accept c]⟩ : PollRun) :=
      ⟨rfl,rfl,rfl,hrel⟩
    refine hagree.andThen (serveReady_agree hrel ht hr ?_ ?_)
    · refine hrs.watched.trans (Finset.erase_subset_erase _ ?_)
      exact Finset.subset_insert _ _
    · rw [PollServer.places,← h.slots,← hmaxi]
      congr 1
      refine (h.select.table.among_insert hrs.watched (by omega) ?_ ?_).symm
      · exact fun hmem => hnew' (Finset.mem_of_mem_erase (hrs.watched hmem))
      · simp only [SelectServer.store]
        omega

/-- A reset or a descriptor too large stops the `select` server in its round. -/
theorem turn_stops (h : Related listenfd s t) (hr : r.Valid listenfd (t.fds.erase listenfd))
    (ht : ¬ r.Tame) : (s.turn listenfd (r.forSelect listenfd)).stop ≠ none := by
  rw [← h.fds] at hr
  by_cases hlarge : ∃ c ∈ r.connfd, r.connect = true ∧ ¬ c < FD_SETSIZE
  · obtain ⟨c,hconn,hc,hlarge⟩ := hlarge
    have hstop := SelectServer.accept_large h.select hconn hlarge
    rwa [SelectServer.turn_connect hr hc fun hnone => absurd hnone hstop,Pass.andThen_some hstop]
  · have hsmall : r.connect = true → ∀ c ∈ r.connfd, c < FD_SETSIZE := by
      intro hc c hconn
      by_contra hno
      exact hlarge ⟨c,hconn,hc,hno⟩
    obtain ⟨fd,hfd,hread⟩ : ∃ fd ∈ r.ready, r.read fd = .fail .econnreset := by
      by_contra hno
      push Not at hno
      exact ht ⟨hno,hsmall⟩
    cases hc : r.connect with
    | false =>
      rw [SelectServer.turn_quiet h.select hr hc]
      exact SelectServer.serveReady_stops h.select hr.watched hfd hread
    | true =>
      have hfresh := hr.fresh hc
      rw [Finset.insert_erase h.select.listening] at hfresh
      obtain ⟨c,_,_,hfds,hinv⟩ := SelectServer.accept_good h.select hfresh (hsmall hc)
      have hgrow : s.fds ⊆ (s.accept r.toAnswers).state.fds := by
        rw [hfds]
        exact Finset.subset_insert _ _
      rw [SelectServer.turn_connect hr hc fun _ => ⟨hinv,hgrow⟩]
      intro hnone
      exact SelectServer.serveReady_stops hinv
        (hr.watched.trans (Finset.erase_subset_erase _ hgrow)) hfd hread
        (Pass.andThen_stop.mp hnone).2

def selectServes (listenfd : Int) (rs : List EchoRound) : SelectRun :=
  (SelectServer.boot listenfd).andThen
    (Pass.each (fun r s => s.turn listenfd (r.forSelect listenfd)) rs)

def pollServes (listenfd : Int) (array : Nat → PollFd) (rs : List EchoRound) : PollRun :=
  Pass.each (fun r t => t.turn (r.forPoll t)) rs (PollServer.boot listenfd array)

/-- What the client on a descriptor sees of the server. -/
def clientView (fd : Int) (log : List Action) : List Action :=
  log.filter fun
    | .accept f => f = fd
    | .write f _ => f = fd
    | .close f => f = fd
    | _ => false

/-- Every client sees the same, and both servers go on or both have stopped. -/
structure Interchangeable (p : SelectRun) (q : PollRun) : Prop where
  view : ∀ fd, clientView fd p.log = clientView fd q.log
  status : p.stop = none ↔ q.stop = none

theorem rounds_goOn (h0 : 0 ≤ listenfd) (h : PollServer.Inv listenfd t) {rs : List EchoRound}
    (hrs : ValidFrom listenfd (t.fds.erase listenfd) rs) :
    (Pass.each (fun r t => t.turn (r.forPoll t)) rs t).stop = none := by
  induction rs generalizing t with
  | nil => rfl
  | cons r rs ih =>
    obtain ⟨hr,hrs⟩ := hrs
    obtain ⟨hstop,hinv,hfds⟩ := PollServer.turn_goesOn h0 h hr
    rw [Pass.each_cons,Pass.andThen_none hstop]
    exact ih hinv (hfds ▸ hrs)

theorem rounds_agree (h0 : 0 ≤ listenfd) (h : Related listenfd s t) {rs : List EchoRound}
    (hrs : ValidFrom listenfd (t.fds.erase listenfd) rs) (ht : ∀ r ∈ rs, r.Tame) :
    Pass.Agree (Related listenfd)
      (Pass.each (fun r s => s.turn listenfd (r.forSelect listenfd)) rs s)
      (Pass.each (fun r t => t.turn (r.forPoll t)) rs t) := by
  induction rs generalizing s t with
  | nil => exact ⟨rfl,rfl,rfl,h⟩
  | cons r rs ih =>
    obtain ⟨hr,hrs⟩ := hrs
    have hturn := turn_agree h0 h hr (ht r (by simp))
    have hfds := (PollServer.turn_goesOn h0 h.poll hr).2.2
    exact hturn.andThen (ih hturn.related (hfds ▸ hrs) fun r' hr' => ht r' (by simp [hr']))

theorem rounds_stop (h0 : 0 ≤ listenfd) (h : Related listenfd s t) {rs : List EchoRound}
    (hrs : ValidFrom listenfd (t.fds.erase listenfd) rs) {r : EchoRound} (hmem : r ∈ rs)
    (ht : ¬ r.Tame) :
    (Pass.each (fun r s => s.turn listenfd (r.forSelect listenfd)) rs s).stop ≠ none := by
  induction rs generalizing s t with
  | nil => cases hmem
  | cons r' rs ih =>
    obtain ⟨hr,hrs⟩ := hrs
    intro hnone
    obtain ⟨hstop,hrest⟩ := Pass.andThen_stop.mp hnone
    by_cases htame : r'.Tame
    · have hturn := turn_agree h0 h hr htame
      have hfds := (PollServer.turn_goesOn h0 h.poll hr).2.2
      rcases List.mem_cons.mp hmem with rfl | hmem
      · exact ht htame
      · exact ih hturn.related (hfds ▸ hrs) hmem hrest
    · exact turn_stops h hr htame hstop

/-- The servers are interchangeable as long as no client resets its connection and
every descriptor is below `FD_SETSIZE`. -/
theorem interchangeable_iff (listenfd : Int) (h0 : 0 ≤ listenfd) (array : Nat → PollFd)
    (rs : List EchoRound) (hrs : ValidFrom listenfd ∅ rs) :
    Interchangeable (selectServes listenfd rs) (pollServes listenfd array rs) ↔
      listenfd < FD_SETSIZE ∧ ∀ r ∈ rs, r.Tame := by
  have hboot := PollServer.inv_boot listenfd array
  have hempty : (PollServer.boot listenfd array).fds.erase listenfd = ∅ := by
    simp [PollServer.boot]
  rw [← hempty] at hrs
  have hpoll : (pollServes listenfd array rs).stop = none := rounds_goOn h0 hboot hrs
  constructor
  · intro h
    have hselect := Pass.andThen_stop.mp (h.status.mpr hpoll)
    have h1 : listenfd < FD_SETSIZE := by
      by_contra hno
      simp [SelectServer.boot,hno] at hselect
    refine ⟨h1,fun r hr => ?_⟩
    by_contra ht
    exact rounds_stop h0 (related_boot h0 h1 array) hrs hr ht hselect.2
  · rintro ⟨h1,ht⟩
    have hagree := rounds_agree h0 (related_boot h0 h1 array) hrs ht
    have hinit := SelectServer.inv_boot h0 h1
    rw [selectServes,pollServes,Pass.andThen_none hinit.1,hinit.2.1,List.nil_append]
    exact ⟨fun fd => by rw [hagree.log],iff_of_true hagree.left hagree.right⟩

/-- Client 4 connects and then reads as `answer`. -/
def oneClient (answer : ReadResult) : List EchoRound :=
  [⟨⟨some 4,fun _ => answer,fun _ => true⟩,true,∅,fun _ => POLLRDNORM⟩,
    ⟨⟨none,fun _ => answer,fun _ => true⟩,false,{4},fun _ => POLLRDNORM⟩]

theorem reported_data : readable POLLRDNORM = true ∧
    POLLRDNORM &&& ~~~(POLLRDNORM ||| POLLERR ||| POLLHUP ||| POLLNVAL) = 0 := by decide

theorem oneClient_valid (answer : ReadResult) (h : Event answer) :
    ValidFrom 3 ∅ (oneClient answer) :=
  ⟨⟨Finset.Subset.refl _,.inl rfl,fun _ => by simp [Answers.Fresh],fun _ => by simp,nofun,nofun⟩,
    ⟨by simp [after,joined],.inr (Finset.singleton_ne_empty 4),nofun,nofun,fun _ _ => ⟨h,rfl⟩,
      fun _ _ => reported_data⟩,trivial⟩

theorem interchangeable_data :
    Interchangeable (selectServes 3 (oneClient (.data [120])))
      (pollServes 3 (fun _ => ⟨0,0,0⟩) (oneClient (.data [120]))) := by
  have hvalid := oneClient_valid (.data [120]) (.inl (by decide))
  refine (interchangeable_iff 3 (by decide) _ _ hvalid).mpr ⟨by decide,fun r hr => ?_⟩
  rcases List.mem_pair.mp hr with rfl | rfl
  · exact ⟨fun _ _ => nofun,fun _ c hc => by cases hc; decide⟩
  · exact ⟨fun _ _ => nofun,nofun⟩

/-- Client 4 resets its connection. -/
theorem not_interchangeable_reset : ¬ ∀ (listenfd : Int) (array : Nat → PollFd)
    (rs : List EchoRound), 0 ≤ listenfd → ValidFrom listenfd ∅ rs →
    Interchangeable (selectServes listenfd rs) (pollServes listenfd array rs) := by
  intro h
  have hstatus := (h 3 (fun _ => ⟨0,0,0⟩) (oneClient (.fail .econnreset)) (by decide)
    (oneClient_valid _ (.inr rfl))).status
  have hpoll : (pollServes 3 (fun _ => ⟨0,0,0⟩) (oneClient (.fail .econnreset))).stop = none := by
    decide
  have hselect : (selectServes 3 (oneClient (.fail .econnreset))).stop =
      some (.errSys "read error") := by decide
  exact absurd (hselect.symm.trans (hstatus.mpr hpoll)) (by decide)

end

end UnixNet
