import UnixNet.IcmpDaemon
import UnixNet.Library.History
set_option autoImplicit false

/-! icmpd: which clients the ICMP messages go to, and what these have registered themselves. -/

namespace UnixNet

/-- What the connection `fd` has registered, in view of the next event. -/
def IcmpEvent.enrolls (fd : Int) (rs : List Registration) : IcmpEvent → List Registration
  | .accept connfd => if connfd = fd then [] else rs
  | .registered unixfd r => if unixfd = fd then rs ++ [r] else rs
  | _ => rs

/-- What the connection that is now `fd` has registered since it was accepted. -/
def registrations (fd : Int) (log : List IcmpEvent) : List Registration :=
  log.foldl (IcmpEvent.enrolls fd) []

/-- A record goes to a connection that has registered a UDP socket with its family and port. -/
def IcmpEvent.Owned (before : List IcmpEvent) : IcmpEvent → Prop
  | .record connfd family sport _ => ⟨family,sport,true⟩ ∈ registrations connfd before
  | _ => True

namespace Icmpd

def Isolated (s : Icmpd) : Prop := History.Heeds IcmpEvent.Owned s.log

/-- What `readable_v4` or `readable_v6` reads, and how many clients it writes to. -/
def message (s : Icmpd) : IcmpAct → IcmpMessage × Nat
  | .recv (some p) taken => (if s.pc = .v4 then p.parse4 else p.parse6,taken)
  | _ => (.ignore,0)

/-- The client in slot `i` has registered since it was accepted, and not only sockets of other
kinds under the given family and port. -/
def Current (s : Icmpd) (family sport : Int) (i : Nat) : Prop :=
  registrations (s.client i).connfd s.log ≠ [] ∧
    (⟨family,sport,false⟩ ∈ registrations (s.client i).connfd s.log →
      ⟨family,sport,true⟩ ∈ registrations (s.client i).connfd s.log)

instance decidableCurrent (s : Icmpd) (family sport : Int) (i : Nat) :
    Decidable (s.Current family sport i) := inferInstanceAs (Decidable (_ ∧ _))

/-- No message that is read in the next step matches a slot that is not current. -/
def Settled (s : Icmpd) (a : IcmpAct) : Prop :=
  match s.message a with
  | (.report family sport _,taken) =>
    ∀ i ∈ (s.targets family sport).take taken, s.Current family sport i
  | _ => True

instance decidableSettled (s : Icmpd) (a : IcmpAct) : Decidable (s.Settled a) := by
  unfold Settled
  split <;> infer_instance

def AllSettled (l : List (Icmpd × IcmpAct)) : Prop := ∀ x ∈ l, x.1.Settled x.2

instance decidableAllSettled (l : List (Icmpd × IcmpAct)) : Decidable (AllSettled l) :=
  inferInstanceAs (Decidable (∀ x ∈ l, x.1.Settled x.2))

variable {k : IcmpFds} {s t : Icmpd}

theorem registrations_append (fd : Int) (log es : List IcmpEvent) :
    registrations fd (log ++ es) = es.foldl (IcmpEvent.enrolls fd) (registrations fd log) :=
  List.foldl_append

/-- Events that are not about registering on `fd`. -/
theorem registrations_quiet {fd : Int} {es : List IcmpEvent}
    (h : ∀ e ∈ es, ∀ rs, e.enrolls fd rs = rs) (log : List IcmpEvent) :
    registrations fd (log ++ es) = registrations fd log := by
  rw [registrations_append]
  generalize registrations fd log = rs
  induction es with
  | nil => rfl
  | cons e es ih =>
    rw [List.foldl_cons,h e List.mem_cons_self]
    exact ih fun e he => h e (List.mem_cons_of_mem _ he)

theorem enrolls_records {m : IcmpMessage} {taken : Nat} :
    ∀ e ∈ s.records m taken, ∀ fd rs, e.enrolls fd rs = rs := by
  intro e he fd rs
  cases m with
  | quit | ignore => cases he
  | report family sport err =>
    obtain ⟨i,_,rfl⟩ := List.mem_map.mp he
    rfl

/-- The slots hold what their clients have registered last. -/
def Held (s : Icmpd) : Prop :=
  ∀ i, 0 ≤ s.connfds i → ∀ r ∈ (registrations (s.connfds i) s.log).getLast?,
    (s.client i).family = r.family ∧ (s.client i).lport = r.lport

theorem held_slot (h : Held s) {es : List IcmpEvent} (hlog : t.log = s.log ++ es) {i : Nat}
    (hi : 0 ≤ s.connfds i) (hslot : t.client i = s.client i)
    (hquiet : ∀ e ∈ es, ∀ rs, e.enrolls (s.connfds i) rs = rs) :
    ∀ r ∈ (registrations (t.connfds i) t.log).getLast?,
      (t.client i).family = r.family ∧ (t.client i).lport = r.lport := by
  have hfd : t.connfds i = s.connfds i := congrArg IcmpClient.connfd hslot
  rw [hfd,hlog,registrations_quiet hquiet,hslot]
  exact h i hi

theorem held_same (h : Held s) {es : List IcmpEvent} (hlog : t.log = s.log ++ es)
    (hclient : t.client = s.client) (hquiet : ∀ e ∈ es, ∀ i, 0 ≤ s.connfds i →
      ∀ rs, e.enrolls (s.connfds i) rs = rs) : Held t := by
  intro i hi
  have hfd : t.connfds i = s.connfds i := congrArg (fun c => (c i).connfd) hclient
  rw [hfd] at hi
  exact held_slot h hlog hi (congrFun hclient i) fun e he => hquiet e he i hi

theorem fresh_ne (h : s.Table k) {connfd : Int} (hnew : connfd ∉ s.fds) {i : Nat}
    (hi : 0 ≤ s.connfds i) : connfd ≠ s.connfds i := by
  rintro rfl
  exact hnew (h.connfd_mem hi).1

theorem readableListen_held {connfd : Int} (htable : s.Table k) (h : Held s)
    (hnew : connfd ∉ s.fds) : Gone (s.readableListen connfd) ∨ Held (s.readableListen connfd) := by
  obtain ⟨hlt,hneg,_⟩ := Slots.search_found htable.slot_free
  simp only [readableListen,if_neg (Nat.ne_of_lt hlt)]
  generalize Slots.search (fun i => decide ((s.client i).connfd < 0)) 0 FD_SETSIZE = i
  split
  · refine .inr fun j hj => ?_
    by_cases hji : j = i
    · subst hji
      have hfd : ((s.enroll j connfd).ret .v4).connfds j = connfd :=
        (congrFun (connfds_setConnfd s j connfd) j).trans (Function.update_self _ _ _)
      have hnone : registrations connfd (s.log ++ [.accept connfd]) = [] := by
        rw [registrations_append]
        exact if_pos rfl
      intro r hr
      rw [hfd] at hr
      have hr' : r ∈ (registrations connfd (s.log ++ [.accept connfd])).getLast? := hr
      rw [hnone] at hr'
      cases hr'
    · have hslot : ((s.enroll i connfd).ret .v4).client j = s.client j :=
        Function.update_of_ne hji _ _
      have hfd : ((s.enroll i connfd).ret .v4).connfds j = s.connfds j :=
        congrArg IcmpClient.connfd hslot
      have hj' : 0 ≤ s.connfds j := hfd ▸ hj
      refine held_slot h rfl hj' hslot fun e he rs => ?_
      rw [List.mem_singleton.mp he]
      exact if_neg (fresh_ne htable hnew hj')
  · exact .inl ⟨_,rfl⟩

/-- Dropping a client closes descriptors, and may refuse it before. -/
theorem dropped_events {es : List IcmpEvent} {connfd unixfd : Int} {recvfd : Option Int}
    (hes : es = [] ∨ es = [.refused connfd]) {e : IcmpEvent}
    (he : e ∈ es ++ .close unixfd :: recvfd.toList.map .close) :
    e = .refused connfd ∨ ∃ fd, e = .close fd := by
  simp only [List.mem_append,List.mem_cons,List.mem_map] at he
  rcases he with he | rfl | ⟨fd,_,rfl⟩
  · rcases hes with rfl | rfl
    · cases he
    · exact .inl (List.mem_singleton.mp he)
  · exact .inr ⟨_,rfl⟩
  · exact .inr ⟨_,rfl⟩

theorem clientdone_held (h : Held s) (i : Nat) (c : IcmpClient) {es : List IcmpEvent}
    (hes : es = [] ∨ es = [.refused c.connfd]) (recvfd : Option Int) :
    Held (((s.setClient i c).did es).clientdone i recvfd) := by
  intro j hj
  by_cases hji : j = i
  · subst hji
    have hgone : (((s.setClient j c).did es).clientdone j recvfd).connfds j = -1 :=
      (congrFun (connfds_setConnfd _ j (-1)) j).trans (Function.update_self _ _ _)
    rw [hgone] at hj
    exact absurd hj (by decide)
  · have hslot : (((s.setClient i c).did es).clientdone i recvfd).client j = s.client j :=
      (Function.update_of_ne hji _ _).trans (Function.update_of_ne hji _ _)
    have hfd : (((s.setClient i c).did es).clientdone i recvfd).connfds j = s.connfds j :=
      congrArg IcmpClient.connfd hslot
    refine held_slot h (List.append_assoc s.log es _) (hfd ▸ hj) hslot fun e he rs => ?_
    rcases dropped_events hes he with rfl | ⟨fd,rfl⟩
    · rfl
    · rfl

theorem register_held (htable : s.Table k) (h : Held s) {i : Nat} (hi : 0 ≤ s.connfds i)
    (r : Registration) (fd : Int) (pc : IcmpPc) :
    Held (((s.setClient i ⟨s.connfds i,r.family,r.lport⟩).did
      [.registered (s.connfds i) r,.close fd]).ret pc) := by
  have hsame := setClient_connfds (s := s) (i := i) (c := ⟨s.connfds i,r.family,r.lport⟩) rfl
  intro j hj
  have hfd := congrFun hsame j
  by_cases hji : j = i
  · subst hji
    have hlast : registrations (s.connfds j)
        (s.log ++ [.registered (s.connfds j) r,.close fd]) =
          registrations (s.connfds j) s.log ++ [r] := by
      rw [registrations_append]
      exact if_pos rfl
    intro r' hr'
    change r' ∈ (registrations ((s.setClient j _).connfds j) (s.log ++ _)).getLast? at hr'
    rw [hfd,hlast,List.getLast?_concat] at hr'
    cases hr'
    have hslot : (s.setClient j ⟨s.connfds j,r.family,r.lport⟩).client j =
        ⟨s.connfds j,r.family,r.lport⟩ := Function.update_self _ _ _
    exact ⟨congrArg IcmpClient.family hslot,congrArg IcmpClient.lport hslot⟩
  · refine held_slot h rfl (hfd ▸ hj) (Function.update_of_ne hji _ _) fun e he rs => ?_
    rcases List.mem_pair.mp he with rfl | rfl
    · exact if_neg fun heq => hji (htable.slots.inj i j hi heq).symm
    · rfl

theorem conn_held {msg : ConnMessage} {wrote : Bool} (htable : s.Table k) (h : Held s)
    (ht : s.connStep msg wrote = some t) : Gone t ∨ Held t := by
  obtain ⟨i,_,hi,_,ht⟩ := conn_of_step ht
  have hhandle : Held (s.handle (s.connfds i)) := h
  rcases readableConn_cases _ i msg wrote ht with hgone | ⟨c,es,recvfd,_,hes,rfl⟩ | ⟨r,fd,rfl⟩
  · exact .inl hgone.1
  · exact .inr (clientdone_held hhandle i c hes recvfd)
  · exact .inr (register_held (htable.of_eq rfl) hhandle hi r fd (.clients (i + 1)))

theorem readable_held (h : Held s) (fd : Int) (parse : IcmpPacket → IcmpMessage)
    (packet : Option IcmpPacket) (taken : Nat) (pc : IcmpPc) :
    Gone (s.readable fd parse packet taken pc) ∨ Held (s.readable fd parse packet taken pc) := by
  rcases readable_cases s fd parse packet taken pc with hgone | ⟨m,heq⟩
  · exact .inl hgone
  · rw [heq]
    exact .inr (held_same h rfl rfl fun e he i _ rs => enrolls_records e he _ rs)

theorem next_pc (ht : s.nextStep k = some t) : ∃ pc, t = { s with pc } := by
  simp only [nextStep] at ht
  split at ht
  · split at ht <;> cases ht
    exact ⟨.v4,rfl⟩
  · split at ht <;> cases ht
    exact ⟨.v6,rfl⟩
  · split at ht <;> cases ht
    exact ⟨.clients 0,rfl⟩
  · rename_i i _
    split at ht
    · cases ht
      exact ⟨.select,rfl⟩
    · split at ht <;> cases ht
      exact ⟨.clients (i + 1),rfl⟩
  · cases ht

theorem step_held (htable : s.Table k) (h : Held s) {a : IcmpAct} (ht : s.step k a = some t) :
    Gone t ∨ Held t := by
  cases a with
  | select ready =>
    obtain ⟨_,rfl⟩ := Option.ite_some_none_eq_some.mp ht
    exact .inr h
  | next =>
    obtain ⟨pc,rfl⟩ := next_pc ht
    exact .inr h
  | listen connfd =>
    obtain ⟨_,_,⟨_,hgone,_⟩ | ⟨c,_,_,hnew,rfl⟩⟩ := listen_of_step ht
    · exact .inl hgone
    · exact readableListen_held (htable.of_eq rfl) h hnew
  | recv packet taken =>
    rcases recv_of_step ht with ⟨_,_,rfl⟩ | ⟨_,_,rfl⟩ <;> exact readable_held h _ _ packet taken _
  | conn msg wrote => exact conn_held htable h ht

theorem conn_log {msg : ConnMessage} {wrote : Bool} (ht : s.connStep msg wrote = some t) :
    ∃ es, t.log = s.log ++ es ∧ ∀ e ∈ es, ∀ before, e.Owned before := by
  obtain ⟨i,_,_,_,ht⟩ := conn_of_step ht
  rcases readableConn_cases _ i msg wrote ht with
    ⟨_,hlog⟩ | ⟨c,es,recvfd,_,hes,rfl⟩ | ⟨r,fd,rfl⟩
  · exact ⟨[],by rw [hlog,List.append_nil]; rfl,List.forall_mem_nil _⟩
  · refine ⟨_,List.append_assoc s.log es _,fun e he before => ?_⟩
    rcases dropped_events hes he with rfl | ⟨fd,rfl⟩
    · trivial
    · trivial
  · refine ⟨_,rfl,fun e he before => ?_⟩
    rcases List.mem_pair.mp he with rfl | rfl <;> trivial

theorem listen_log {connfd : Option Int} (ht : s.listenStep k connfd = some t) :
    ∃ es, t.log = s.log ++ es ∧ ∀ e ∈ es, ∀ before, e.Owned before := by
  obtain ⟨_,_,⟨_,_,hlog⟩ | ⟨c,_,_,_,rfl⟩⟩ := listen_of_step ht
  · exact ⟨[],by rw [hlog,List.append_nil],List.forall_mem_nil _⟩
  · unfold readableListen
    dsimp only
    split
    · exact ⟨[.accept c,.close c],rfl,by simp [IcmpEvent.Owned]⟩
    · split <;> exact ⟨[.accept c],rfl,by simp [IcmpEvent.Owned]⟩

theorem readable_log (s : Icmpd) (fd : Int) (parse : IcmpPacket → IcmpMessage)
    (packet : Option IcmpPacket) (taken : Nat) (pc : IcmpPc) :
    (s.readable fd parse packet taken pc).log =
      s.log ++ packet.elim [] fun p => s.records (parse p) taken := by
  cases packet with
  | none => exact (List.append_nil _).symm
  | some p =>
    simp only [readable]
    rcases forward_cases (s.handle fd) (parse p) taken pc with ⟨why,heq⟩ | heq <;> rw [heq] <;> rfl

/-- What a step adds to the log: the records of a message, or other events. -/
theorem step_log {a : IcmpAct} (ht : s.step k a = some t) : ∃ es, t.log = s.log ++ es ∧
    (es = s.records (s.message a).1 (s.message a).2 ∨
      (s.message a).1 = .ignore ∧ ∀ e ∈ es, ∀ before, e.Owned before) := by
  cases a with
  | select ready =>
    obtain ⟨_,rfl⟩ := Option.ite_some_none_eq_some.mp ht
    exact ⟨[],(List.append_nil _).symm,.inl rfl⟩
  | next =>
    obtain ⟨pc,rfl⟩ := next_pc ht
    exact ⟨[],(List.append_nil _).symm,.inl rfl⟩
  | listen connfd =>
    obtain ⟨es,hlog,hother⟩ := listen_log ht
    exact ⟨es,hlog,.inr ⟨rfl,hother⟩⟩
  | recv packet taken =>
    rcases recv_of_step ht with ⟨hpc,_,rfl⟩ | ⟨hpc,_,rfl⟩
    · refine ⟨_,readable_log _ _ _ _ _ _,.inl ?_⟩
      cases packet with
      | none => rfl
      | some p => simp [message,hpc]
    · refine ⟨_,readable_log _ _ _ _ _ _,.inl ?_⟩
      cases packet with
      | none => rfl
      | some p => simp [message,hpc]
  | conn msg wrote =>
    obtain ⟨es,hlog,hother⟩ := conn_log ht
    exact ⟨es,hlog,.inr ⟨rfl,hother⟩⟩

theorem owned_records (s : Icmpd) (family sport : Int) (err : IcmpdErr) (taken : Nat) :
    (∀ e ∈ s.records (.report family sport err) taken, e.Owned s.log) ↔
      ∀ i ∈ (s.targets family sport).take taken,
        ⟨family,sport,true⟩ ∈ registrations (s.client i).connfd s.log := by
  simp only [records,List.forall_mem_map]
  rfl

/-- A matching slot whose client is current is owned by it. -/
theorem current_iff (h : Held s) {family sport : Int} {i : Nat} (hi : i ∈ s.targets family sport) :
    s.Current family sport i ↔
      ⟨family,sport,true⟩ ∈ registrations (s.client i).connfd s.log := by
  constructor
  · rintro ⟨hsome,hudp⟩
    have hwants := of_decide_eq_true (List.mem_filter.mp hi).2
    obtain ⟨h0,hfamily,hsport⟩ := hwants
    obtain ⟨r,hr⟩ : ∃ r, (registrations (s.client i).connfd s.log).getLast? = some r :=
      ⟨_,List.getLast?_eq_some_getLast hsome⟩
    obtain ⟨hf,hp⟩ := h i h0 r hr
    have hmem := List.mem_of_getLast? hr
    have heq : r = ⟨family,sport,r.udp⟩ := by
      rw [← hfamily,← hsport,hf,hp]
    rw [heq] at hmem
    cases hkind : r.udp with
    | true => rwa [hkind] at hmem
    | false => exact hudp (by rwa [hkind] at hmem)
  · exact fun hmem => ⟨List.ne_nil_of_mem hmem,fun _ => hmem⟩

theorem settled_iff (h : Held s) (a : IcmpAct) : s.Settled a ↔
    ∀ e ∈ s.records (s.message a).1 (s.message a).2, e.Owned s.log := by
  unfold Settled
  split
  · rename_i family sport err taken heq
    simp only [heq,owned_records]
    exact forall₂_congr fun i hi => current_iff h (List.mem_of_mem_take hi)
  · rename_i hother
    have hnone : s.records (s.message a).1 (s.message a).2 = [] := by
      cases hm : s.message a with
      | mk m taken =>
        cases m with
        | quit | ignore => rfl
        | report family sport err => exact absurd hm (hother family sport err taken)
    simp [hnone]

theorem owned_stable {m : IcmpMessage} {taken : Nat} {e : IcmpEvent} (he : e ∈ s.records m taken)
    (before : List IcmpEvent) (x : IcmpEvent) : x.Owned (before ++ [e]) ↔ x.Owned before := by
  have hsame : ∀ fd, registrations fd (before ++ [e]) = registrations fd before := by
    intro fd
    refine registrations_quiet (fun e' he' rs => ?_) before
    rw [List.mem_singleton.mp he']
    exact enrolls_records e he fd rs
  cases x <;> simp [IcmpEvent.Owned,hsame]

theorem step_isolated (h : Held s) {a : IcmpAct} (ht : s.step k a = some t) :
    t.Isolated ↔ s.Isolated ∧ s.Settled a := by
  obtain ⟨es,hlog,hes⟩ := step_log ht
  unfold Isolated
  rw [hlog]
  rcases hes with rfl | ⟨hnone,hother⟩
  · rw [settled_iff h]
    exact History.heeds_append s.log fun e he before x _ => owned_stable he before x
  · have hall : ∀ e ∈ es, e.Owned s.log := fun e he => hother e he s.log
    have hset : s.Settled a := by
      rw [settled_iff h,hnone]
      exact nofun
    rw [History.heeds_append s.log fun e _ before x hx =>
      iff_of_true (hother x hx _) (hother x hx before)]
    exact and_congr_right fun _ => iff_of_true hall hset

theorem init_held (k : IcmpFds) : Held (icmpd k).init :=
  fun _ hi => absurd hi (by simp [icmpd,connfds])

end Icmpd

/-- The records go to those who registered for them in a run in which no message matches a slot
that is not current, and in no other run. -/
theorem icmpd_isolated (k : IcmpFds) (acts : List IcmpAct) (p : Icmpd)
    (h : (icmpd k).run (icmpd k).init acts = some p) :
    p.Isolated ↔ Icmpd.AllSettled ((icmpd k).trace (icmpd k).init acts) := by
  suffices hinv : (p.Gone ∨ p.Inv k ∧ p.Held) ∧
      (p.Isolated ↔ Icmpd.AllSettled ((icmpd k).trace (icmpd k).init acts)) from hinv.2
  refine Machine.trace_invariant (m := icmpd k) (I := fun l s => (s.Gone ∨ s.Inv k ∧ s.Held) ∧
    (s.Isolated ↔ Icmpd.AllSettled l)) ?_ ?_ h
  · exact ⟨.inr ⟨Icmpd.init_inv k,Icmpd.init_held k⟩,iff_of_true (History.heeds_nil _)
      (List.forall_mem_nil _)⟩
  rintro l s a t ⟨hgood,hiff⟩ ht
  rcases hgood with hgone | ⟨hinv,hheld⟩
  · have hnone : s.step k a = none := hgone.step a
    exact absurd (ht.symm.trans hnone) (Option.some_ne_none t)
  constructor
  · rcases Icmpd.step_inv hinv ht with hgone | hinv'
    · exact .inl hgone
    · exact (Icmpd.step_held hinv.table hheld ht).imp_right fun hheld' => ⟨hinv',hheld'⟩
  · unfold Icmpd.AllSettled
    rw [Icmpd.step_isolated hheld ht,List.forall_mem_append,List.forall_mem_singleton,hiff]
    rfl

/-- Port unreachable, about a UDP datagram from the port whose bytes are 53 and 0. -/
def portUnreachable : IcmpPacket :=
  ⟨fun i => if i = 0 ∨ i = 28 then 0x45 else if i = 20 ∨ i = 21 then 3
    else if i = 37 then IPPROTO_UDP else if i = 48 then 53 else 0,56⟩

def threeSockets : IcmpFds := ⟨3,4,5,by decide,by decide⟩

/-- A client connects and registers port 53. -/
def registers : List IcmpAct :=
  [.select {5},.listen (some 6),.select {6},.next,.next,.next,
    .conn (.byte (some ⟨7,true,some (AF_INET,53),none⟩)) true]

/-- The client terminates, and the next one gets its slot. -/
def succeeds : List IcmpAct :=
  [.select {6},.next,.next,.next,.conn .closed true,.select {5},.listen (some 6)]

def unreachable : List IcmpAct := [.select {3},.next,.recv (some portUnreachable) 1]

/-- The client that has registered port 53 gets the message. -/
theorem icmpd_isolated_client : ∃ p, (icmpd threeSockets).run (icmpd threeSockets).init
    (registers ++ unreachable) = some p ∧ p.log.length = 4 ∧ p.Isolated := by
  have hrun : ((icmpd threeSockets).run (icmpd threeSockets).init (registers ++ unreachable)).map
      (fun p => p.log.length) = some 4 := by decide +kernel
  have hset : Icmpd.AllSettled ((icmpd threeSockets).trace (icmpd threeSockets).init
      (registers ++ unreachable)) := by decide +kernel
  obtain ⟨p,hp,hlog⟩ := Option.map_eq_some_iff.mp hrun
  exact ⟨p,hp,hlog,(icmpd_isolated threeSockets _ p hp).mpr hset⟩

/-- A client that has registered nothing gets the message for the one before it in its slot. -/
theorem icmpd_not_isolated : ¬ ∀ (k : IcmpFds) (acts : List IcmpAct) (p : Icmpd),
    (icmpd k).run (icmpd k).init acts = some p → p.Isolated := by
  intro h
  let before : List IcmpEvent := [.accept 6,.registered 6 ⟨AF_INET,53,true⟩,.close 7,.close 6,
    .accept 6]
  let err : IcmpdErr := ⟨.econnrefused,3,3,16,AF_INET,[0,0,0,0],[0,0]⟩
  have hrun : ((icmpd threeSockets).run (icmpd threeSockets).init
      (registers ++ succeeds ++ unreachable)).map Icmpd.log =
      some (before ++ [.record 6 AF_INET 53 err]) := by decide +kernel
  obtain ⟨p,hp,hlog⟩ := Option.map_eq_some_iff.mp hrun
  have hiso : p.Isolated := h threeSockets _ p hp
  have howned := hiso before (.record 6 AF_INET 53 err) (by rw [hlog])
  have hnone : registrations 6 before = [] := by decide
  have hmem : ⟨AF_INET,53,true⟩ ∈ registrations 6 before := howned
  rw [hnone] at hmem
  cases hmem

end UnixNet
