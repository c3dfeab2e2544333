import UnixNet.IcmpIsolation
set_option autoImplicit false

/-! icmpd: what a datagram of any content can do to `readable_v4` and `readable_v6`. -/

namespace UnixNet
namespace IcmpPacket

def icmplen (p : IcmpPacket) : Int := p.n - p.hlen 0

/-- The ICMP messages that quote the datagram they are about. -/
def quotes4 (type : Byte) : Bool :=
  type = ICMP_UNREACH ∨ type = ICMP_TIMXCEED ∨ type = ICMP_SOURCEQUENCH

def quotes6 (type : Byte) : Bool :=
  type = ICMP6_DST_UNREACH ∨ type = ICMP6_PACKET_TOO_BIG ∨ type = ICMP6_TIME_EXCEEDED

/-- The tests of the length that end the process when they fail. -/
def Passes4 (p : IcmpPacket) : Prop :=
  8 ≤ p.icmplen ∧ (quotes4 (p.buf (p.hlen 0)) → 8 + 20 + 8 ≤ p.icmplen)

def Passes6 (p : IcmpPacket) : Prop := 8 ≤ p.n ∧ (quotes6 (p.buf 0) → 8 + 8 ≤ p.n)

/-- The packet ends before the UDP header in it does, or an IP header in it is too short. -/
def Malformed4 (p : IcmpPacket) : Prop :=
  let hip := p.hlen 0 + 8
  p.icmplen < 8 ∨ quotes4 (p.buf (p.hlen 0)) ∧ (p.icmplen < 8 + 20 ∨
    p.buf (hip + 9) = IPPROTO_UDP ∧ (p.hlen hip < 20 ∨ p.icmplen < 8 + p.hlen hip + 8))

def Malformed6 (p : IcmpPacket) : Prop :=
  p.n < 8 ∨ quotes6 (p.buf 0) ∧ (p.n < 8 + 40 ∨
    p.buf (8 + 6) = IPPROTO_UDP ∧ p.n < 8 + 40 + 8)

instance decidablePasses4 (p : IcmpPacket) : Decidable p.Passes4 :=
  inferInstanceAs (Decidable (_ ∧ (_ → _)))

instance decidablePasses6 (p : IcmpPacket) : Decidable p.Passes6 :=
  inferInstanceAs (Decidable (_ ∧ (_ → _)))

instance decidableMalformed4 (p : IcmpPacket) : Decidable p.Malformed4 :=
  inferInstanceAs (Decidable (_ ∨ _ ∧ (_ ∨ _ ∧ (_ ∨ _))))

instance decidableMalformed6 (p : IcmpPacket) : Decidable p.Malformed6 :=
  inferInstanceAs (Decidable (_ ∨ _ ∧ (_ ∨ _ ∧ _)))

/-- The two tests that the functions have in common, and what they let through. -/
theorem tests_quit {len least : Int} {quotes : Prop} [Decidable quotes] {text text' : String}
    {quoted other : IcmpMessage} (hquoted : ∀ t, quoted ≠ .quit t) (hother : ∀ t, other ≠ .quit t) :
    (∃ t, (if len < 8 then .quit text
      else if quotes then if len < least then .quit text' else quoted else other) =
        IcmpMessage.quit t) ↔ ¬ (8 ≤ len ∧ (quotes → least ≤ len)) := by
  by_cases hlen : len < 8
  · rw [if_pos hlen]
    exact iff_of_true ⟨_,rfl⟩ fun h => by omega
  · rw [if_neg hlen]
    by_cases hq : quotes
    · rw [if_pos hq]
      by_cases hleast : len < least
      · rw [if_pos hleast]
        refine iff_of_true ⟨_,rfl⟩ fun h => ?_
        have hlong := h.2 hq
        omega
      · rw [if_neg hleast]
        refine iff_of_false (fun ⟨t,ht⟩ => hquoted t ht) (not_not_intro ⟨by omega,fun _ => ?_⟩)
        omega
    · rw [if_neg hq]
      exact iff_of_false (fun ⟨t,ht⟩ => hother t ht)
        (not_not_intro ⟨by omega,fun h => absurd h hq⟩)

theorem parse4_quit (p : IcmpPacket) : (∃ text, p.parse4 = .quit text) ↔ ¬ p.Passes4 := by
  unfold parse4 Passes4 quotes4
  simp only [decide_eq_true_eq]
  exact tests_quit (fun t => by split <;> simp) (by simp)

theorem parse6_quit (p : IcmpPacket) : (∃ text, p.parse6 = .quit text) ↔ ¬ p.Passes6 := by
  unfold parse6 Passes6 quotes6
  simp only [decide_eq_true_eq]
  exact tests_quit (fun t => by split <;> simp) (by simp)

end IcmpPacket

namespace Icmpd
variable {k : IcmpFds} {s t : Icmpd} {p : IcmpPacket} {taken : Nat}

/-- The three notions for the socket that is read next. -/
def parse (s : Icmpd) (p : IcmpPacket) : IcmpMessage := if s.pc = .v4 then p.parse4 else p.parse6

def Passes (s : Icmpd) (p : IcmpPacket) : Prop := if s.pc = .v4 then p.Passes4 else p.Passes6

def Malformed (s : Icmpd) (p : IcmpPacket) : Prop :=
  if s.pc = .v4 then p.Malformed4 else p.Malformed6

/-- No client waits for what the packet seems to be about. -/
def Unmatched (s : Icmpd) (p : IcmpPacket) : Prop :=
  ∀ family sport err, s.parse p = .report family sport err → s.targets family sport = []

/-- The clients stay connected: as many writes as there may be succeed. -/
def Connected (s : Icmpd) (taken : Nat) : Prop := (s.maxi + 1).toNat ≤ taken

/-- The packet does not end the daemon, and a malformed one reaches nobody. -/
def Survives (k : IcmpFds) (s : Icmpd) (p : IcmpPacket) (taken : Nat) : Prop :=
  ∀ t, s.recvStep k (some p) taken = some t → ¬ Gone t ∧ (s.Malformed p → t.log = s.log)

theorem parse_quit (s : Icmpd) (p : IcmpPacket) :
    (∃ text, s.parse p = .quit text) ↔ ¬ s.Passes p := by
  unfold parse Passes
  split
  · exact p.parse4_quit
  · exact p.parse6_quit

theorem not_gone_ret {pc : IcmpPc} (hpc : ∀ why, pc ≠ .exited why) : ¬ Gone (s.ret pc) := by
  rintro ⟨why,hwhy⟩
  simp only [ret] at hwhy
  split at hwhy
  · cases hwhy
  · exact hpc why hwhy

theorem recv_parse (ht : s.recvStep k (some p) taken = some t) :
    ∃ fd pc, (∀ why, pc ≠ .exited why) ∧ t = (s.handle fd).forward (s.parse p) taken pc := by
  rcases recv_of_step ht with ⟨hpc,_,rfl⟩ | ⟨hpc,_,rfl⟩
  · exact ⟨k.fd4,.v6,by simp,by simp [parse,hpc,readable]⟩
  · exact ⟨k.fd6,.clients 0,by simp,by simp [parse,hpc,readable]⟩

theorem forward_survives (fd : Int) {pc : IcmpPc} (m : IcmpMessage) (hpc : ∀ why, pc ≠ .exited why)
    (hconn : s.Connected taken) :
    (Gone ((s.handle fd).forward m taken pc) ↔ ∃ text, m = .quit text) ∧
      (((s.handle fd).forward m taken pc).log = s.log ↔
        ∀ family sport err, m = .report family sport err → s.targets family sport = []) := by
  cases m with
  | quit text => exact ⟨iff_of_true ⟨_,rfl⟩ ⟨text,rfl⟩,iff_of_true rfl nofun⟩
  | ignore => exact ⟨iff_of_false (not_gone_ret hpc) nofun,iff_of_true rfl nofun⟩
  | report family sport err =>
    have hle : (s.targets family sport).length ≤ taken :=
      ((List.length_filter_le _ _).trans (List.length_range ..).le).trans hconn
    have htake : (s.targets family sport).take taken = s.targets family sport :=
      List.take_of_length_le hle
    have heq : (s.handle fd).forward (.report family sport err) taken pc =
        ((s.handle fd).did ((s.targets family sport).map fun i =>
          .record (s.client i).connfd family sport err)).ret pc := by
      rw [← htake]
      exact if_neg (Nat.not_lt.mpr hle)
    rw [heq]
    refine ⟨iff_of_false (not_gone_ret hpc) nofun,?_⟩
    have hlog : ∀ es : List IcmpEvent, (((s.handle fd).did es).ret pc).log = s.log ++ es :=
      fun _ => rfl
    rw [hlog,List.append_right_eq_self,List.map_eq_nil_iff]
    constructor
    · rintro hnil _ _ _ hreport
      cases hreport
      exact hnil
    · exact fun h => h family sport err rfl

theorem survives_iff (hconn : s.Connected taken) (ht : s.recvStep k (some p) taken = some t) :
    s.Survives k p taken ↔ s.Passes p ∧ (s.Malformed p → s.Unmatched p) := by
  obtain ⟨fd,pc,hpc,heq⟩ := recv_parse ht
  obtain ⟨hgone,hlog⟩ := forward_survives fd (s.parse p) hpc hconn
  rw [← heq,parse_quit] at hgone
  rw [← heq] at hlog
  constructor
  · intro h
    obtain ⟨hstays,hquiet⟩ := h t ht
    exact ⟨not_not.mp fun hno => hstays (hgone.mpr hno),fun hmal => hlog.mp (hquiet hmal)⟩
  · rintro ⟨hpass,hnone⟩ t' ht'
    obtain rfl := Option.some.inj (ht.symm.trans ht')
    exact ⟨fun hg => hgone.mp hg hpass,fun hmal => hlog.mpr (hnone hmal)⟩

end Icmpd

/-- Every datagram of a run with connected clients is survived. -/
def IcmpRobust (k : IcmpFds) (as : List IcmpAct) : Prop :=
  ∀ s p taken, (s,.recv (some p) taken) ∈ (icmpd k).trace (icmpd k).init as →
    s.Connected taken → s.Survives k p taken

/-- The lengths of what `Recvfrom` can give, with an IP header in front. -/
def Sized (as : List IcmpAct) : Prop :=
  ∀ (p : IcmpPacket) (taken : Nat), .recv (some p) taken ∈ as → 20 ≤ p.n ∧ p.n ≤ MAXLINE

end UnixNet
