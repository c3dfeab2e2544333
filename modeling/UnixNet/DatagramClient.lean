import Mathlib.Data.List.Range
import UnixNet.Library.Machine
import UnixNet.LineClient
set_option autoImplicit false

/-! `dg_cli` and its server, with datagrams from other addresses between them. -/

namespace UnixNet
open Units

/-- `answers` tells which datagram of the client this one is the reply to. -/
structure Datagram where
  addr : List Byte
  data : List Byte
  answers : Option Nat
  deriving DecidableEq, Repr

/-- What `dg_ehco` sends back. -/
def dgEhco (mesg : List Byte) : List Byte := mesg.take MAXLINE

/-- `len != servlen || memcmp(pservaddr, preply_addr, len) != 0` -/
def foreign (servaddr addr : List Byte) : Bool :=
  addr.length ≠ servaddr.length ∨ servaddr.take addr.length ≠ addr.take addr.length

inductive DgPc where
  | fgets : DgPc
  | sendto (sendline : List Byte) : DgPc
  | recvfrom : DgPc
  | returned : DgPc
  deriving DecidableEq, Repr

/-- What the client prints: the line in a datagram received after `sent` were sent, or
that it ignored one. -/
inductive DgOutput where
  | line (sent : Nat) (reply : Datagram) : DgOutput
  | ignored (addr : List Byte) : DgOutput
  deriving DecidableEq, Repr

/-- `requests` are on their way to the server or with it, the first `answered` of all
were answered; `inbox` is what the client's socket has received. -/
structure DgSession where
  pc : DgPc
  input : List Byte
  sent : Nat
  requests : List (List Byte)
  answered : Nat
  inbox : List Datagram
  log : List DgOutput
  stdout : List Byte
  deriving DecidableEq, Repr

/-- A call of the client; an answer of the server to the oldest request; a datagram
from elsewhere. -/
inductive DgAct where
  | client : DgAct
  | answer (reply : List Byte) : DgAct
  | stray (addr data : List Byte) : DgAct

namespace DgSession

def recvfrom (servaddr : List Byte) (s : DgSession) (d : Datagram) (ds : List Datagram) :
    DgSession :=
  if foreign servaddr d.addr then
    { s with pc := .fgets, inbox := ds, log := s.log ++ [.ignored d.addr] }
  else
    { s with
      pc := .fgets
      inbox := ds
      log := s.log ++ [.line s.sent d]
      stdout := s.stdout ++ cString (d.data.take MAXLINE) }

/-- The calls of `dg_cli`. -/
def clientStep (servaddr : List Byte) (s : DgSession) : Option DgSession :=
  match s.pc with
  | .fgets =>
    if s.input = [] then some { s with pc := .returned }
    else
      some { s with
        pc := .sendto (cString (unit newline (MAXLINE-1) s.input))
        input := rest newline (MAXLINE-1) s.input }
  | .sendto sendline =>
    some { s with pc := .recvfrom, sent := s.sent + 1, requests := s.requests ++ [sendline] }
  | .recvfrom =>
    match s.inbox with
    | [] => none
    | d :: ds => some (s.recvfrom servaddr d ds)
  | .returned => none

def step (servaddr : List Byte) (s : DgSession) : DgAct → Option DgSession
  | .client => s.clientStep servaddr
  | .answer reply =>
    match s.requests with
    | [] => none
    | _ :: rs => some { s with
        requests := rs
        answered := s.answered + 1
        inbox := s.inbox ++ [⟨servaddr,reply,some (s.answered + 1)⟩] }
  | .stray addr data =>
    if addr = servaddr then none else some { s with inbox := s.inbox ++ [⟨addr,data,none⟩] }

end DgSession

def dgCli (servaddr input : List Byte) : Machine DgSession DgAct :=
  ⟨⟨.fgets,input,0,[],0,[],[],[]⟩,DgSession.step servaddr⟩

/-- Each printed line is the reply to the line sent most recently. -/
def DgSession.Paired (s : DgSession) : Prop :=
  ∀ k d, .line k d ∈ s.log → d.answers = some k

/-- The client takes a reply of the server after it has ignored a datagram. -/
structure DgSession.Late (servaddr : List Byte) (s : DgSession) (a : DgAct) : Prop where
  call : a = .client
  waiting : s.pc = .recvfrom
  reply : ∃ d ds, s.inbox = d :: ds ∧ d.addr = servaddr
  ignored : ∃ addr, .ignored addr ∈ s.log

def DgOutput.isLine : DgOutput → Bool
  | .line _ _ => true
  | .ignored _ => false

namespace DgSession
variable {servaddr input : List Byte} {s t : DgSession}

theorem foreign_iff (addr : List Byte) : foreign servaddr addr = true ↔ addr ≠ servaddr := by
  simp only [foreign,decide_eq_true_eq]
  constructor
  · rintro h rfl
    simp at h
  · intro hne
    by_contra h
    obtain ⟨hlen,htake⟩ := not_or.mp h
    rw [not_not] at hlen htake
    rw [hlen,List.take_length,← hlen,List.take_length] at htake
    exact hne htake.symm

/-- The lines printed so far. -/
def printed (log : List DgOutput) : Nat := log.countP DgOutput.isLine

@[simp] theorem printed_line (log : List DgOutput) (k : Nat) (d : Datagram) :
    printed (log ++ [.line k d]) = printed log + 1 := by simp [printed,DgOutput.isLine]

@[simp] theorem printed_ignored (log : List DgOutput) (addr : List Byte) :
    printed (log ++ [.ignored addr]) = printed log := by simp [printed,DgOutput.isLine]

/-- The replies in the inbox are those to the next requests, in order. -/
structure Inv (servaddr : List Byte) (s : DgSession) : Prop where
  replies : ∃ n, s.inbox.filterMap Datagram.answers = List.range' (printed s.log + 1) n ∧
    s.answered = printed s.log + n
  senders : ∀ d ∈ s.inbox, d.answers = none ↔ d.addr ≠ servaddr
  sent : s.sent = s.log.length + if s.pc = .recvfrom then 1 else 0

theorem init_inv : Inv servaddr (dgCli servaddr input).init := ⟨⟨0,rfl,rfl⟩,nofun,rfl⟩

theorem answer_inv {reply : List Byte} {rs : List (List Byte)} (h : Inv servaddr s) :
    Inv servaddr { s with
      requests := rs
      answered := s.answered + 1
      inbox := s.inbox ++ [⟨servaddr,reply,some (s.answered + 1)⟩] } := by
  obtain ⟨⟨n,hrange,hans⟩,hsenders,hsent⟩ := h
  refine ⟨⟨n+1,?_,by rw [hans,Nat.add_assoc]⟩,fun d hd => ?_,hsent⟩
  · have hlast : s.answered + 1 = printed s.log + 1 + n := by omega
    dsimp only
    rw [List.filterMap_append,hrange,List.range'_1_concat,← hlast]
    rfl
  · rcases List.mem_append.mp hd with hd | hd
    · exact hsenders d hd
    · rw [List.mem_singleton.mp hd]
      simp

theorem stray_inv {addr data : List Byte} (haddr : addr ≠ servaddr) (h : Inv servaddr s) :
    Inv servaddr { s with inbox := s.inbox ++ [⟨addr,data,none⟩] } := by
  obtain ⟨⟨n,hrange,hans⟩,hsenders,hsent⟩ := h
  refine ⟨⟨n,?_,hans⟩,fun d hd => ?_,hsent⟩
  · dsimp only
    rw [List.filterMap_append,hrange]
    exact List.append_nil _
  · rcases List.mem_append.mp hd with hd | hd
    · exact hsenders d hd
    · rw [List.mem_singleton.mp hd]
      simpa using haddr

/-- A `recvfrom` that ignores its datagram, and one that takes a reply. -/
theorem recvfrom_inv {d : Datagram} {ds : List Datagram} (h : Inv servaddr s)
    (hpc : s.pc = .recvfrom) (hinbox : s.inbox = d :: ds) :
    Inv servaddr (s.recvfrom servaddr d ds) := by
  obtain ⟨⟨n,hrange,hans⟩,hsenders,hsent⟩ := h
  have hrest : ∀ e ∈ ds, e.answers = none ↔ e.addr ≠ servaddr :=
    fun e he => hsenders e (by simp [hinbox,he])
  have hd := hsenders d (by simp [hinbox])
  rw [hpc,if_pos rfl] at hsent
  rw [hinbox] at hrange
  unfold recvfrom
  split
  · rename_i hforeign
    have hnone := hd.mpr ((foreign_iff d.addr).mp hforeign)
    refine ⟨⟨n,?_,?_⟩,hrest,by simpa using hsent⟩
    · rw [printed_ignored]
      simpa [hnone] using hrange
    · rw [printed_ignored]
      exact hans
  · rename_i hours
    obtain ⟨k,hk⟩ := Option.ne_none_iff_exists'.mp
      (fun hnone => hours ((foreign_iff d.addr).mpr (hd.mp hnone)))
    rw [List.filterMap_cons_some hk] at hrange
    cases n with
    | zero => cases hrange
    | succ n =>
      obtain ⟨rfl,htail⟩ := List.cons.inj (hrange.trans List.range'_succ)
      refine ⟨⟨n,?_,?_⟩,hrest,by simpa using hsent⟩
      · rw [printed_line]
        exact htail
      · rw [printed_line,hans]
        omega

/-- What a step can do. -/
inductive Moves (servaddr : List Byte) (s : DgSession) : DgAct → DgSession → Prop where
  | eof (pc : s.pc = .fgets) : Moves servaddr s .client { s with pc := .returned }
  | fgets {sendline input : List Byte} (pc : s.pc = .fgets) :
      Moves servaddr s .client { s with pc := .sendto sendline, input := input }
  | sendto {sendline : List Byte} (pc : s.pc = .sendto sendline) : Moves servaddr s .client { s with
      pc := .recvfrom
      sent := s.sent + 1
      requests := s.requests ++ [sendline] }
  | recvfrom {d : Datagram} {ds : List Datagram} (pc : s.pc = .recvfrom) (inbox : s.inbox = d :: ds) :
      Moves servaddr s .client (s.recvfrom servaddr d ds)
  | answer {reply : List Byte} {requests : List (List Byte)} :
      Moves servaddr s (.answer reply) { s with
        requests := requests
        answered := s.answered + 1
        inbox := s.inbox ++ [⟨servaddr,reply,some (s.answered + 1)⟩] }
  | stray {addr data : List Byte} (other : addr ≠ servaddr) :
      Moves servaddr s (.stray addr data) { s with inbox := s.inbox ++ [⟨addr,data,none⟩] }

theorem step_moves {a : DgAct} (ht : s.step servaddr a = some t) : s.Moves servaddr a t := by
  cases a with
  | client =>
    simp only [step,clientStep] at ht
    split at ht
    · rename_i hpc
      split at ht
      · cases ht
        exact .eof hpc
      · cases ht
        exact .fgets hpc
    · rename_i sendline hpc
      cases ht
      exact .sendto hpc
    · rename_i hpc
      split at ht
      · cases ht
      · rename_i d ds hinbox
        cases ht
        exact .recvfrom hpc hinbox
    · cases ht
  | answer reply =>
    simp only [step] at ht
    split at ht
    · cases ht
    · cases ht
      exact .answer
  | stray addr data =>
    simp only [step] at ht
    split at ht
    · cases ht
    · rename_i haddr
      cases ht
      exact .stray haddr

theorem step_inv {a : DgAct} (h : Inv servaddr s) (ht : s.step servaddr a = some t) :
    Inv servaddr t := by
  have hsent := h.sent
  cases step_moves ht with
  | eof pc =>
    rw [pc] at hsent
    exact ⟨h.replies,h.senders,hsent⟩
  | fgets pc =>
    rw [pc] at hsent
    exact ⟨h.replies,h.senders,hsent⟩
  | sendto pc =>
    rw [pc] at hsent
    exact ⟨h.replies,h.senders,congrArg (· + 1) hsent⟩
  | recvfrom pc inbox => exact recvfrom_inv h pc inbox
  | answer => exact answer_inv h
  | stray other => exact stray_inv other h

theorem printed_eq_length {log : List DgOutput} :
    printed log = log.length ↔ ¬ ∃ addr, .ignored addr ∈ log := by
  rw [printed,List.countP_eq_length]
  constructor
  · rintro h ⟨addr,hmem⟩
    cases h _ hmem
  · intro h out hmem
    cases out with
    | line => rfl
    | ignored addr => exact absurd ⟨addr,hmem⟩ h

theorem paired_append {log : List DgOutput} {out : DgOutput} :
    (∀ k d, .line k d ∈ log ++ [out] → d.answers = some k) ↔
      (∀ k d, .line k d ∈ log → d.answers = some k) ∧
        ∀ k d, out = .line k d → d.answers = some k := by
  simp only [List.mem_append,List.mem_singleton,or_imp,forall_and,eq_comm (b := out)]

/-- The next printed line is the reply to the latest request unless a datagram was ignored. -/
theorem recvfrom_paired {d : Datagram} {ds : List Datagram} (h : Inv servaddr s)
    (hpc : s.pc = .recvfrom) (hinbox : s.inbox = d :: ds) :
    (s.recvfrom servaddr d ds).Paired ↔ s.Paired ∧ ¬ s.Late servaddr .client := by
  have hd := h.senders d (by simp [hinbox])
  unfold recvfrom Paired
  split
  · rename_i hforeign
    have hne := (foreign_iff d.addr).mp hforeign
    have hnot : ¬ s.Late servaddr .client := by
      rintro ⟨_,_,⟨e,es,he,haddr⟩,_⟩
      rw [hinbox] at he
      obtain ⟨rfl,_⟩ := List.cons.inj he
      exact hne haddr
    rw [paired_append]
    simp [hnot]
  · rename_i hours
    have haddr : d.addr = servaddr := by
      by_contra hne
      exact hours ((foreign_iff d.addr).mpr hne)
    have hlate : s.Late servaddr .client ↔ ∃ addr, .ignored addr ∈ s.log :=
      ⟨fun h => h.ignored,fun h => ⟨rfl,hpc,⟨d,ds,hinbox,haddr⟩,h⟩⟩
    have hanswer : d.answers = some (printed s.log + 1) := by
      obtain ⟨n,hrange,_⟩ := h.replies
      obtain ⟨k,hk⟩ := Option.ne_none_iff_exists'.mp (fun hnone => hd.mp hnone haddr)
      rw [hinbox,List.filterMap_cons_some hk] at hrange
      cases n with
      | zero => cases hrange
      | succ n => rw [hk,(List.cons.inj (hrange.trans List.range'_succ)).1]
    have hsent := h.sent
    rw [hpc,if_pos rfl] at hsent
    rw [paired_append,hlate,← printed_eq_length]
    refine and_congr_right fun _ => ?_
    simp only [DgOutput.line.injEq,and_imp]
    constructor
    · intro hk
      have hlast := hk s.sent d rfl rfl
      rw [hanswer,hsent] at hlast
      exact Nat.succ.inj (Option.some.inj hlast)
    · rintro hall k e rfl rfl
      rw [hanswer,hsent,hall]

theorem step_paired {a : DgAct} (h : Inv servaddr s) (ht : s.step servaddr a = some t) :
    t.Paired ↔ s.Paired ∧ ¬ s.Late servaddr a := by
  have hsame (hlog : t.log = s.log) (hnot : ¬ s.Late servaddr a) :
      t.Paired ↔ s.Paired ∧ ¬ s.Late servaddr a := by
    simp only [Paired,hlog,hnot,not_false_eq_true,and_true]
  have hbusy {pc : DgPc} (hpc : s.pc = pc) (hne : pc ≠ .recvfrom) : ¬ s.Late servaddr a :=
    fun hlate => hne (hpc.symm.trans hlate.waiting)
  cases step_moves ht with
  | eof pc => exact hsame rfl (hbusy pc (by simp))
  | fgets pc => exact hsame rfl (hbusy pc (by simp))
  | sendto pc => exact hsame rfl (hbusy pc (by simp))
  | recvfrom pc inbox => exact recvfrom_paired h pc inbox
  | answer => exact hsame rfl fun hlate => by cases hlate.call
  | stray other => exact hsame rfl fun hlate => by cases hlate.call

end DgSession

/-- `dg_cli` stays in step with the server until it takes a reply after it has ignored
a datagram. -/
theorem dgCli_paired_iff (servaddr input : List Byte) (acts : List DgAct) (s : DgSession)
    (h : (dgCli servaddr input).run (dgCli servaddr input).init acts = some s) :
    s.Paired ↔ ∀ x ∈ (dgCli servaddr input).trace (dgCli servaddr input).init acts,
      ¬ x.1.Late servaddr x.2 := by
  refine (Machine.trace_invariant (m := dgCli servaddr input) (I := fun l s =>
    DgSession.Inv servaddr s ∧ (s.Paired ↔ ∀ x ∈ l, ¬ x.1.Late servaddr x.2)) ?_ ?_ h).2
  · exact ⟨DgSession.init_inv,iff_of_true nofun nofun⟩
  · rintro l s a t ⟨hinv,hiff⟩ ht
    refine ⟨DgSession.step_inv hinv ht,?_⟩
    rw [DgSession.step_paired hinv ht,hiff]
    simp [or_imp,forall_and]

/-- A stray datagram that arrives after the reply does no harm. -/
theorem dgCli_paired_stray :
    let acts := [.client,.client,.answer (dgEhco [97,10]),.stray [2] [120],.client,.client,.client]
    ∃ s, (dgCli [1] [97,10,98]).run (dgCli [1] [97,10,98]).init acts = some s ∧ s.Paired ∧
      s.stdout = [97,10] := by
  intro acts
  have hclean : ∀ x ∈ (dgCli [1] [97,10,98]).trace (dgCli [1] [97,10,98]).init acts,
      DgSession.printed x.1.log = x.1.log.length := by decide
  exact ⟨_,rfl,(dgCli_paired_iff [1] [97,10,98] acts _ rfl).mpr fun x hx hlate =>
    DgSession.printed_eq_length.mp (hclean x hx) hlate.ignored,by decide⟩

/-- The stray datagram comes first: the second line that is sent gets the reply to the
first one. -/
theorem dgCli_not_paired : ¬ ∀ (servaddr input : List Byte) (acts : List DgAct) (s : DgSession),
    (dgCli servaddr input).run (dgCli servaddr input).init acts = some s → s.Paired := by
  intro h
  have hlast := h [1] [97,10,98,10] [.stray [2] [120],.client,.client,.client,
    .answer (dgEhco [97,10]),.client,.client,.client] _ rfl 2 ⟨[1],[97,10],some 1⟩ (by decide)
  revert hlast
  decide

end UnixNet
