import UnixNet.LineBuffer
import UnixNet.Library.CString
import UnixNet.Library.Machine
set_option autoImplicit false

/-! `str_cli` and `str_echo` at the two ends of a connection. -/

namespace UnixNet
open Units

/-- The call that comes next; `writen` has bytes left, `readline` is in its loop. -/
inductive ClientPc where
  | fgets : ClientPc
  | writen : List Byte → ClientPc
  | readline : Nat → List Byte → ClientPc
  | fputs : List Byte → ClientPc
  | returned : ClientPc
  | quit : ClientPc
  deriving DecidableEq, Repr

inductive ServerPc where
  | read : ServerPc
  | writen : List Byte → ServerPc
  | returned : ServerPc
  deriving DecidableEq, Repr

def ServerPc.left : ServerPc → List Byte
  | .writen bs => bs
  | _ => []

@[simp] theorem ServerPc.left_writen (bs : List Byte) : (ServerPc.writen bs).left = bs := rfl
@[simp] theorem ServerPc.left_read : ServerPc.read.left = [] := rfl
@[simp] theorem ServerPc.left_returned : ServerPc.returned.left = [] := rfl

/-- `c2s` and `s2c` are the bytes under way in each direction; `input` is the rest of `fp`. -/
structure EchoSession where
  client : ClientPc
  server : ServerPc
  input : List Byte
  lb : LineBuffer
  c2s : List Byte
  s2c : List Byte
  stdout : List Byte

/-- What `strlen` and `fputs` see of an array that starts with `bs` and a NUL. -/
def cString (bs : List Byte) : List Byte := bs.takeWhile (· ≠ 0)

theorem cString_cons {c : Byte} (hc : c ≠ 0) (bs : List Byte) :
    cString (c :: bs) = c :: cString bs := CString.text_cons hc bs

def Closed : ClientPc → Prop
  | .returned | .quit => True
  | _ => False

instance Closed.decidable : DecidablePred Closed := fun pc => by
  cases pc <;> unfold Closed <;> infer_instance

namespace EchoSession

/-- `Writen` of `bs`, or what follows it when nothing is left. -/
def toSend (bs : List Byte) : ClientPc := if bs = [] then .readline 1 [] else .writen bs

def toEcho (bs : List Byte) : ServerPc := if bs = [] then .read else .writen bs

@[simp] theorem left_toEcho (bs : List Byte) : (toEcho bs).left = bs := by
  unfold toEcho
  split
  · rename_i hnil
    rw [hnil,ServerPc.left_read]
  · rfl

/-- `Readline` ends the process on -1 and `str_cli` does on 0. -/
def afterReadline (ret : Int) (line : List Byte) : ClientPc := if ret ≤ 0 then .quit else .fputs line

/-- One pass of the loop in `readline(sockfd, recvline, MAXLINE)`. -/
def afterMyRead (n : Nat) (line : List Byte) (r : MyRead) : ClientPc :=
  match readlineBody n line r with
  | .more n line => if n < MAXLINE then .readline n line else afterReadline n line
  | .done ret line _ => afterReadline ret line

def gets (s : EchoSession) (n : Nat) (line : List Byte) (es : List Arrival) : EchoSession :=
  { s with client := afterMyRead n line (myRead s.lb es).1, lb := (myRead s.lb es).2.1 }

/-- A call of `str_cli`, with `k` bytes moved by a `read` or `write`. -/
def clientStep (k : Nat) (s : EchoSession) : Option EchoSession :=
  match s.client with
  | .fgets =>
    if s.input = [] then some { s with client := .returned }
    else
      some { s with
        client := toSend (cString (unit newline (MAXLINE-1) s.input))
        input := rest newline (MAXLINE-1) s.input }
  | .writen left =>
    if 0 < k ∧ k ≤ left.length then
      some { s with client := toSend (left.drop k), c2s := s.c2s ++ left.take k }
    else none
  | .readline n line =>
    if 0 < s.lb.readCnt then some (s.gets n line [])
    else
      match s.s2c.take k with
      | b :: bs =>
        if k ≤ MAXLINE then some ({ s with s2c := s.s2c.drop k }.gets n line [.data b bs]) else none
      | [] => if s.server = .returned ∧ s.s2c = [] then some (s.gets n line []) else none
  | .fputs line => some { s with client := .fgets, stdout := s.stdout ++ cString line }
  | .returned | .quit => none

/-- A call of `str_echo`. -/
def serverStep (k : Nat) (s : EchoSession) : Option EchoSession :=
  match s.server with
  | .read =>
    match s.c2s.take k with
    | b :: bs =>
      if k ≤ MAXLINE then some { s with server := .writen (b :: bs), c2s := s.c2s.drop k } else none
    | [] => if Closed s.client ∧ s.c2s = [] then some { s with server := .returned } else none
  | .writen left =>
    if 0 < k ∧ k ≤ left.length then
      some { s with server := toEcho (left.drop k), s2c := s.s2c ++ left.take k }
    else none
  | .returned => none

end EchoSession

inductive EchoAct where
  | client : Nat → EchoAct
  | server : Nat → EchoAct

def EchoSession.step (s : EchoSession) : EchoAct → Option EchoSession
  | .client k => s.clientStep k
  | .server k => s.serverStep k

def echoSession (input : List Byte) : Machine EchoSession EchoAct :=
  ⟨⟨.fgets,.read,input,.init,[],[],[]⟩,EchoSession.step⟩

/-- The client waits in `Readline`, the server in `read`, and no byte is left between them. -/
structure EchoSession.Stuck (s : EchoSession) : Prop where
  client : ∃ n line, s.client = .readline n line
  buffer : s.lb.readCnt ≤ 0
  server : s.server = .read
  c2s : s.c2s = []
  s2c : s.s2c = []

/-- What `Fgets` reads, call after call. -/
def chunks (input : List Byte) : List (List Byte) := units newline (MAXLINE-1) input

/-- A chunk that `strlen` sees in full and that `readline` takes as a whole. -/
structure Whole (chunk : List Byte) : Prop where
  noNul : 0 ∉ chunk
  ends : newline ∈ chunk ∨ chunk.length = MAXLINE - 1

namespace EchoSession
variable {input : List Byte} {s t : EchoSession} {k : Nat}

/-- The bytes on their way back to the client, the next one first. -/
def flight (s : EchoSession) : List Byte :=
  s.lb.unread ++ s.s2c ++ s.server.left ++ s.c2s

/-- The chunks before the current one were answered in full. -/
def Answered (input : List Byte) (s : EchoSession) (more : List (List Byte)) : Prop :=
  ∃ before, s.stdout = before.flatten ∧ chunks input = before ++ more ∧ ∀ c ∈ before, Whole c

def Current (input : List Byte) (s : EchoSession) (c : List Byte) : Prop :=
  Answered input s (c :: chunks s.input) ∧ Fits newline (MAXLINE-1) c

/-- Where the bytes of the current chunk are. -/
def ClientInv (input : List Byte) (s : EchoSession) : ClientPc → Prop
  | .fgets => s.flight = [] ∧ Answered input s (chunks s.input)
  | .writen left => left ≠ [] ∧ ∃ c, Current input s c ∧ s.flight ++ left = cString c
  | .readline n line => n = line.length + 1 ∧ n < MAXLINE ∧ newline ∉ line ∧
      ∃ c, Current input s c ∧ line ++ s.flight = cString c
  | .fputs line => s.flight = [] ∧ Current input s line ∧ Whole line
  | .returned => s.flight = [] ∧ Answered input s []
  | .quit => False

structure Inv (input : List Byte) (s : EchoSession) : Prop where
  client : ClientInv input s s.client
  echoing : s.server ≠ .writen []
  open_ : s.server = .returned → s.client = .returned

theorem cString_append (c : List Byte) : ∃ tail, c = cString c ++ tail ∧ (tail = [] → 0 ∉ c) := by
  refine ⟨c.dropWhile (· ≠ 0),List.takeWhile_append_dropWhile.symm,fun htail hmem => ?_⟩
  have hall := List.dropWhile_eq_nil_iff.mp htail 0 hmem
  simp at hall

theorem cString_eq {c : List Byte} (h : 0 ∉ c) : cString c = c := CString.text_eq_self h

theorem toSend_inv {c left : List Byte} (hc : Current input s c)
    (hleft : s.flight ++ left = cString c) : ClientInv input s (toSend left) := by
  unfold toSend
  split
  · rename_i hnil
    rw [hnil,List.append_nil] at hleft
    exact ⟨rfl,by decide,List.not_mem_nil,c,hc,hleft⟩
  · rename_i hne
    exact ⟨hne,c,hc,hleft⟩

theorem fputs_inv {c line : List Byte} {b : Byte} (hc : Current input s c)
    (hline : line ++ b :: s.flight = cString c)
    (hend : b = newline ∨ line.length + 1 = MAXLINE - 1) :
    ClientInv input s (.fputs (line ++ [b])) := by
  obtain ⟨tail,htail,hnul⟩ := cString_append c
  rw [← hline] at htail
  have hnil : s.flight ++ tail = [] := by
    by_contra hne
    have hsplit : c = (line ++ [b]) ++ (s.flight ++ tail) := by rw [htail]; simp
    obtain ⟨hlen,hlast⟩ := hc.2
    rcases hend with rfl | hend
    · rw [hsplit,List.dropLast_append_of_ne_nil hne] at hlast
      exact hlast (by simp)
    · have hpos := List.length_pos_iff.mpr hne
      rw [hsplit,List.length_append,List.length_append,List.length_singleton] at hlen
      omega
  obtain ⟨hflight,rfl⟩ := List.append_eq_nil_iff.mp hnil
  have hwhole : c = line ++ [b] := by rw [htail,hflight]; simp
  subst hwhole
  refine ⟨hflight,hc,hnul rfl,?_⟩
  rcases hend with rfl | hlen
  · exact .inl (by simp)
  · exact .inr (by simpa using hlen)

theorem byte_inv {n : Nat} {c line : List Byte} {b : Byte} (hc : Current input s c)
    (hn : n = line.length + 1) (hmax : n < MAXLINE) (hline : newline ∉ line)
    (hbytes : line ++ b :: s.flight = cString c) :
    ClientInv input s (afterMyRead n line (.byte b)) := by
  by_cases hb : b = newline
  · have hret : ¬ (n : Int) ≤ 0 := by omega
    simp only [afterMyRead,readlineBody,if_pos hb,afterReadline,if_neg hret]
    exact fputs_inv hc hbytes (.inl hb)
  · simp only [afterMyRead,readlineBody,if_neg hb]
    by_cases hlast : n + 1 < MAXLINE
    · rw [if_pos hlast]
      refine ⟨by simp [hn],hlast,?_,c,hc,by simpa using hbytes⟩
      simp [hline,Ne.symm hb]
    · have hret : ¬ ((n + 1 : Nat) : Int) ≤ 0 := by omega
      rw [if_neg hlast,afterReadline,if_neg hret]
      exact fputs_inv hc hbytes (.inr (by omega))

theorem clientInv_congr {pc : ClientPc} (h : ClientInv input s pc) (hflight : t.flight = s.flight)
    (hinput : t.input = s.input) (hout : t.stdout = s.stdout) : ClientInv input t pc := by
  cases pc <;>
    simp only [ClientInv,Current,Answered,hflight,hinput,hout] at h ⊢ <;> exact h

theorem serverStep_keeps (h : s.serverStep k = some t) :
    t.flight = s.flight ∧ t.client = s.client ∧ t.input = s.input ∧ t.stdout = s.stdout ∧
      t.server ≠ .writen [] ∧ (t.server = .returned → Closed s.client) := by
  unfold serverStep at h
  split at h
  · rename_i hserver
    split at h
    · rename_i b bs htake
      split at h
      · cases h
        have hc2s := List.take_append_drop k s.c2s
        rw [htake] at hc2s
        generalize List.drop k s.c2s = more at hc2s
        exact ⟨by simp [flight,hserver,← hc2s],rfl,rfl,rfl,by simp,nofun⟩
      · cases h
    · split at h
      · rename_i hclosed
        cases h
        exact ⟨by simp [flight,hserver],rfl,rfl,rfl,nofun,fun _ => hclosed.1⟩
      · cases h
  · rename_i left hserver
    split at h
    · cases h
      refine ⟨by simp [flight,hserver],rfl,rfl,rfl,?_,?_⟩
      · simp only [toEcho]
        split
        · nofun
        · rename_i hne
          simpa using hne
      · simp only [toEcho]
        split <;> nofun
    · cases h
  · cases h

theorem server_inv (hs : Inv input s) (h : s.serverStep k = some t) : Inv input t := by
  obtain ⟨hflight,hclient,hinput,hout,hechoing,hclosed⟩ := serverStep_keeps h
  refine ⟨?_,hechoing,fun hret => ?_⟩
  · rw [hclient]
    exact clientInv_congr hs.client hflight hinput hout
  · have hpc := hs.client
    have hend := hclosed hret
    rw [hclient]
    cases hcase : s.client with
    | returned => rfl
    | quit =>
      rw [hcase] at hpc
      exact hpc.elim
    | fgets | writen | readline | fputs =>
      rw [hcase] at hend
      exact hend.elim

/-- The calls that `str_cli` can make, each with its effect. -/
inductive ClientCall (s : EchoSession) : EchoSession → Prop where
  | fgetsEof : s.client = .fgets → s.input = [] → ClientCall s { s with client := .returned }
  | fgets : s.client = .fgets → s.input ≠ [] → ClientCall s { s with
      client := toSend (cString (unit newline (MAXLINE-1) s.input))
      input := rest newline (MAXLINE-1) s.input }
  | write {left : List Byte} (k : Nat) : s.client = .writen left → ClientCall s { s with
      client := toSend (left.drop k), c2s := s.c2s ++ left.take k }
  | buffered {n : Nat} {line : List Byte} : s.client = .readline n line → 0 < s.lb.readCnt →
      ClientCall s (s.gets n line [])
  | segment {n : Nat} {line bs more : List Byte} {b : Byte} : s.client = .readline n line →
      s.lb.readCnt ≤ 0 → (b :: bs).length ≤ MAXLINE → s.s2c = b :: bs ++ more →
      ClientCall s ({ s with s2c := more }.gets n line [.data b bs])
  | eof {n : Nat} {line : List Byte} : s.client = .readline n line → s.server = .returned →
      ClientCall s (s.gets n line [])
  | fputs {line : List Byte} : s.client = .fputs line → ClientCall s { s with
      client := .fgets, stdout := s.stdout ++ cString line }

theorem clientCall_of_step (h : s.clientStep k = some t) : ClientCall s t := by
  unfold clientStep at h
  split at h
  · rename_i hclient
    split at h
    · rename_i hnil
      cases h
      exact .fgetsEof hclient hnil
    · rename_i hne
      cases h
      exact .fgets hclient hne
  · rename_i left hclient
    split at h
    · cases h
      exact .write k hclient
    · cases h
  · rename_i n line hclient
    split at h
    · rename_i hcnt
      cases h
      exact .buffered hclient hcnt
    · rename_i hcnt
      split at h
      · rename_i b bs htake
        split at h
        · rename_i hk
          cases h
          refine .segment hclient (Int.not_lt.mp hcnt) ?_ ?_
          · rw [← htake]
            exact Nat.le_trans (List.length_take_le k s.s2c) hk
          · rw [← htake,List.take_append_drop]
        · cases h
      · split at h
        · rename_i hend
          cases h
          exact .eof hclient hend.1
        · cases h
  · rename_i line hclient
    cases h
    exact .fputs hclient
  · cases h
  · cases h

theorem clientCall_server (h : ClientCall s t) : t.server = s.server ∧ s.client ≠ .returned := by
  cases h <;> exact ⟨rfl,by simp [*]⟩

theorem maxline_pred_pos : 0 < MAXLINE - 1 := by decide

theorem clientCall_inv (hs : Inv input s) (h : ClientCall s t) : ClientInv input t t.client := by
  have hpc := hs.client
  cases h with
  | fgetsEof hclient hnil =>
    rw [hclient] at hpc
    obtain ⟨hflight,hans⟩ := hpc
    rw [hnil,chunks,units_nil] at hans
    exact ⟨hflight,hans⟩
  | fgets hclient hne =>
    rw [hclient] at hpc
    obtain ⟨hflight,hans⟩ := hpc
    refine toSend_inv (c := unit newline (MAXLINE-1) s.input) ⟨?_,unit_fits _ _ _⟩ ?_
    · rw [chunks,units_cons maxline_pred_pos hne] at hans
      exact hans
    · exact congrArg (· ++ cString (unit newline (MAXLINE-1) s.input)) hflight
  | @write left k hclient =>
    rw [hclient] at hpc
    obtain ⟨_,c,hc,hleft⟩ := hpc
    refine toSend_inv hc ?_
    rw [← hleft]
    simp [flight]
  | @buffered n line hclient hcnt =>
    rw [hclient] at hpc
    obtain ⟨hn,hmax,hline,c,hc,hbytes⟩ := hpc
    obtain ⟨b,lb,hread,hlb⟩ := myRead_buffered hcnt []
    simp only [gets,hread]
    refine byte_inv hc hn hmax hline ?_
    rw [← hbytes]
    simp [flight,hlb]
  | @segment n line bs more b hclient hcnt hlen hs2c =>
    rw [hclient] at hpc
    obtain ⟨hn,hmax,hline,c,hc,hbytes⟩ := hpc
    obtain ⟨lb,hread,hlb⟩ := myRead_segment hcnt hlen
    simp only [gets,hread]
    refine byte_inv hc hn hmax hline ?_
    rw [← hbytes]
    simp [flight,hlb,hs2c,LineBuffer.unread_empty hcnt]
  | eof hclient hserver =>
    -- the server returns after the client, so `readline` never meets end of file
    have hret := hs.open_ hserver
    rw [hclient] at hret
    cases hret
  | @fputs line hclient =>
    rw [hclient] at hpc
    obtain ⟨hflight,⟨⟨before,hout,hchunks,hbefore⟩,_⟩,hwhole⟩ := hpc
    refine ⟨hflight,before ++ [line],?_,by simpa using hchunks,fun c hc => ?_⟩
    · simp [hout,cString_eq hwhole.noNul]
    · rcases List.mem_append.mp hc with hc | hc
      · exact hbefore c hc
      · rw [List.mem_singleton.mp hc]
        exact hwhole

theorem client_inv (hs : Inv input s) (h : s.clientStep k = some t) : Inv input t := by
  have hcall := clientCall_of_step h
  obtain ⟨hserver,hnotyet⟩ := clientCall_server hcall
  exact ⟨clientCall_inv hs hcall,hserver ▸ hs.echoing,
    fun hret => absurd (hs.open_ (hserver ▸ hret)) hnotyet⟩

theorem step_inv (a : EchoAct) (hs : Inv input s) (h : s.step a = some t) : Inv input t := by
  cases a with
  | client k => exact client_inv hs h
  | server k => exact server_inv hs h

theorem init_inv (input : List Byte) : Inv input (echoSession input).init := by
  refine ⟨?_,nofun,nofun⟩
  change ClientInv input (echoSession input).init .fgets
  exact ⟨rfl,[],rfl,rfl,nofun⟩

theorem reachable_inv (h : (echoSession input).Reachable s) : Inv input s :=
  h.invariant (init_inv input) fun _ a _ hs ht => step_inv a hs ht

theorem Answered.stdout_initial {more : List (List Byte)} (h : Answered input s more) :
    s.stdout <+: input := by
  obtain ⟨before,hout,hchunks,_⟩ := h
  have hflat := flatten_units maxline_pred_pos (d := newline) input
  rw [← chunks,hchunks,List.flatten_append] at hflat
  exact ⟨_,hout ▸ hflat⟩

theorem Inv.stdout_initial (h : Inv input s) : s.stdout <+: input := by
  have hpc := h.client
  cases hclient : s.client with
  | fgets | returned =>
    rw [hclient] at hpc
    exact hpc.2.stdout_initial
  | writen left =>
    rw [hclient] at hpc
    obtain ⟨_,c,hc,_⟩ := hpc
    exact hc.1.stdout_initial
  | readline n line =>
    rw [hclient] at hpc
    obtain ⟨_,_,_,c,hc,_⟩ := hpc
    exact hc.1.stdout_initial
  | fputs line =>
    rw [hclient] at hpc
    exact hpc.2.1.1.stdout_initial
  | quit =>
    rw [hclient] at hpc
    exact hpc.elim

/-- The chunk that a stuck client sent is one that `readline` does not see the end of. -/
theorem Inv.stuck (h : Inv input s) (hstuck : s.Stuck) : ∃ c ∈ chunks input, ¬ Whole c := by
  obtain ⟨⟨n,line,hclient⟩,hcnt,hserver,hc2s,hs2c⟩ := hstuck
  have hpc := h.client
  rw [hclient] at hpc
  obtain ⟨hn,hmax,hline,c,⟨⟨before,_,hchunks,_⟩,_⟩,hbytes⟩ := hpc
  refine ⟨c,by simp [hchunks],fun hwhole => ?_⟩
  rw [cString_eq hwhole.noNul] at hbytes
  simp only [flight,LineBuffer.unread_empty hcnt,hserver,hc2s,hs2c,ServerPc.left_read,
    List.append_nil] at hbytes
  subst hbytes
  rcases hwhole.ends with hmem | hlen
  · exact hline hmem
  · omega

def clientRank : ClientPc → Nat
  | .fgets => 1
  | .writen left => 2 + 5 * left.length
  | .readline _ _ | .fputs _ => 2
  | .returned | .quit => 0

@[simp] theorem clientRank_toSend (bs : List Byte) :
    clientRank (toSend bs) = 2 + 5 * bs.length := by
  unfold toSend
  split
  · rename_i hnil
    simp [clientRank,hnil]
  · rfl

theorem clientRank_afterMyRead (n : Nat) (line : List Byte) (r : MyRead) :
    clientRank (afterMyRead n line r) ≤ 2 := by
  have hafter : ∀ ret line, clientRank (afterReadline ret line) ≤ 2 := by
    intro ret line
    unfold afterReadline
    split <;> simp [clientRank]
  unfold afterMyRead
  split
  · split
    · exact Nat.le_refl 2
    · exact hafter _ _
  · exact hafter _ _

/-- Each call brings the bytes of the input nearer to their end. -/
def rank (s : EchoSession) : Nat :=
  7 * s.input.length + clientRank s.client + 4 * s.c2s.length + 3 * s.server.left.length +
    2 * s.s2c.length + s.lb.unread.length

theorem fgets_progress (hclient : s.client = .fgets) :
    ∃ t, s.clientStep 0 = some t ∧ rank t < rank s := by
  by_cases hnil : s.input = []
  · have hstep : s.clientStep 0 = some { s with client := .returned } := by
      simp only [clientStep,hclient,if_pos hnil]
    exact ⟨_,hstep,by simp [rank,hclient,clientRank]⟩
  · have hstep : s.clientStep 0 = some { s with
        client := toSend (cString (unit newline (MAXLINE-1) s.input))
        input := rest newline (MAXLINE-1) s.input } := by
      simp only [clientStep,hclient,if_neg hnil]
    refine ⟨_,hstep,?_⟩
    have hsplit := congrArg List.length (unit_append_rest newline (MAXLINE-1) s.input)
    have hpos := @unit_pos _ _ newline _ _ maxline_pred_pos hnil
    have hsent : (cString (unit newline (MAXLINE-1) s.input)).length ≤
        (unit newline (MAXLINE-1) s.input).length := (List.takeWhile_prefix _).length_le
    rw [List.length_append] at hsplit
    have hrank : clientRank s.client = 1 := by rw [hclient]; rfl
    simp only [rank,clientRank_toSend,hrank]
    omega

theorem writen_progress {left : List Byte} (hleft : left ≠ []) (hclient : s.client = .writen left) :
    ∃ t, s.clientStep 1 = some t ∧ rank t < rank s := by
  have hpos := List.length_pos_iff.mpr hleft
  have hstep : s.clientStep 1 = some { s with
      client := toSend (left.drop 1), c2s := s.c2s ++ left.take 1 } := by
    simp only [clientStep,hclient]
    exact if_pos ⟨Nat.one_pos,hpos⟩
  have hrank : clientRank s.client = 2 + 5 * left.length := by rw [hclient]; rfl
  refine ⟨_,hstep,?_⟩
  simp only [rank,clientRank_toSend,hrank,List.length_append,List.length_drop,List.length_take]
  omega

theorem server_progress (hs : Inv input s) (hopen : s.server ≠ .returned)
    (hwork : s.server ≠ .read ∨ s.c2s ≠ []) : ∃ t, s.serverStep 1 = some t ∧ rank t < rank s := by
  cases hserver : s.server with
  | read =>
    obtain ⟨b,bs,hc2s⟩ := List.exists_cons_of_ne_nil (hwork.resolve_left (by simp [hserver]))
    have hstep : s.serverStep 1 = some { s with server := .writen [b], c2s := bs } := by
      simp only [serverStep,hserver,hc2s,List.take_succ_cons,List.take_zero,List.drop_succ_cons,
        List.drop_zero]
      exact if_pos (by decide)
    refine ⟨_,hstep,?_⟩
    simp only [rank,hserver,hc2s,ServerPc.left_read,ServerPc.left_writen,List.length_cons,
      List.length_nil]
    omega
  | writen left =>
    have hne : left ≠ [] := by
      rintro rfl
      exact hs.echoing hserver
    have hpos := List.length_pos_iff.mpr hne
    have hstep : s.serverStep 1 = some { s with
        server := toEcho (left.drop 1), s2c := s.s2c ++ left.take 1 } := by
      simp only [serverStep,hserver]
      exact if_pos ⟨Nat.one_pos,hpos⟩
    refine ⟨_,hstep,?_⟩
    simp only [rank,hserver,left_toEcho,ServerPc.left_writen,List.length_append,List.length_drop,
      List.length_take]
    omega
  | returned => exact absurd hserver hopen

theorem readline_progress (hs : Inv input s) {n : Nat} {line : List Byte}
    (hclient : s.client = .readline n line) (hnot : ¬ s.Stuck) :
    ∃ a t, s.step a = some t ∧ rank t < rank s := by
  have hrank : clientRank s.client = 2 := by rw [hclient]; rfl
  by_cases hcnt : 0 < s.lb.readCnt
  · obtain ⟨b,lb,hread,hlb⟩ := myRead_buffered hcnt []
    have hstep : s.step (.client 0) = some (s.gets n line []) := by
      simp only [step,clientStep,hclient,if_pos hcnt]
    refine ⟨_,_,hstep,?_⟩
    have hle := clientRank_afterMyRead n line (.byte b)
    simp only [rank,gets,hread,hrank,hlb,List.length_cons]
    omega
  · cases hs2c : s.s2c with
    | cons b bs =>
      have hlen : [b].length ≤ MAXLINE := Nat.le_of_lt (by decide : 1 < MAXLINE)
      obtain ⟨lb,hread,hlb⟩ := myRead_segment (Int.not_lt.mp hcnt) hlen
      have hstep : s.step (.client 1) = some ({ s with s2c := bs }.gets n line [.data b []]) := by
        simp only [step,clientStep,hclient,if_neg hcnt,hs2c,List.take_succ_cons,List.take_zero,
          List.drop_succ_cons,List.drop_zero]
        exact if_pos hlen
      refine ⟨_,_,hstep,?_⟩
      have hle := clientRank_afterMyRead n line (.byte b)
      simp only [rank,gets,hread,hrank,hlb,hs2c,List.length_cons,List.length_nil]
      omega
    | nil =>
      have hopen : s.server ≠ .returned := by
        intro hret
        have hend := hs.open_ hret
        rw [hclient] at hend
        cases hend
      have hwork : s.server ≠ .read ∨ s.c2s ≠ [] := by
        by_contra hidle
        obtain ⟨hserver,hc2s⟩ := not_or.mp hidle
        exact hnot ⟨⟨n,line,hclient⟩,Int.not_lt.mp hcnt,not_not.mp hserver,not_not.mp hc2s,hs2c⟩
      obtain ⟨t,ht,hlt⟩ := server_progress hs hopen hwork
      exact ⟨.server 1,t,ht,hlt⟩

/-- Unless the two wait for each other, a call can be made until the client returns. -/
theorem Inv.progress (hs : Inv input s) (hnot : ¬ (s.Stuck ∨ s.client = .returned)) :
    ∃ a t, s.step a = some t ∧ Inv input t ∧ rank t < rank s := by
  obtain ⟨hstuck,hret⟩ := not_or.mp hnot
  obtain ⟨a,t,ht,hlt⟩ : ∃ a t, s.step a = some t ∧ rank t < rank s := by
    have hpc := hs.client
    cases hclient : s.client with
    | fgets =>
      obtain ⟨t,ht,hlt⟩ := fgets_progress hclient
      exact ⟨.client 0,t,ht,hlt⟩
    | writen left =>
      rw [hclient] at hpc
      obtain ⟨t,ht,hlt⟩ := writen_progress hpc.1 hclient
      exact ⟨.client 1,t,ht,hlt⟩
    | readline n line => exact readline_progress hs hclient hstuck
    | fputs line =>
      have hstep : s.step (.client 0) = some { s with
          client := .fgets, stdout := s.stdout ++ cString line } := by
        simp only [step,clientStep,hclient]
      exact ⟨_,_,hstep,by simp [rank,hclient,clientRank]⟩
    | returned => exact absurd hclient hret
    | quit =>
      rw [hclient] at hpc
      exact hpc.elim
  exact ⟨a,t,ht,step_inv a hs ht,hlt⟩

end EchoSession

open EchoSession

/-- The client and the server never wait for each other exactly when every chunk that
`Fgets` reads is free of NUL bytes and ends with a newline or fills `sendline`. -/
theorem strCli_strEcho_iff (input : List Byte) :
    (∀ s, (echoSession input).Reachable s → ¬ s.Stuck ∧ s.stdout <+: input) ↔
      ∀ c ∈ chunks input, Whole c := by
  constructor
  · intro h c hc
    obtain ⟨t,ht,hinv,hstop⟩ := Machine.reaches_of_rank (I := Inv input)
      (G := fun s => s.Stuck ∨ s.client = .returned) rank (fun s hs hn => hs.progress hn)
      (init_inv input) (echoSession input).reachable_init
    have hreturned := hstop.resolve_left (h t ht).1
    have hpc := hinv.client
    rw [hreturned] at hpc
    obtain ⟨_,before,_,hchunks,hbefore⟩ := hpc
    rw [hchunks,List.append_nil] at hc
    exact hbefore c hc
  · intro h s hs
    have hinv := reachable_inv hs
    refine ⟨fun hstuck => ?_,hinv.stdout_initial⟩
    obtain ⟨c,hc,hbad⟩ := hinv.stuck hstuck
    exact hbad (h c hc)

/-- The input "a" without a newline. -/
theorem strCli_strEcho_stuck : ¬ ∀ (input : List Byte) (s : EchoSession),
    (echoSession input).Reachable s → ¬ s.Stuck ∧ s.stdout <+: input := by
  intro h
  have hrun : ((echoSession [97]).run (echoSession [97]).init
      [.client 0,.client 1,.server 1,.server 1,.client 1]).map
      (fun s => (s.client,s.lb.readCnt,s.server,s.c2s,s.s2c)) =
      some (.readline 2 [97],0,.read,[],[]) := by decide
  obtain ⟨s,hs,hst⟩ := Option.map_eq_some_iff.mp hrun
  obtain ⟨hclient,hcnt,hserver,hc2s,hs2c⟩ := by simpa only [Prod.mk.injEq] using hst
  exact (h [97] s ⟨_,hs⟩).1 ⟨⟨2,[97],hclient⟩,Int.le_of_eq hcnt,hserver,hc2s,hs2c⟩

end UnixNet
