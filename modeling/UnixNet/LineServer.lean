import Mathlib.Data.Finset.Card
import UnixNet.EventLoop
import UnixNet.LineBuffer
import UnixNet.Library.Machine
import UnixNet.Library.Slots
set_option autoImplicit false

/-!
nonblock/tcpservselect03.c: a `select` server that reads all of its clients through the one
buffer of `readline`. Each byte is followed from the connection it was received on.
-/

namespace UnixNet

/-- The statics of readline.c, and the connection whose bytes they hold. -/
structure OwnedBuffer where
  lb : LineBuffer
  owner : Nat

/-- `my_read` on connection `conn`: a `read` fills the buffer with bytes of that one. -/
def myReadOn (conn : Nat) (b : OwnedBuffer) (es : List Arrival) :
    MyRead × OwnedBuffer × List Arrival :=
  let owner := if b.lb.readCnt ≤ 0 then conn else b.owner
  match myRead b.lb es with
  | (r,lb,es) => (r,⟨lb,owner⟩,es)

/-- The byte that `my_read` returned, with the connection it was received on. -/
def stamp (owner : Nat) : MyRead → List (Nat × Byte)
  | .byte c => [(owner,c)]
  | _ => []

/-- The result of `readline`, with the line as it was received. -/
structure OwnedLine where
  ret : Int
  line : List (Nat × Byte)
  nul : Bool
  buffer : OwnedBuffer
  rest : List Arrival

/-- `readlineLoop`, with the connections of the stored bytes in `line`. -/
def readlineLoopOn (conn : Nat) (b : OwnedBuffer) (es : List Arrival) (n : Nat)
    (line : List (Nat × Byte)) : Nat → OwnedLine
  | 0 => ⟨n,line,true,b,es⟩
  | k+1 =>
    match myReadOn conn b es with
    | (r,b,es) =>
      let line' := line ++ stamp b.owner r
      match readlineBody n (line.map Prod.snd) r with
      | .more n _ => readlineLoopOn conn b es n line' k
      | .done ret _ nul => ⟨ret,line',nul,b,es⟩

def readlineOn (conn maxlen : Nat) (b : OwnedBuffer) (es : List Arrival) : OwnedLine :=
  readlineLoopOn conn b es 1 [] (maxlen-1)

/-- `readline` does not see who its bytes come from. -/
def OwnedLine.erase (r : OwnedLine) : ReadlineResult :=
  ⟨r.ret,r.line.map Prod.snd,r.nul,r.buffer.lb,r.rest⟩

/-- The line stored so far. -/
def Progress.line : Progress → List Byte
  | .more _ line | .done _ line _ => line

theorem readlineBody_line (n : Nat) (line : List Byte) (r : MyRead) (owner : Nat) :
    (readlineBody n line r).line = line ++ (stamp owner r).map Prod.snd := by
  cases r with
  | byte c =>
    simp only [readlineBody]
    split <;> rfl
  | eof | err => simp [readlineBody,Progress.line,stamp]

theorem erase_readlineLoopOn (conn : Nat) (b : OwnedBuffer) (es : List Arrival) (n : Nat)
    (line : List (Nat × Byte)) (k : Nat) :
    (readlineLoopOn conn b es n line k).erase =
      readlineLoop b.lb es n (line.map Prod.snd) k := by
  induction k generalizing b es n line with
  | zero => rfl
  | succ k ih =>
    simp only [readlineLoopOn,readlineLoop,myReadOn]
    split
    · rename_i m line' hbody
      rw [ih,List.map_append,← readlineBody_line n,hbody]
      rfl
    · rename_i ret line' nul hbody
      simp only [OwnedLine.erase,List.map_append]
      rw [← readlineBody_line n,hbody]
      rfl

theorem erase_readlineOn (conn maxlen : Nat) (b : OwnedBuffer) (es : List Arrival) :
    (readlineOn conn maxlen b es).erase = readline maxlen b.lb es :=
  erase_readlineLoopOn conn b es 1 [] (maxlen-1)

/-- All that the next calls on `conn` can still return. -/
def OwnedBuffer.pending (conn : Nat) (b : OwnedBuffer) (es : List Arrival) : List (Nat × Byte) :=
  b.lb.unread.map (Prod.mk b.owner) ++ (stream es).map (Prod.mk conn)

theorem OwnedBuffer.pending_self {conn : Nat} {b : OwnedBuffer} (h : b.lb.unread = [] ∨ b.owner = conn)
    (es : List Arrival) : b.pending conn es = (UnixNet.pending b.lb es).map (Prod.mk conn) := by
  unfold OwnedBuffer.pending UnixNet.pending
  rcases h with h | h
  · rw [h]
    rfl
  · rw [h,List.map_append]

/-- What `my_read` returns was the first of all that was pending. -/
theorem myReadOn_pending {conn : Nat} {b b' : OwnedBuffer} {es es' : List Arrival} {r : MyRead}
    (h : myReadOn conn b es = (r,b',es')) (hr : ∀ e, r ≠ .err e) :
    b.pending conn es = stamp b'.owner r ++ b'.pending conn es' := by
  have hy := myRead_yields b.lb es
  unfold myReadOn at h
  by_cases hcnt : b.lb.readCnt ≤ 0
  · have hself : b.pending conn es = (UnixNet.pending b.lb es).map (Prod.mk conn) :=
      OwnedBuffer.pending_self (.inl (LineBuffer.unread_empty hcnt)) es
    simp only [if_pos hcnt] at h
    rw [hself]
    generalize myRead b.lb es = m at hy h
    cases hy with
    | @byte c lb' es' hs _ =>
      cases h
      have hnext := OwnedBuffer.pending_self (b := ⟨lb',conn⟩) (.inr rfl) es'
      rw [hs]
      exact congrArg ((conn,c) :: ·) hnext.symm
    | @eof lb' hs hend =>
      cases h
      have hnext := OwnedBuffer.pending_self (b := ⟨lb',conn⟩) (.inr rfl) []
      rw [hs,hnext,UnixNet.pending,LineBuffer.unread_empty (Int.le_of_eq hend)]
      rfl
    | err => cases h; exact absurd rfl (hr _)
  · have hread : myRead b.lb es = (.byte (b.lb.readBuf b.lb.readPtr),b.lb.next,es) := if_neg hcnt
    rw [hread,if_neg hcnt] at h
    cases h
    unfold OwnedBuffer.pending
    rw [LineBuffer.unread_next (by omega)]
    rfl

theorem readlineLoopOn_pending {conn : Nat} {b : OwnedBuffer} {es : List Arrival} {n : Nat}
    {line : List (Nat × Byte)} {k : Nat} (hn : 0 < n)
    (h : (readlineLoopOn conn b es n line k).ret ≠ -1) :
    let r := readlineLoopOn conn b es n line k
    line ++ b.pending conn es = r.line ++ r.buffer.pending conn r.rest := by
  induction k generalizing b es n line with
  | zero => rfl
  | succ k ih =>
    revert h
    simp only [readlineLoopOn]
    generalize hread : myReadOn conn b es = m
    obtain ⟨r,b',es'⟩ := m
    intro h
    cases r with
    | byte c =>
      have hfirst := myReadOn_pending hread (by simp)
      simp only [readlineBody] at h ⊢
      by_cases hc : c = newline
      · simp [hc,hfirst]
      · simp only [hc,if_false] at h ⊢
        have hrest := ih (Nat.succ_pos n) h
        dsimp only at hrest
        rw [hfirst,← List.append_assoc,hrest]
    | eof =>
      have hfirst := myReadOn_pending hread (by simp)
      simp [readlineBody,hfirst]
    | err e => exact absurd rfl h

theorem readlineOn_pending {conn maxlen : Nat} {b : OwnedBuffer} {es : List Arrival}
    (h : (readlineOn conn maxlen b es).ret ≠ -1) : let r := readlineOn conn maxlen b es
    b.pending conn es = r.line ++ r.buffer.pending conn r.rest :=
  readlineLoopOn_pending Nat.one_pos h

/-- No line ends within the next `k` bytes, and there are that many. -/
def Overlong (k : Nat) (s : List Byte) : Prop := newline ∉ s.take k ∧ k ≤ s.length

instance decidableOverlong (k : Nat) (s : List Byte) : Decidable (Overlong k s) :=
  inferInstanceAs (Decidable (_ ∧ _))

theorem overlong_cons {k : Nat} {c : Byte} {s : List Byte} (hc : c ≠ newline) :
    Overlong (k+1) (c :: s) ↔ Overlong k s := by
  simp [Overlong,Ne.symm hc]

/-- `readline` returns the length of the line, but counts the NUL with it when the line is
cut off at `maxlen - 1` bytes. -/
theorem readlineLoop_length {lb : LineBuffer} {es : List Arrival} {n : Nat} {line : List Byte}
    {k : Nat} (hn : n = line.length + 1) (h : (readlineLoop lb es n line k).ret ≠ -1) :
    let r := readlineLoop lb es n line k
    r.nul = true ∧ r.ret = r.line.length + if Overlong k (pending lb es) then 1 else 0 := by
  induction k generalizing lb es n line with
  | zero => simp [readlineLoop,Overlong,hn]
  | succ k ih =>
    have hy := myRead_yields lb es
    revert h
    simp only [readlineLoop]
    generalize myRead lb es = m at hy
    intro h
    cases hy with
    | @byte c lb' es' hs _ =>
      rw [hs]
      by_cases hc : c = newline
      · simp [readlineBody,hc,hn,Overlong]
      · simp only [readlineBody,hc,if_false] at h ⊢
        simpa only [overlong_cons hc] using ih (by simp [hn]) h
    | eof hs _ =>
      rw [hs]
      simp [readlineBody,hn,Overlong]
    | err => exact absurd rfl h

def fromPeer (x : Nat × Byte) : Option Nat × Byte := (some x.1,x.2)

/-- What `Writen(sockfd, line, n)` sends of the array `line`. The NUL was not received. -/
def OwnedLine.sent (r : OwnedLine) : List (Option Nat × Byte) :=
  (r.line.map fromPeer ++ if r.nul then [(none,0)] else []).take r.ret.toNat

theorem sent_readlineOn {conn maxlen : Nat} {b : OwnedBuffer} {es : List Arrival}
    (h : (readlineOn conn maxlen b es).ret ≠ -1) : (readlineOn conn maxlen b es).sent =
      (readlineOn conn maxlen b es).line.map fromPeer ++
        if Overlong (maxlen-1) (pending b.lb es) then [(none,0)] else [] := by
  have herase := erase_readlineOn conn maxlen b es
  have hret : (readline maxlen b.lb es).ret = (readlineOn conn maxlen b es).ret :=
    (congrArg ReadlineResult.ret herase).symm
  have hlen : (readline maxlen b.lb es).line.length = (readlineOn conn maxlen b es).line.length := by
    rw [← herase]
    simp [OwnedLine.erase]
  have hnul : (readline maxlen b.lb es).nul = (readlineOn conn maxlen b es).nul :=
    (congrArg ReadlineResult.nul herase).symm
  have hspec : (readline maxlen b.lb es).nul = true ∧ (readline maxlen b.lb es).ret =
      (readline maxlen b.lb es).line.length +
        if Overlong (maxlen-1) (pending b.lb es) then 1 else 0 :=
    readlineLoop_length rfl (hret.trans_ne h)
  obtain ⟨hterm,hcount⟩ := hspec
  rw [hnul] at hterm
  rw [hret,hlen] at hcount
  unfold OwnedLine.sent
  rw [hterm,hcount,if_pos rfl]
  split
  · exact List.take_of_length_le (by simp)
  · rw [List.append_nil,List.take_append_of_le_length (by simp)]
    exact List.take_of_length_le (by simp)

inductive LinePc where
  | select : LinePc
  | accept : LinePc
  /-- Before pass `i` of the loop over the clients. -/
  | clients (i : Nat) : LinePc
  | exited (why : Exit) : LinePc
  deriving DecidableEq, Repr

/-- The connections are numbered in the order of their accepts: `conn` gives the one that an
open descriptor belongs to, and `rest` what the peer of each still sends. -/
structure LineServer where
  pc : LinePc
  client : Nat → Int
  maxi : Int
  maxfd : Int
  allset : Finset Int
  rset : Finset Int
  nready : Int
  buffer : OwnedBuffer
  conn : Int → Option Nat
  accepted : Nat
  rest : Nat → List Arrival
  /-- The bytes written, each block with the connection it was written to. -/
  log : List (Nat × List (Option Nat × Byte))

/-- `Select` returns; `Accept` returns or fails; the next pass of the loop over the clients, in which
`taken` bytes can be written. -/
inductive LineAct where
  | select (ready : Finset Int) : LineAct
  | accept (connfd : Option Int) : LineAct
  | next (taken : Nat) : LineAct
  deriving DecidableEq

namespace LineServer

/-- `if (--nready <= 0)` the next `Select`, else `pc`. -/
def countdown (s : LineServer) (pc : LinePc) : LineServer :=
  { s with nready := s.nready - 1, pc := if s.nready - 1 ≤ 0 then .select else pc }

def selectStep (listenfd : Int) (s : LineServer) (ready : Finset Int) : Option LineServer :=
  if s.pc = .select ∧ ready ⊆ s.allset ∧ (∀ fd ∈ ready, fd < s.maxfd + 1) ∧ ready ≠ ∅ then
    some { s with
      rset := ready
      nready := ready.card
      pc := if listenfd ∈ ready then .accept else .clients 0 }
  else none

/-- The new connection. `FD_SET` checks no bound. -/
def store (s : LineServer) (connfd : Int) : LineServer :=
  let i := Slots.search (fun i => s.client i < 0) 0 FD_SETSIZE
  let s := { s with
    conn := Function.update s.conn connfd (some s.accepted)
    accepted := s.accepted + 1 }
  if i = FD_SETSIZE then { s with pc := .exited (.errQuit "too many clients") }
  else
    let s := { s with client := Function.update s.client i connfd }
    if connfd < FD_SETSIZE then
      { s with
        allset := insert connfd s.allset
        maxfd := max s.maxfd connfd
        maxi := max s.maxi i }.countdown (.clients 0)
    else { s with pc := .exited .undefined }

/-- `Accept` gives a descriptor that is not open. -/
def acceptStep (listenfd : Int) (s : LineServer) (connfd : Option Int) : Option LineServer :=
  if s.pc = .accept then
    match connfd with
    | none => some { s with pc := .exited (.errSys "accept error") }
    | some connfd =>
      if 0 ≤ connfd ∧ connfd ≠ listenfd ∧ s.conn connfd = none then some (s.store connfd) else none
  else none

/-- `Close(sockfd); FD_CLR(sockfd, &allset); client[i] = -1;` -/
def drop (s : LineServer) (i : Nat) (sockfd : Int) : LineServer :=
  { s with
    client := Function.update s.client i (-1)
    allset := s.allset.erase sockfd
    conn := Function.update s.conn sockfd none }

/-- `Writen(sockfd, line, n)` to connection `c`. -/
def writen (s : LineServer) (i : Nat) (c : Nat) (sent : List (Option Nat × Byte)) (taken : Nat) :
    LineServer :=
  let s := { s with log := s.log ++ [(c,sent.take taken)] }
  if taken < sent.length then { s with pc := .exited (.errSys "writen error") }
  else s.countdown (.clients (i+1))

/-- The body of `if (FD_ISSET(sockfd, &rset))`. A descriptor that is not open fails `read`. -/
def serve (s : LineServer) (i : Nat) (sockfd : Int) (taken : Nat) : LineServer :=
  match s.conn sockfd with
  | none => { s with pc := .exited (.errSys "readline error") }
  | some c =>
    let r := readlineOn c MAXLINE s.buffer (s.rest c)
    let s := { s with buffer := r.buffer, rest := Function.update s.rest c r.rest }
    if r.ret < 0 then { s with pc := .exited (.errSys "readline error") }
    else if r.ret = 0 then (s.drop i sockfd).writen i c r.sent taken
    else s.writen i c r.sent taken

/-- One pass of `for (i = 0; i <= maxi; i++)`, or its end. -/
def nextStep (s : LineServer) (taken : Nat) : Option LineServer :=
  match s.pc with
  | .clients i =>
    if s.maxi < i then some { s with pc := .select }
    else if s.client i < 0 ∨ s.client i ∉ s.rset then some { s with pc := .clients (i+1) }
    else some (s.serve i (s.client i) taken)
  | _ => none

def step (listenfd : Int) (s : LineServer) : LineAct → Option LineServer
  | .select ready => s.selectStep listenfd ready
  | .accept connfd => s.acceptStep listenfd connfd
  | .next taken => s.nextStep taken

end LineServer

/-- `peer` is what each connection delivers. -/
def tcpServSelect03 (listenfd : Int) (peer : Nat → List Arrival) : Machine LineServer LineAct :=
  ⟨⟨.select,fun _ => -1,-1,listenfd,{listenfd},∅,0,⟨.init,0⟩,fun _ => none,0,peer,[]⟩,
    LineServer.step listenfd⟩

/-- Each byte was received on the connection it is written to. -/
def LineServer.Isolated (s : LineServer) : Prop :=
  ∀ w ∈ s.log, ∀ x ∈ w.2, x.1 = some w.1

instance LineServer.decidableIsolated (s : LineServer) : Decidable s.Isolated :=
  inferInstanceAs (Decidable (∀ w ∈ s.log, ∀ x ∈ w.2, x.1 = some w.1))

/-- The connection that the next step calls `Readline` for. -/
def LineServer.reads (s : LineServer) : LineAct → Option Nat
  | .next _ =>
    match s.pc with
    | .clients i =>
      if s.maxi < i ∨ s.client i < 0 ∨ s.client i ∉ s.rset then none else s.conn (s.client i)
    | _ => none
  | _ => none

/-- `Readline` for connection `c` finds an empty buffer or bytes of that connection, and a line
that is not too long. -/
def LineServer.Clean (s : LineServer) (c : Nat) : Prop :=
  (s.buffer.lb.unread = [] ∨ s.buffer.owner = c) ∧
    ¬ Overlong (MAXLINE-1) (pending s.buffer.lb (s.rest c))

instance LineServer.decidableClean (s : LineServer) (c : Nat) : Decidable (s.Clean c) :=
  inferInstanceAs (Decidable (_ ∧ _))

def LinePc.running : LinePc → Bool
  | .exited _ => false
  | _ => true

namespace LineServer
variable {listenfd : Int} {peer : Nat → List Arrival} {s t : LineServer}

theorem writen_log (i c : Nat) (sent : List (Option Nat × Byte)) (taken : Nat) :
    (s.writen i c sent taken).log = s.log ++ [(c,sent.take taken)] ∧
      ((s.writen i c sent taken).pc.running → sent.length ≤ taken) := by
  unfold writen
  dsimp only
  split
  · exact ⟨rfl,nofun⟩
  · rename_i htaken
    exact ⟨rfl,fun _ => Nat.le_of_not_lt htaken⟩

/-- `Readline` fails and ends the process, or what it returned is written to the same client. -/
theorem serve_cases {i c taken : Nat} {sockfd : Int} (hc : s.conn sockfd = some c)
    (ht : s.serve i sockfd taken = t) :
    t.log = s.log ∧ t.pc.running = false ∨
      let r := readlineOn c MAXLINE s.buffer (s.rest c)
      r.ret ≠ -1 ∧ t.log = s.log ++ [(c,r.sent.take taken)] ∧
        (t.pc.running → r.sent.length ≤ taken) := by
  unfold serve at ht
  rw [hc] at ht
  dsimp only at ht
  split at ht
  · subst ht
    exact .inl ⟨rfl,rfl⟩
  · rename_i hret
    refine .inr ⟨fun hneg => hret (by rw [hneg]; decide),?_⟩
    split at ht <;> subst ht <;> exact writen_log _ _ _ _

theorem store_log (s : LineServer) (connfd : Int) : (s.store connfd).log = s.log := by
  unfold store
  dsimp only
  split
  · rfl
  · split <;> rfl

theorem step_quiet {a : LineAct} (hr : s.reads a = none) (ht : s.step listenfd a = some t) :
    t.log = s.log := by
  cases a with
  | select ready =>
    simp only [step,selectStep] at ht
    split at ht <;> cases ht
    rfl
  | accept connfd =>
    simp only [step,acceptStep] at ht
    split at ht
    · split at ht
      · cases ht
        rfl
      · split at ht <;> cases ht
        exact store_log s _
    · cases ht
  | next taken =>
    simp only [step,nextStep] at ht
    split at ht
    · rename_i i hpc
      split at ht
      · cases ht
        rfl
      · split at ht
        · cases ht
          rfl
        · rename_i hmaxi hhot
          have hconn : s.conn (s.client i) = none := by simpa [reads,hpc,hmaxi,hhot] using hr
          cases ht
          simp [serve,hconn]
    · cases ht

theorem step_reads {a : LineAct} {c : Nat} (hr : s.reads a = some c)
    (ht : s.step listenfd a = some t) :
    ∃ i taken, s.conn (s.client i) = some c ∧ s.serve i (s.client i) taken = t := by
  cases a with
  | select | accept => cases hr
  | next taken =>
    simp only [step,nextStep] at ht
    split at ht
    · rename_i i hpc
      simp only [reads,hpc] at hr
      split at hr
      · cases hr
      · rename_i hhot
        obtain ⟨hmaxi,hhot⟩ := not_or.mp hhot
        rw [if_neg hmaxi,if_neg hhot] at ht
        cases ht
        exact ⟨i,taken,hr,rfl⟩
    · cases ht

theorem clean_sent {c : Nat} (h : s.Clean c)
    (hret : (readlineOn c MAXLINE s.buffer (s.rest c)).ret ≠ -1) :
    ∀ x ∈ (readlineOn c MAXLINE s.buffer (s.rest c)).sent, x.1 = some c := by
  obtain ⟨hown,hshort⟩ := h
  have hpending := readlineOn_pending hret
  dsimp only at hpending
  rw [OwnedBuffer.pending_self hown] at hpending
  rw [sent_readlineOn hret,if_neg hshort,List.append_nil]
  intro x hx
  obtain ⟨y,hy,rfl⟩ := List.mem_map.mp hx
  have hmem : y ∈ (pending s.buffer.lb (s.rest c)).map (Prod.mk c) := by
    rw [hpending]
    exact List.mem_append_left _ hy
  obtain ⟨b,_,rfl⟩ := List.mem_map.mp hmem
  rfl

theorem owner_mem_line {c : Nat} (hbuf : s.buffer.lb.unread ≠ [])
    (hret : (readlineOn c MAXLINE s.buffer (s.rest c)).ret ≠ -1) :
    ∃ b, (s.buffer.owner,b) ∈ (readlineOn c MAXLINE s.buffer (s.rest c)).line := by
  obtain ⟨b,bs,hunread⟩ := List.exists_cons_of_ne_nil hbuf
  have hpending := readlineOn_pending hret
  dsimp only at hpending
  have hfirst : s.buffer.pending c (s.rest c) = (s.buffer.owner,b) ::
      (bs.map (Prod.mk s.buffer.owner) ++ (stream (s.rest c)).map (Prod.mk c)) := by
    rw [OwnedBuffer.pending,hunread]
    rfl
  have herase := erase_readlineOn c MAXLINE s.buffer (s.rest c)
  have hline : (readlineOn c MAXLINE s.buffer (s.rest c)).line ≠ [] := by
    intro hnil
    have hspec := readlineLoop_spec s.buffer.lb (s.rest c) 1 [] (MAXLINE-1) Nat.one_pos
    rw [← readline,← herase] at hspec
    have hunit := (hspec hret).1
    rw [UnixNet.pending,hunread,OwnedLine.erase,hnil] at hunit
    exact absurd hunit (List.cons_ne_nil _ _).symm
  obtain ⟨x,xs,hcons⟩ := List.exists_cons_of_ne_nil hline
  rw [hfirst,hcons,List.cons_append] at hpending
  obtain ⟨hx,_⟩ := List.cons.inj hpending
  exact ⟨b,by rw [hcons,hx]; exact List.mem_cons_self⟩

/-- What is not received from `c` gets written to it when `Readline` is not clean. -/
theorem unclean_sent {c : Nat} (h : ¬ s.Clean c)
    (hret : (readlineOn c MAXLINE s.buffer (s.rest c)).ret ≠ -1) :
    ∃ x ∈ (readlineOn c MAXLINE s.buffer (s.rest c)).sent, x.1 ≠ some c := by
  rw [sent_readlineOn hret]
  by_cases hlong : Overlong (MAXLINE-1) (pending s.buffer.lb (s.rest c))
  · rw [if_pos hlong]
    exact ⟨(none,0),by simp,nofun⟩
  · have hforeign : ¬ (s.buffer.lb.unread = [] ∨ s.buffer.owner = c) := fun hown => h ⟨hown,hlong⟩
    obtain ⟨hbuf,hne⟩ := not_or.mp hforeign
    obtain ⟨b,hb⟩ := owner_mem_line hbuf hret
    refine ⟨fromPeer (s.buffer.owner,b),List.mem_append_left _ (List.mem_map_of_mem hb),?_⟩
    exact fun heq => hne (Option.some.inj heq)

/-- All the `Readline`s of a run are clean. -/
def AllClean (l : List (LineServer × LineAct)) : Prop :=
  ∀ x ∈ l, ∀ c ∈ x.1.reads x.2, x.1.Clean c

instance decidableAllClean (l : List (LineServer × LineAct)) : Decidable (AllClean l) :=
  inferInstanceAs (Decidable (∀ x ∈ l, ∀ c ∈ x.1.reads x.2, x.1.Clean c))

theorem isolated_append {w : Nat × List (Option Nat × Byte)} (hlog : t.log = s.log ++ [w]) :
    t.Isolated ↔ s.Isolated ∧ ∀ x ∈ w.2, x.1 = some w.1 := by
  unfold Isolated
  rw [hlog,List.forall_mem_append,List.forall_mem_singleton]

theorem allClean_append {l : List (LineServer × LineAct)} {a : LineAct} :
    AllClean (l ++ [(s,a)]) ↔ AllClean l ∧ ∀ c ∈ s.reads a, s.Clean c := by
  unfold AllClean
  rw [List.forall_mem_append,List.forall_mem_singleton]

theorem running_of_step {a : LineAct} (ht : s.step listenfd a = some t) : s.pc.running := by
  cases hpc : s.pc with
  | exited why => cases a <;> simp [step,selectStep,acceptStep,nextStep,hpc] at ht
  | select | accept | clients i => rfl

theorem step_isolated {a : LineAct} (ht : s.step listenfd a = some t) :
    ((∀ c ∈ s.reads a, s.Clean c) → s.Isolated → t.Isolated) ∧
      (t.Isolated → s.Isolated ∧ (t.pc.running → ∀ c ∈ s.reads a, s.Clean c)) := by
  cases hr : s.reads a with
  | none =>
    have hlog := step_quiet hr ht
    have hiff : t.Isolated ↔ s.Isolated := by
      unfold Isolated
      rw [hlog]
    exact ⟨fun _ => hiff.mpr,fun h => ⟨hiff.mp h,by simp⟩⟩
  | some c =>
    obtain ⟨i,taken,hc,hserve⟩ := step_reads hr ht
    simp only [Option.mem_def,Option.some.injEq,forall_eq']
    rcases serve_cases hc hserve with ⟨hlog,hstop⟩ | ⟨hret,hlog,htaken⟩
    · have hiff : t.Isolated ↔ s.Isolated := by
        unfold Isolated
        rw [hlog]
      exact ⟨fun _ => hiff.mpr,fun h => ⟨hiff.mp h,fun hrun => by simp [hstop] at hrun⟩⟩
    · rw [isolated_append hlog]
      refine ⟨fun hclean hs => ⟨hs,fun x hx => ?_⟩,fun h => ⟨h.1,fun hrun => ?_⟩⟩
      · exact clean_sent hclean hret x (List.mem_of_mem_take hx)
      · have hown := h.2
        by_contra hclean
        obtain ⟨x,hx,hne⟩ := unclean_sent hclean hret
        rw [List.take_of_length_le (htaken hrun)] at hown
        exact hne (hown x hx)

end LineServer

/-- The clients are isolated in a run whose `Readline`s are all clean, and in no other run as
long as the process goes on. -/
theorem tcpServSelect03_isolated (listenfd : Int) (peer : Nat → List Arrival) (acts : List LineAct)
    (p : LineServer)
    (h : (tcpServSelect03 listenfd peer).run (tcpServSelect03 listenfd peer).init acts = some p) :
    let l := (tcpServSelect03 listenfd peer).trace (tcpServSelect03 listenfd peer).init acts
    (LineServer.AllClean l → p.Isolated) ∧
      (p.pc.running → p.Isolated → LineServer.AllClean l) := by
  refine Machine.trace_invariant (m := tcpServSelect03 listenfd peer)
    (I := fun l p => (LineServer.AllClean l → p.Isolated) ∧
      (p.pc.running → p.Isolated → LineServer.AllClean l)) ?_ ?_ h
  · exact ⟨fun _ => List.forall_mem_nil _,fun _ _ => List.forall_mem_nil _⟩
  rintro l s a t ⟨hclean,hiso⟩ ht
  obtain ⟨hkeep,hback⟩ := LineServer.step_isolated ht
  rw [LineServer.allClean_append]
  refine ⟨fun ⟨hl,ha⟩ => hkeep ha (hclean hl),fun hup ht' => ?_⟩
  obtain ⟨hs,ha⟩ := hback ht'
  exact ⟨hiso (LineServer.running_of_step ht) hs,ha hup⟩

/-- Two clients take turns, each with a chunk that is one line. -/
theorem tcpServSelect03_isolated_turns :
    let peer := fun c : Nat => if c = 0 then [.data 97 [10],.data 98 [10]] else [.data 99 [10]]
    let acts := [.select {3},.accept (some 4),.select {3},.accept (some 5),.select {4,5},
      .next 9,.next 9,.select {4},.next 9]
    ∃ p, (tcpServSelect03 3 peer).run (tcpServSelect03 3 peer).init acts = some p ∧
      p.log.length = 3 ∧ p.Isolated := by
  intro peer acts
  have hrun : ((tcpServSelect03 3 peer).run (tcpServSelect03 3 peer).init acts).map
      (fun p => p.log.length) = some 3 := by decide +kernel
  obtain ⟨p,hp,hlog⟩ := Option.map_eq_some_iff.mp hrun
  exact ⟨p,hp,hlog,(tcpServSelect03_isolated 3 peer acts p hp).1 (by decide +kernel)⟩

/-- The first client sends two lines in one chunk; the second of them goes to the second
client. -/
theorem tcpServSelect03_not_isolated : ¬ ∀ (listenfd : Int) (peer : Nat → List Arrival)
    (acts : List LineAct) (p : LineServer), (tcpServSelect03 listenfd peer).run
      (tcpServSelect03 listenfd peer).init acts = some p → p.Isolated := by
  intro h
  let peer : Nat → List Arrival := fun c =>
    if c = 0 then [.data 97 [10,98,10]] else [.data 99 [10]]
  let acts : List LineAct := [.select {3},.accept (some 4),.select {3},.accept (some 5),
    .select {4},.next 9,.select {5},.next 9,.next 9]
  have hrun : ((tcpServSelect03 3 peer).run (tcpServSelect03 3 peer).init acts).map
      (fun p => decide p.Isolated) = some false := by decide +kernel
  obtain ⟨p,hp,hiso⟩ := Option.map_eq_some_iff.mp hrun
  exact of_decide_eq_false hiso (h 3 peer acts p hp)

end UnixNet
