import UnixNet.Library.Watchdog
set_option autoImplicit false

/-!
The heartbeat of the echo client and server: `heartbeat_cli` and `heartbeat_serv` with their
handlers of SIGALRM and SIGURG. The client's timer sends a byte of urgent data, the server
returns it, and each side leaves when its timer goes off too often with no urgent data between.
-/

namespace UnixNet.Heartbeat
open Watchdog

/-! ## One side -/

/-- What `heartbeat_cli` and `heartbeat_serv` set `maxnprobes` and `maxnalarms` to. -/
def maxnprobes (nsec_arg maxnprobes_arg : Int) : Int :=
  let nsec := if nsec_arg < 1 then 1 else nsec_arg
  if maxnprobes_arg < nsec then nsec else maxnprobes_arg

theorem one_le_maxnprobes (nsec_arg maxnprobes_arg : Int) :
    1 ≤ maxnprobes nsec_arg maxnprobes_arg := by
  unfold maxnprobes
  grind

/-- Both below `INT_MAX`, for otherwise `++nprobes` overflows before it exceeds the limit. -/
structure Args where
  nsec_arg : Int
  max_arg : Int
  small : nsec_arg < 2147483647 ∧ max_arg < 2147483647

def Args.limit (args : Args) : Nat := (maxnprobes args.nsec_arg args.max_arg).toNat

theorem Args.one_le_limit (args : Args) : 1 ≤ args.limit := by
  have h := one_le_maxnprobes args.nsec_arg args.max_arg
  unfold limit
  omega

theorem Args.limit_lt (args : Args) : args.limit < 2147483647 := by
  obtain ⟨hnsec,hmax⟩ := args.small
  unfold limit maxnprobes
  grind

/-- The arguments in `str_cli` and in `str_echo`. -/
def callArgs : Args := ⟨1,5,by decide⟩

/-- The handlers that are under way. `Signal` blocks no other signal, so that one may
interrupt the other; `sig_alrm` has read `nprobes` and not yet written it back. -/
inductive Handlers
  | none
  | alrm (loaded : Nat)
  | urg
  | alrmInUrg (loaded : Nat)
  | urgInAlrm (loaded : Nat)
  deriving DecidableEq, Repr

def Handlers.loaded : Handlers → Option Nat
  | .none | .urg => .none
  | .alrm n | .alrmInUrg n | .urgInAlrm n => some n

/-- Whether an assignment of `sig_urg` is still to clear the count. -/
def Handlers.clearing : Handlers → Nat
  | .urg | .alrmInUrg _ => 1
  | _ => 0

structure Side where
  nprobes : Nat
  armed : Bool
  handlers : Handlers
  life : Life
  deriving DecidableEq, Repr

inductive Move
  /-- SIGALRM; `++nprobes` reads the counter -/
  | sigAlrm
  /-- `++nprobes` writes it back, and the rest of `sig_alrm` -/
  | counted
  /-- SIGURG, for this many of the bytes that were sent; `sig_urg` up to its assignment -/
  | sigUrg (k : Nat)
  /-- `nprobes = 0`, and the end of `sig_urg` -/
  | cleared
  /-- the client's `alarm(0)` at the end of its input -/
  | alarmOff
  /-- any other end of the process -/
  | ends
  deriving DecidableEq, Repr

namespace Side

def start : Side := ⟨0,true,.none,.running⟩

def count (limit n : Nat) (handlers : Handlers) : Side :=
  if limit < n+1 then ⟨n+1,false,handlers,.gaveUp⟩ else ⟨n+1,true,handlers,.running⟩

theorem count_of_lt {limit n : Nat} (h : n < limit) (handlers : Handlers) :
    count limit n handlers = ⟨n+1,true,handlers,.running⟩ := if_neg (Nat.not_lt.mpr h)

theorem count_of_le {limit n : Nat} (h : limit ≤ n) (handlers : Handlers) :
    count limit n handlers = ⟨n+1,false,handlers,.gaveUp⟩ := if_pos (Nat.lt_succ_of_le h)

def move (limit : Nat) (w : Side) : Move → Option Side
  | .sigAlrm =>
    if w.armed = true then
      match w.handlers with
      | .none => some { w with armed := false, handlers := .alrm w.nprobes }
      | .urg => some { w with armed := false, handlers := .alrmInUrg w.nprobes }
      | _ => none
    else none
  | .counted =>
    match w.handlers with
    | .alrm n => some (count limit n .none)
    | .alrmInUrg n => some (count limit n .urg)
    | _ => none
  | .sigUrg _ =>
    match w.handlers with
    | .none => some { w with handlers := .urg }
    | .alrm n => some { w with handlers := .urgInAlrm n }
    | _ => none
  | .cleared =>
    match w.handlers with
    | .urg => some { w with nprobes := 0, handlers := .none }
    | .urgInAlrm n => some { w with nprobes := 0, handlers := .alrm n }
    | _ => none
  | .alarmOff => if w.handlers = .none then some { w with armed := false } else none
  | .ends => some { w with life := .ended }

def step (limit : Nat) (w : Side) (m : Move) : Option Side :=
  if w.life = .running then w.move limit m else none

/-- The count that the next `++nprobes` to be written back starts from. -/
def value (w : Side) : Nat := w.handlers.loaded.getD w.nprobes

/-- What a move is to the watchdog. Between the read and the write of `++nprobes` the
assignment of `sig_urg` is lost. -/
def kind (w : Side) : Move → Kind
  | .counted => .tick
  | .cleared => if w.handlers.loaded = none then .reset else .other
  | _ => .other

theorem step_eq_some {limit : Nat} {w w' : Side} {m : Move} :
    w.step limit m = some w' ↔ w.life = .running ∧ w.move limit m = some w' := by
  simp [step]

end Side

/-! ## The two sides -/

/-- `toServer` and `toClient` are the bytes of urgent data sent that no SIGURG has told of. -/
structure St where
  client : Side
  server : Side
  toServer : Nat
  toClient : Nat
  deriving DecidableEq, Repr

inductive Act
  | client (m : Move)
  | server (m : Move)
  deriving DecidableEq, Repr

/-- One SIGURG may stand for several bytes. -/
def received (pending : Nat) : Move → Option Nat
  | .sigUrg k => if 1 ≤ k ∧ k ≤ pending then some (pending - k) else none
  | _ => some pending

/-- `Send` in the client's `sig_alrm`, which comes after its test. -/
def probes (w : Side) : Move → Nat
  | .counted => if w.life = .running then 1 else 0
  | _ => 0

/-- `Send` in the server's `sig_urg`. -/
def echoes : Move → Nat
  | .sigUrg _ => 1
  | _ => 0

def St.step (cli serv : Args) (s : St) : Act → Option St
  | .client m =>
    (s.client.step cli.limit m).bind fun w => (received s.toClient m).map fun n =>
      { s with client := w, toClient := n, toServer := s.toServer + probes w m }
  | .server m =>
    -- the server has no `alarm(0)`
    if m = .alarmOff then none else
      (s.server.step serv.limit m).bind fun w => (received s.toServer m).map fun n =>
        { s with server := w, toServer := n, toClient := s.toClient + echoes m }

/-- The client calls `heartbeat_cli` with `cli`, the server `heartbeat_serv` with `serv`. -/
def heartbeat (cli serv : Args) : Machine St Act := ⟨⟨.start,.start,0,0⟩,St.step cli serv⟩

theorem step_client {cli serv : Args} {s t : St} {m : Move}
    (h : (heartbeat cli serv).step s (.client m) = some t) :
    s.client.step cli.limit m = some t.client ∧ received s.toClient m = some t.toClient ∧
      t.server = s.server ∧ t.toServer = s.toServer + probes t.client m := by
  obtain ⟨w,hw,h⟩ := Option.bind_eq_some_iff.mp h
  obtain ⟨n,hn,rfl⟩ := Option.map_eq_some_iff.mp h
  exact ⟨hw,hn,rfl,rfl⟩

theorem step_server {cli serv : Args} {s t : St} {m : Move}
    (h : (heartbeat cli serv).step s (.server m) = some t) :
    m ≠ .alarmOff ∧ s.server.step serv.limit m = some t.server ∧
      received s.toServer m = some t.toServer ∧
      t.client = s.client ∧ t.toClient = s.toClient + echoes m := by
  have hstep : (if m = .alarmOff then none else
      (s.server.step serv.limit m).bind fun w => (received s.toServer m).map fun n =>
        { s with server := w, toServer := n, toClient := s.toClient + echoes m }) = some t := h
  by_cases hm : m = .alarmOff
  · rw [if_pos hm] at hstep
    cases hstep
  · rw [if_neg hm] at hstep
    obtain ⟨w,hw,hrest⟩ := Option.bind_eq_some_iff.mp hstep
    obtain ⟨n,hn,rfl⟩ := Option.map_eq_some_iff.mp hrest
    exact ⟨hm,hw,hn,rfl,rfl⟩

/-! ## When a side gives up -/

def clientKind (e : St × Act) : Kind :=
  match e.2 with
  | .client m => e.1.client.kind m
  | .server _ => .other

def serverKind (e : St × Act) : Kind :=
  match e.2 with
  | .server m => e.1.server.kind m
  | .client _ => .other

section Counting
variable {α : Type*} {kind : α → Kind} {limit : Nat} {w w' : Side} {l : List α} {x : α}

theorem Side.move_cases {m : Move} (h : w.move limit m = some w') :
    (m = .counted ∧ ∃ n handlers, w.handlers.loaded = some n ∧ handlers.loaded = none ∧
      handlers.clearing = w.handlers.clearing ∧ w' = count limit n handlers) ∨
    (m = .cleared ∧ w.handlers = .urg ∧ w' = { w with nprobes := 0, handlers := .none }) ∨
    (w.kind m = .other ∧ m ≠ .counted ∧ w'.value = w.value ∧
      (w'.life = w.life ∨ w'.life = .ended) ∧
      w'.handlers.clearing ≤ w.handlers.clearing + echoes m) := by
  obtain ⟨nprobes,armed,handlers,life⟩ := w
  cases m with
  | sigAlrm =>
    cases armed <;> cases handlers <;> simp [move] at h <;> subst h <;>
      exact .inr (.inr ⟨rfl,nofun,rfl,.inl rfl,Nat.le_refl _⟩)
  | counted =>
    cases handlers <;> simp [move] at h <;> subst h
    · exact .inl ⟨rfl,_,.none,rfl,rfl,rfl,rfl⟩
    · exact .inl ⟨rfl,_,.urg,rfl,rfl,rfl,rfl⟩
  | sigUrg k =>
    cases handlers <;> simp [move] at h <;> subst h
    · exact .inr (.inr ⟨rfl,nofun,rfl,.inl rfl,Nat.le_refl _⟩)
    · exact .inr (.inr ⟨rfl,nofun,rfl,.inl rfl,Nat.zero_le _⟩)
  | cleared =>
    cases handlers <;> simp [move] at h <;> subst h
    · exact .inr (.inl ⟨rfl,rfl,rfl⟩)
    · exact .inr (.inr ⟨rfl,nofun,rfl,.inl rfl,Nat.le_refl _⟩)
  | alarmOff =>
    obtain ⟨-,h⟩ := Option.ite_none_right_eq_some.mp h
    cases h
    exact .inr (.inr ⟨rfl,nofun,rfl,.inl rfl,Nat.le_refl _⟩)
  | ends =>
    cases h
    exact .inr (.inr ⟨rfl,nofun,rfl,.inr rfl,Nat.le_refl _⟩)

theorem Side.step_watched {m : Move} (h : Watched kind limit w.value w.life l)
    (hx : kind x = w.kind m) (hstep : w.step limit m = some w') :
    Watched kind limit w'.value w'.life (l ++ [x]) := by
  obtain ⟨hrun,hmove⟩ := step_eq_some.mp hstep
  rw [hrun] at h
  rcases move_cases hmove with ⟨rfl,n,handlers,hn,hnone,-,rfl⟩ | ⟨rfl,hurg,rfl⟩ |
    ⟨hother,-,hvalue,hlife,-⟩
  · have hcount := h.tick hx
    have hv : w.value = n := by rw [value,hn]; rfl
    rw [hv] at hcount
    have hnext : (count limit n handlers).value = n+1 ∧
        (count limit n handlers).life = if limit < n+1 then .gaveUp else .running := by
      unfold count
      split <;> simp [value,hnone]
    rw [hnext.1,hnext.2]
    exact hcount
  · have hreset : kind x = .reset := by
      rw [hx]
      simp [Side.kind,hurg,Handlers.loaded]
    have hlife : w.life = .running := hrun
    simpa [value,Handlers.loaded,hlife] using h.reset hreset
  · have hnext := h.other (hx.trans hother)
    rw [hvalue]
    rcases hlife with hlife | hlife <;> rw [hlife]
    · rw [hrun]
      exact hnext
    · exact hnext.ends

theorem Side.step_running {m : Move} (h : w.step limit m = some w') :
    w.life = .running := (step_eq_some.mp h).1

end Counting

theorem heartbeat_watched {cli serv : Args} {as : List Act} {s : St}
    (h : (heartbeat cli serv).run (heartbeat cli serv).init as = some s) :
    Watched clientKind cli.limit s.client.value s.client.life
        ((heartbeat cli serv).trace (heartbeat cli serv).init as) ∧
      Watched serverKind serv.limit s.server.value s.server.life
        ((heartbeat cli serv).trace (heartbeat cli serv).init as) := by
  refine Machine.trace_invariant (I := fun l s =>
    Watched clientKind cli.limit s.client.value s.client.life l ∧
      Watched serverKind serv.limit s.server.value s.server.life l)
    ⟨watched_nil _,watched_nil _⟩ ?_ h
  rintro l s (m | m) t ⟨hclient,hserver⟩ hstep
  · obtain ⟨hside,-,hsame,-⟩ := step_client hstep
    rw [hsame]
    exact ⟨Side.step_watched hclient rfl hside,hserver.other rfl⟩
  · obtain ⟨-,hside,-,hsame,-⟩ := step_server hstep
    rw [hsame]
    exact ⟨hclient.other rfl,Side.step_watched hserver rfl hside⟩

/-- `++nprobes` does not overflow. -/
theorem nprobes_fits {cli serv : Args} {as : List Act} {s : St}
    (h : (heartbeat cli serv).run (heartbeat cli serv).init as = some s) :
    (s.client.life = .running → s.client.value + 1 ≤ 2147483647) ∧
      (s.server.life = .running → s.server.value + 1 ≤ 2147483647) := by
  obtain ⟨hclient,hserver⟩ := heartbeat_watched h
  have hcli := cli.limit_lt
  have hserv := serv.limit_lt
  constructor
  · intro hrun
    have hle := (hclient.counts hrun).2
    omega
  · intro hrun
    have hle := (hserver.counts hrun).2
    omega

/-- A side leaves just when its `sig_alrm` has counted once more than its limit with no
assignment of `sig_urg` between, apart from those that the handler's own write undoes. -/
theorem heartbeat_gaveUp_iff (cli serv : Args) {as : List Act} {s : St}
    (h : (heartbeat cli serv).run (heartbeat cli serv).init as = some s) :
    (s.client.life = .gaveUp ↔ Expired clientKind cli.limit
        ((heartbeat cli serv).trace (heartbeat cli serv).init as)) ∧
      (s.server.life = .gaveUp ↔ Expired serverKind serv.limit
        ((heartbeat cli serv).trace (heartbeat cli serv).init as)) := by
  obtain ⟨hclient,hserver⟩ := heartbeat_watched h
  exact ⟨hclient.gaveUp_iff,hserver.gaveUp_iff⟩

theorem heartbeat_gaveUp_iff_alone :
    Expired clientKind 5 ((heartbeat callArgs callArgs).trace (heartbeat callArgs callArgs).init
      (List.replicate 6 [.client .sigAlrm,.client .counted]).flatten) :=
  (heartbeat_gaveUp_iff callArgs callArgs (s := ⟨⟨6,false,.none,.gaveUp⟩,.start,5,0⟩) rfl).1.mp rfl

/-! ## A heartbeat that is answered -/

/-- The server answers the probe; SIGURG comes when `sig_alrm` has read the counter. -/
def answered : List Act :=
  [.server (.sigUrg 1),.server .cleared,.client .sigAlrm,.client (.sigUrg 1),.client .cleared,
    .client .counted]

def probed (n : Nat) : St := ⟨⟨n,true,.none,.running⟩,.start,1,0⟩

theorem run_answered {cli serv : Args} {n : Nat} (h : n < cli.limit) :
    (heartbeat cli serv).run (probed n) answered = some (probed (n+1)) := by
  simp [answered,probed,Machine.run,heartbeat,St.step,Side.step,Side.move,Side.start,
    Side.count_of_lt h,received,probes,echoes]

theorem run_rounds {cli serv : Args} {n k : Nat} (h : n + k ≤ cli.limit) :
    (heartbeat cli serv).run (probed n) (List.replicate k answered).flatten =
      some (probed (n+k)) := by
  induction k generalizing n with
  | zero => rfl
  | succ k ih =>
    rw [List.replicate_succ,List.flatten_cons,Machine.run_append,run_answered (by omega),
      Option.bind_some,ih (by omega),Nat.add_right_comm]
    rfl

/-- With any arguments the client can leave although each of its probes is answered and each
answer reaches `sig_urg` before the count that follows it. -/
theorem answered_gives_up (cli serv : Args) :
    ∃ s, (heartbeat cli serv).run (heartbeat cli serv).init
        ([.client .sigAlrm,.client .counted] ++ (List.replicate cli.limit answered).flatten) =
          some s ∧
      s.client.life = .gaveUp ∧ s.server.life = .running ∧ s.toServer = 0 ∧ s.toClient = 0 := by
  obtain ⟨k,hk⟩ : ∃ k, cli.limit = k+1 := Nat.exists_eq_add_of_le' cli.one_le_limit
  have hfirst : (heartbeat cli serv).run (heartbeat cli serv).init
      [.client .sigAlrm,.client .counted] = some (probed 1) := by
    simp [probed,Machine.run,heartbeat,St.step,Side.step,Side.move,Side.start,
      Side.count_of_lt cli.one_le_limit,received,probes]
  have hlast : (heartbeat cli serv).run (probed (k+1)) answered =
      some ⟨⟨k+2,false,.none,.gaveUp⟩,.start,0,0⟩ := by
    simp [answered,probed,Machine.run,heartbeat,St.step,Side.step,Side.move,Side.start,
      Side.count_of_le (Nat.le_of_eq hk),received,probes,echoes]
  refine ⟨⟨⟨k+2,false,.none,.gaveUp⟩,.start,0,0⟩,?_,rfl,rfl,rfl,rfl⟩
  rw [Machine.run_append,hfirst,Option.bind_some,hk,List.replicate_succ',List.flatten_append,
    Machine.run_append,run_rounds (by omega),Option.bind_some,Nat.add_comm 1 k]
  simpa using hlast

/-! ## A peer that is silent -/

theorem received_le {pending n : Nat} {m : Move} (h : received pending m = some n) :
    n + echoes m ≤ pending := by
  cases m with
  | sigUrg k =>
    obtain ⟨⟨hpos,hle⟩,h⟩ := Option.ite_none_right_eq_some.mp h
    cases h
    simp only [echoes]
    omega
  | _ =>
    cases h
    exact Nat.le_refl _

namespace Side
variable {limit pending n : Nat} {w w' : Side} {m : Move}

/-- The counts that are left before the side leaves, and one more. -/
def rank (limit pending : Nat) (w : Side) : Nat :=
  if w.life = .running then (pending + w.handlers.clearing) * limit + (limit - w.value) + 1 else 0

theorem step_rank (hle : w.value ≤ limit) (hstep : w.step limit m = some w')
    (hn : received pending m = some n) :
    (if m = .counted then 1 else 0) + w'.rank limit n ≤ w.rank limit pending := by
  obtain ⟨hrun,hmove⟩ := step_eq_some.mp hstep
  have hpending := received_le hn
  rw [rank,rank,if_pos hrun]
  rcases move_cases hmove with ⟨rfl,k,handlers,hk,hnone,hclear,rfl⟩ | ⟨rfl,hurg,rfl⟩ |
    ⟨-,hm,hvalue,hlife,hclear⟩
  · have hv : w.value = k := by rw [value,hk]; rfl
    cases hn
    by_cases hover : limit ≤ k
    · rw [count_of_le hover,if_pos rfl,if_neg nofun]
      omega
    · have hlt : k < limit := Nat.not_le.mp hover
      have hnext : (⟨k+1,true,handlers,.running⟩ : Side).value = k+1 := by simp [value,hnone]
      rw [count_of_lt hlt,if_pos rfl,if_pos rfl,hclear,hv,hnext]
      omega
  · cases hn
    have hv : ({ w with nprobes := 0, handlers := .none } : Side).value = 0 := rfl
    rw [if_neg nofun,if_pos hrun,hv,hurg]
    simp only [Handlers.clearing,Nat.add_zero,Nat.add_mul,Nat.one_mul]
    omega
  · rw [if_neg hm,hvalue]
    rcases hlife with hlife | hlife
    · rw [hlife,if_pos hrun]
      have hmul : (n + w'.handlers.clearing) * limit ≤
          (pending + w.handlers.clearing) * limit := Nat.mul_le_mul_right limit (by omega)
      omega
    · rw [hlife,if_neg nofun]
      omega

/-- The side sends no probe any more: it has left, or its timer is off. -/
def Silent (w : Side) : Prop :=
  w.life = .running → w.armed = false ∧ w.handlers.loaded = none

theorem Silent.step (h : w.Silent) (hstep : w.step limit m = some w') :
    m ≠ .counted ∧ w'.Silent := by
  obtain ⟨hrun,hmove⟩ := step_eq_some.mp hstep
  obtain ⟨harmed,hloaded⟩ := h hrun
  obtain ⟨nprobes,armed,handlers,life⟩ := w
  cases harmed
  cases m with
  | sigAlrm => simp [move] at hmove
  | counted => cases handlers <;> simp [move,Handlers.loaded] at hmove hloaded
  | sigUrg k =>
    refine ⟨nofun,fun _ => ?_⟩
    cases handlers <;> simp [move,Handlers.loaded] at hmove hloaded
    subst hmove
    exact ⟨rfl,rfl⟩
  | cleared =>
    refine ⟨nofun,fun _ => ?_⟩
    cases handlers <;> simp [move,Handlers.loaded] at hmove hloaded
    subst hmove
    exact ⟨rfl,rfl⟩
  | alarmOff =>
    obtain ⟨-,hmove⟩ := Option.ite_none_right_eq_some.mp hmove
    cases hmove
    exact ⟨nofun,fun _ => ⟨rfl,hloaded⟩⟩
  | ends =>
    cases hmove
    exact ⟨nofun,fun hended => nomatch hended⟩

theorem running_rank {limit : Nat} (pending : Nat) {w : Side} (h : w.life = .running)
    (hle : w.value ≤ limit) :
    w.rank limit pending + w.value = (pending + w.handlers.clearing + 1) * limit + 1 := by
  rw [rank,if_pos h,Nat.add_mul _ 1,Nat.one_mul]
  omega

theorem rank_pos {limit pending : Nat} {w : Side} :
    0 < w.rank limit pending ↔ w.life = .running := by
  unfold rank
  split <;> simp_all

/-- The bound that the rank sets on the counts of a run at whose end the side has not left. -/
theorem counts_le {limit pending pending' k : Nat} {w w' : Side}
    (hrank : k + w'.rank limit pending' ≤ w.rank limit pending) (hrun : w'.life = .running)
    (hle : w.life = .running → w.value ≤ limit) :
    k + w.value ≤ (pending + w.handlers.clearing + 1) * limit := by
  have hpos : 0 < w'.rank limit pending' := rank_pos.mpr hrun
  have hstart : w.life = .running :=
    rank_pos.mp (Nat.lt_of_lt_of_le hpos (Nat.le_of_add_left_le hrank))
  have hvalue := running_rank pending hstart (hle hstart)
  omega

end Side

section Detection
variable {cli serv : Args} {s t : St} {as bs : List Act}

theorem client_rank (hs : (heartbeat cli serv).Reachable s) (hsilent : s.server.life ≠ .running)
    (h : (heartbeat cli serv).run s bs = some t) :
    bs.countP (· = .client .counted) + t.client.rank cli.limit t.toClient ≤
      s.client.rank cli.limit s.toClient := by
  refine Machine.countP_le_of_rank (fun s : St => s.client.rank cli.limit s.toClient)
    (I := fun s => (heartbeat cli serv).Reachable s ∧ s.server.life ≠ .running) ?_ ⟨hs,hsilent⟩ h
  rintro s (m | m) t ⟨hs,hsilent⟩ hstep
  · obtain ⟨hside,hreceived,hserver,-⟩ := step_client hstep
    refine ⟨⟨hs.step hstep,by rwa [hserver]⟩,?_⟩
    obtain ⟨as,has⟩ := hs
    have hle := ((heartbeat_watched has).1.counts (Side.step_eq_some.mp hside).1).2
    have hrank := Side.step_rank hle hside hreceived
    simpa using hrank
  · obtain ⟨-,hside,-,-,-⟩ := step_server hstep
    exact absurd (Side.step_eq_some.mp hside).1 hsilent

theorem server_rank (hs : (heartbeat cli serv).Reachable s) (hsilent : s.client.Silent)
    (h : (heartbeat cli serv).run s bs = some t) :
    bs.countP (· = .server .counted) + t.server.rank serv.limit t.toServer ≤
      s.server.rank serv.limit s.toServer := by
  refine Machine.countP_le_of_rank (fun s : St => s.server.rank serv.limit s.toServer)
    (I := fun s => (heartbeat cli serv).Reachable s ∧ s.client.Silent) ?_ ⟨hs,hsilent⟩ h
  rintro s (m | m) t ⟨hs,hsilent⟩ hstep
  · obtain ⟨hside,-,hserver,hto⟩ := step_client hstep
    obtain ⟨hm,hnext⟩ := hsilent.step hside
    have hprobes : probes t.client m = 0 := by cases m <;> first | rfl | exact absurd rfl hm
    refine ⟨⟨hs.step hstep,hnext⟩,?_⟩
    rw [hserver,hto,hprobes]
    simp
  · obtain ⟨-,hside,hreceived,hclient,-⟩ := step_server hstep
    refine ⟨⟨hs.step hstep,by rwa [hclient]⟩,?_⟩
    obtain ⟨as,has⟩ := hs
    have hle := ((heartbeat_watched has).2.counts (Side.step_eq_some.mp hside).1).2
    have hrank := Side.step_rank hle hside hreceived
    simpa using hrank

/-- Once the other side is silent, the counts of a side that has not left are bounded by the
urgent data that it has yet to hear of. -/
theorem silent_peer_detected (hs : (heartbeat cli serv).run (heartbeat cli serv).init as = some s)
    (h : (heartbeat cli serv).run s bs = some t) :
    (s.server.life ≠ .running → t.client.life = .running →
      bs.countP (· = .client .counted) + s.client.value ≤
        (s.toClient + s.client.handlers.clearing + 1) * cli.limit) ∧
    (s.client.Silent → t.server.life = .running →
      bs.countP (· = .server .counted) + s.server.value ≤
        (s.toServer + s.server.handlers.clearing + 1) * serv.limit) := by
  obtain ⟨hclient,hserver⟩ := heartbeat_watched hs
  constructor
  · intro hsilent hrun
    have hrank := client_rank ⟨as,hs⟩ hsilent h
    exact Side.counts_le hrank hrun fun hstart => (hclient.counts hstart).2
  · intro hsilent hrun
    have hrank := server_rank ⟨as,hs⟩ hsilent h
    exact Side.counts_le hrank hrun fun hstart => (hserver.counts hstart).2

theorem silent_peer_detected_ended :
    [Act.client .sigAlrm,.client .counted].countP (· = .client .counted) + 0 ≤ (0 + 0 + 1) * 5 :=
  (@silent_peer_detected callArgs callArgs ⟨.start,⟨0,true,.none,.ended⟩,0,0⟩
    ⟨⟨1,true,.none,.running⟩,⟨0,true,.none,.ended⟩,1,0⟩ [.server .ends] _ rfl rfl).1 nofun rfl

end Detection

/-! ## The timer -/

/-- The timer is set, or the handler that sets it again is under way. -/
def Side.Timed (w : Side) : Prop := w.armed = true ∨ w.handlers.loaded ≠ none

theorem Side.armed_of_count {limit n : Nat} {handlers : Handlers}
    (h : (count limit n handlers).life = .running) : (count limit n handlers).armed = true := by
  by_cases hover : limit ≤ n
  · rw [count_of_le hover] at h
    cases h
  · rw [count_of_lt (Nat.not_le.mp hover)]

theorem Side.Timed.step {limit : Nat} {w w' : Side} {m : Move} (h : w.Timed) (hm : m ≠ .alarmOff)
    (hstep : w.step limit m = some w') (hrun : w'.life = .running) : w'.Timed := by
  obtain ⟨-,hmove⟩ := step_eq_some.mp hstep
  obtain ⟨nprobes,armed,handlers,life⟩ := w
  cases m with
  | sigAlrm =>
    cases armed <;> cases handlers <;> simp [move] at hmove <;> subst hmove <;>
      exact .inr nofun
  | counted =>
    cases handlers <;> simp [move] at hmove <;> subst hmove <;> exact .inl (armed_of_count hrun)
  | sigUrg k =>
    cases handlers <;> simp [move] at hmove <;> subst hmove
    · exact .inl (h.resolve_right (· rfl))
    · exact .inr nofun
  | cleared =>
    cases handlers <;> simp [move] at hmove <;> subst hmove
    · exact .inl (h.resolve_right (· rfl))
    · exact .inr nofun
  | alarmOff => exact absurd rfl hm
  | ends =>
    cases hmove
    cases hrun

theorem Side.Timed.goes {w : Side} (h : w.Timed) (hrun : w.life = .running) (limit : Nat) :
    ∃ m ∈ [Move.sigAlrm,.counted,.cleared], ∃ w', w.step limit m = some w' := by
  obtain ⟨nprobes,armed,handlers,life⟩ := w
  cases hrun
  cases handlers with
  | none =>
    have harmed : armed = true := h.resolve_right (· rfl)
    cases harmed
    exact ⟨.sigAlrm,by simp,_,rfl⟩
  | alrm n => exact ⟨.counted,by simp,_,rfl⟩
  | urg => exact ⟨.cleared,by simp,_,rfl⟩
  | alrmInUrg n => exact ⟨.counted,by simp,_,rfl⟩
  | urgInAlrm n => exact ⟨.cleared,by simp,_,rfl⟩

theorem received_timer (pending : Nat) {m : Move} (hm : m ∈ [Move.sigAlrm,.counted,.cleared]) :
    received pending m = some pending ∧ m ≠ .alarmOff := by
  cases m <;> simp_all [received]

theorem sides_timed {cli serv : Args} {as : List Act} {s : St}
    (h : (heartbeat cli serv).run (heartbeat cli serv).init as = some s) :
    (s.client.life = .running → .client .alarmOff ∉ as → s.client.Timed) ∧
      (s.server.life = .running → s.server.Timed) := by
  induction as using List.reverseRecOn generalizing s with
  | nil =>
    cases h
    exact ⟨fun _ _ => .inl rfl,fun _ => .inl rfl⟩
  | append_singleton as a ih =>
    rw [Machine.run_append] at h
    obtain ⟨q,hq,h⟩ := Option.bind_eq_some_iff.mp h
    obtain ⟨t,hstep,h⟩ := Option.bind_eq_some_iff.mp h
    cases h
    obtain ⟨hclient,hserver⟩ := ih hq
    cases a with
    | client m =>
      obtain ⟨hside,-,hsame,-⟩ := step_client hstep
      rw [hsame]
      refine ⟨fun hrun hoff => ?_,hserver⟩
      have hm : m ≠ .alarmOff := fun heq => hoff (by simp [heq])
      have hbefore := hclient (Side.step_running hside) fun hmem => hoff (by simp [hmem])
      exact hbefore.step hm hside hrun
    | server m =>
      obtain ⟨hm,hside,-,hsame,-⟩ := step_server hstep
      rw [hsame]
      refine ⟨fun hrun hoff => hclient hrun fun hmem => hoff (by simp [hmem]),fun hrun => ?_⟩
      exact (hserver (Side.step_running hside)).step hm hside hrun

end UnixNet.Heartbeat
