import Mathlib.Data.Finset.Basic
import UnixNet.EventLoop
set_option autoImplicit false

/-!
`tcp_connect`, `tcp_listen`, `udp_connect` and `udp_server` of lib.c: the first address of a list
for which a socket can be made and connected, or bound.
-/

namespace UnixNet.AddrOpen

def AF_UNSPEC : Int := 0
def SOCK_STREAM : Int := 1
def SOCK_DGRAM : Int := 2
def AI_PASSIVE : Int := 1

/-- The members of `hints` that are not zero. -/
structure Hints where
  ai_flags : Int
  ai_family : Int
  ai_socktype : Int
  deriving DecidableEq, Repr

structure Addrinfo where
  ai_family : Int
  ai_socktype : Int
  ai_protocol : Int
  ai_addr : List Byte
  ai_addrlen : Nat
  deriving DecidableEq, Repr

/-- The calls of an opener, each with its result. -/
inductive Call where
  | socket (res : Addrinfo) (fd : Option Int) : Call
  | setsockopt (fd : Int) (ok : Bool) : Call
  | connect (fd : Int) (res : Addrinfo) (ok : Bool) : Call
  | bind (fd : Int) (res : Addrinfo) (ok : Bool) : Call
  | close (fd : Int) (ok : Bool) : Call
  | listen (fd : Int) (ok : Bool) : Call
  | freeaddrinfo : Call
  deriving DecidableEq, Repr

/-- What the calls for one entry would give. A socket gets a descriptor that is not among the
open ones. -/
structure Attempt (fds : Finset Int) where
  socket : Option {fd : Int // fd ∉ fds}
  setsockopt : Bool
  second : Bool
  close : Bool

/-- `getaddrinfo`, which gives a first entry and the others, and the kernel. -/
structure World (fds : Finset Int) where
  getaddrinfo : Hints → Except String (Addrinfo × List Addrinfo)
  attempt : Nat → Attempt fds
  listen : Bool

/-- The call that an entry has to pass after `socket`. -/
inductive Second where
  | connect | bind
  deriving DecidableEq, Repr

def Second.call (fd : Int) (res : Addrinfo) (ok : Bool) : Second → Call
  | .connect => .connect fd res ok
  | .bind => .bind fd res ok

/-- What the four functions differ in. -/
structure Opener where
  name : String
  hints : Hints
  reuse : Bool
  second : Second
  listens : Bool
  setsLen : Bool

/-- How the loop is left: by its `break`, with `res == NULL`, or in a wrapper. -/
inductive LoopEnd where
  | found (sockfd : Int) (res : Addrinfo) : LoopEnd
  | null : LoopEnd
  | exited (why : Exit) : LoopEnd
  deriving DecidableEq, Repr

section
variable {fds : Finset Int}

/-- The calls for an entry after `socket` gave `fd`, up to the one that decides. -/
def Opener.calls (o : Opener) (res : Addrinfo) (fd : Int) (ok : Bool) : List Call :=
  .socket res (some fd) :: (if o.reuse then [.setsockopt fd true] else []) ++
    [o.second.call fd res ok]

/-- `do { ... } while ((res = res->ai_next) != NULL);` from entry `i` on. Both the `continue` and
the end of the body go to the condition. -/
def Opener.loop (o : Opener) (w : World fds) : Nat → List Addrinfo → LoopEnd × List Call
  | _, [] => (.null,[])
  | i, res :: more =>
    match (w.attempt i).socket with
    | none =>
      let next := o.loop w (i + 1) more
      (next.1,.socket res none :: next.2)
    | some ⟨fd,_⟩ =>
      if o.reuse ∧ (w.attempt i).setsockopt = false then
        (.exited (.errSys "setsockopt error"),[.socket res (some fd),.setsockopt fd false])
      else if (w.attempt i).second then (.found fd res,o.calls res fd true)
      else if (w.attempt i).close = false then
        (.exited (.errSys "close error"),o.calls res fd false ++ [.close fd false])
      else
        let next := o.loop w (i + 1) more
        (next.1,o.calls res fd false ++ .close fd true :: next.2)

/-- What is returned, or why the process exits, and what is stored through `addrlenp`. -/
structure Opened where
  sockfd : Except Exit Int
  addrlen : Option Nat
  log : List Call

/-- The body of each function; `addrlenp` tells whether the argument is not NULL. -/
def Opener.run (o : Opener) (w : World fds) (addrlenp : Bool) : Opened :=
  match w.getaddrinfo o.hints with
  | .error _ => ⟨.error (.errQuit (o.name ++ " error for %s, %s: %s")),none,[]⟩
  | .ok (res,more) =>
    match o.loop w 0 (res :: more) with
    | (.exited why,log) => ⟨.error why,none,log⟩
    | (.null,log) => ⟨.error (.errSys (o.name ++ " error for %s, %s")),none,log⟩
    | (.found fd res,log) =>
      if o.listens ∧ w.listen = false then
        ⟨.error (.errSys "listen error"),none,log ++ [.listen fd false]⟩
      else
        ⟨.ok fd,if o.setsLen ∧ addrlenp then some res.ai_addrlen else none,
          log ++ (if o.listens then [.listen fd true] else []) ++ [.freeaddrinfo]⟩

end

def tcpConnect : Opener :=
  ⟨"tcp_connect",⟨0,AF_UNSPEC,SOCK_STREAM⟩,false,.connect,false,false⟩

def tcpListen : Opener :=
  ⟨"tcp_listen",⟨AI_PASSIVE,AF_UNSPEC,SOCK_STREAM⟩,true,.bind,true,true⟩

def udpConnect : Opener :=
  ⟨"udp_connect",⟨0,AF_UNSPEC,SOCK_DGRAM⟩,false,.connect,false,false⟩

def udpServer : Opener :=
  ⟨"udp_server",⟨AI_PASSIVE,AF_UNSPEC,SOCK_DGRAM⟩,false,.bind,false,true⟩

def openers : List Opener := [tcpConnect,tcpListen,udpConnect,udpServer]

/-- The entries that were tried, and the descriptors opened and closed, in their order. -/
def tried (log : List Call) : List Addrinfo :=
  log.filterMap fun
    | .socket res _ => some res
    | _ => none

def opened (log : List Call) : List Int :=
  log.filterMap fun
    | .socket _ fd => fd
    | _ => none

def closed (log : List Call) : List Int :=
  log.filterMap fun
    | .close fd true => some fd
    | _ => none

/-- The open descriptors after a call. -/
def Call.track (fds : Finset Int) : Call → Finset Int
  | .socket _ (some fd) => insert fd fds
  | .close fd true => fds.erase fd
  | _ => fds

section
variable {fds : Finset Int} {w : World fds}

/-- Both calls for the entry succeed. -/
def World.Passes (w : World fds) (i : Nat) : Prop :=
  (w.attempt i).socket ≠ none ∧ (w.attempt i).second = true

/-- The calls that are made through wrappers succeed. -/
structure World.Smooth (w : World fds) : Prop where
  setsockopt : ∀ i, (w.attempt i).setsockopt = true
  close : ∀ i, (w.attempt i).close = true
  listen : w.listen = true

theorem tried_append (l m : List Call) : tried (l ++ m) = tried l ++ tried m :=
  List.filterMap_append

theorem opened_append (l m : List Call) : opened (l ++ m) = opened l ++ opened m :=
  List.filterMap_append

theorem closed_append (l m : List Call) : closed (l ++ m) = closed l ++ closed m :=
  List.filterMap_append

theorem calls_account (o : Opener) (res : Addrinfo) (fd : Int) (ok : Bool) :
    tried (o.calls res fd ok) = [res] ∧ opened (o.calls res fd ok) = [fd] ∧
      closed (o.calls res fd ok) = [] ∧
      ∀ fds, (o.calls res fd ok).foldl Call.track fds = insert fd fds := by
  cases hreuse : o.reuse <;> cases hsecond : o.second <;>
    simp [Opener.calls,hreuse,hsecond,Second.call,tried,opened,closed,Call.track]

/-- An entry that fails leaves the descriptors as they were. -/
theorem failed_account (o : Opener) (res : Addrinfo) {fd : Int} (hfd : fd ∉ fds)
    (next : List Call) :
    let log := o.calls res fd false ++ .close fd true :: next
    tried log = res :: tried next ∧ opened log = fd :: opened next ∧
      closed log = fd :: closed next ∧
      log.foldl Call.track fds = next.foldl Call.track fds := by
  obtain ⟨htried,hopened,hclosed,htrack⟩ := calls_account o res fd false
  intro log
  refine ⟨?_,?_,?_,?_⟩
  · rw [tried_append,htried]
    rfl
  · rw [opened_append,hopened]
    rfl
  · rw [closed_append,hclosed]
    rfl
  · rw [List.foldl_append,htrack,List.foldl_cons,Call.track,Finset.erase_insert hfd]

/-- The loop was left at the `k`-th entry of the list. -/
structure Found (w : World fds) (i : Nat) (ais : List Addrinfo) (k : Nat) (fd : Int)
    (res : Addrinfo) (log : List Call) : Prop where
  entry : ais[k]? = some res
  socket : ∃ h, (w.attempt (i + k)).socket = some ⟨fd,h⟩
  passes : w.Passes (i + k)
  first : ∀ j < k, ¬ w.Passes (i + j)
  tried : tried log = ais.take (k + 1)
  closed : opened log = closed log ++ [fd]
  track : log.foldl Call.track fds = insert fd fds

/-- No entry passes, and nothing is left open. -/
structure Exhausted (w : World fds) (i : Nat) (ais : List Addrinfo) (log : List Call) : Prop where
  fails : ∀ k < ais.length, ¬ w.Passes (i + k)
  tried : tried log = ais
  closed : opened log = closed log
  track : log.foldl Call.track fds = fds

theorem Found.later {i k : Nat} {ais : List Addrinfo} {fd : Int} {res r : Addrinfo}
    {log log' : List Call} (h : Found w (i + 1) ais k fd res log) (hi : ¬ w.Passes i)
    (htried : AddrOpen.tried log' = r :: AddrOpen.tried log)
    (hfds : ∃ l, opened log' = l ++ opened log ∧ AddrOpen.closed log' = l ++ AddrOpen.closed log)
    (htrack : log'.foldl Call.track fds = log.foldl Call.track fds) :
    Found w i (r :: ais) (k + 1) fd res log' := by
  have hshift : i + 1 + k = i + (k + 1) := by omega
  obtain ⟨l,hopened,hclosed⟩ := hfds
  refine ⟨h.entry,hshift ▸ h.socket,hshift ▸ h.passes,fun j hj => ?_,?_,?_,?_⟩
  · cases j with
    | zero => exact hi
    | succ j =>
      have hnot := h.first j (by omega)
      rwa [show i + 1 + j = i + (j + 1) by omega] at hnot
  · rw [htried,h.tried,List.take_succ_cons]
  · rw [hopened,hclosed,h.closed,List.append_assoc]
  · rw [htrack,h.track]

theorem Exhausted.later {i : Nat} {ais : List Addrinfo} {r : Addrinfo} {log log' : List Call}
    (h : Exhausted w (i + 1) ais log) (hi : ¬ w.Passes i)
    (htried : AddrOpen.tried log' = r :: AddrOpen.tried log)
    (hfds : ∃ l, opened log' = l ++ opened log ∧ AddrOpen.closed log' = l ++ AddrOpen.closed log)
    (htrack : log'.foldl Call.track fds = log.foldl Call.track fds) :
    Exhausted w i (r :: ais) log' := by
  obtain ⟨l,hopened,hclosed⟩ := hfds
  refine ⟨fun k hk => ?_,?_,?_,?_⟩
  · cases k with
    | zero => exact hi
    | succ k =>
      have hnot := h.fails k (by simpa using hk)
      rwa [show i + 1 + k = i + (k + 1) by omega] at hnot
  · rw [htried,h.tried]
  · rw [hopened,hclosed,h.closed]
  · rw [htrack,h.track]

/-- The loop stops at the first entry that passes, or it tries them all. -/
theorem loop_spec (o : Opener) (hw : w.Smooth) (i : Nat) (ais : List Addrinfo) :
    (∃ k fd res, (o.loop w i ais).1 = .found fd res ∧ Found w i ais k fd res (o.loop w i ais).2) ∨
      (o.loop w i ais).1 = .null ∧ Exhausted w i ais (o.loop w i ais).2 := by
  induction ais generalizing i with
  | nil => exact .inr ⟨rfl,nofun,rfl,rfl,rfl⟩
  | cons r ais ih =>
    cases hsocket : (w.attempt i).socket with
    | none =>
      have hi : ¬ w.Passes i := fun h => h.1 hsocket
      have hloop : o.loop w i (r :: ais) =
          ((o.loop w (i + 1) ais).1,.socket r none :: (o.loop w (i + 1) ais).2) := by
        rw [Opener.loop,hsocket]
      rw [hloop]
      rcases ih (i + 1) with ⟨k,fd,res,hend,h⟩ | ⟨hend,h⟩
      · exact .inl ⟨k + 1,fd,res,hend,h.later hi rfl ⟨[],rfl,rfl⟩ rfl⟩
      · exact .inr ⟨hend,h.later hi rfl ⟨[],rfl,rfl⟩ rfl⟩
    | some s =>
      obtain ⟨fd,hfd⟩ := s
      cases hsecond : (w.attempt i).second with
      | true =>
        have hloop : o.loop w i (r :: ais) = (.found fd r,o.calls r fd true) := by
          simp [Opener.loop,hsocket,hsecond,hw.setsockopt]
        obtain ⟨htried,hopened,hclosed,htrack⟩ := calls_account o r fd true
        rw [hloop]
        refine .inl ⟨0,fd,r,rfl,rfl,⟨hfd,hsocket⟩,⟨by simp [hsocket],hsecond⟩,nofun,htried,?_,
          htrack fds⟩
        rw [hopened,hclosed]
        rfl
      | false =>
        have hi : ¬ w.Passes i := fun h => by simp [World.Passes,hsecond] at h
        have hloop : o.loop w i (r :: ais) = ((o.loop w (i + 1) ais).1,
            o.calls r fd false ++ .close fd true :: (o.loop w (i + 1) ais).2) := by
          simp [Opener.loop,hsocket,hsecond,hw.setsockopt,hw.close]
        obtain ⟨htried,hopened,hclosed,htrack⟩ :=
          failed_account o r hfd (o.loop w (i + 1) ais).2
        rw [hloop]
        rcases ih (i + 1) with ⟨k,fd',res,hend,h⟩ | ⟨hend,h⟩
        · exact .inl ⟨k + 1,fd',res,hend,h.later hi htried ⟨[fd],hopened,hclosed⟩ htrack⟩
        · exact .inr ⟨hend,h.later hi htried ⟨[fd],hopened,hclosed⟩ htrack⟩

/-- What a function does whose `k`-th entry is the first that passes. -/
structure Succeeds (w : World fds) (o : Opener) (addrlenp : Bool) (ais : List Addrinfo) (k : Nat)
    (out : Opened) : Prop where
  sockfd : ∃ fd h, (w.attempt k).socket = some ⟨fd,h⟩ ∧ out.sockfd = .ok fd ∧
    opened out.log = closed out.log ++ [fd] ∧ out.log.foldl Call.track fds = insert fd fds
  tried : tried out.log = ais.take (k + 1)
  addrlen : out.addrlen = if o.setsLen ∧ addrlenp then ais[k]?.map Addrinfo.ai_addrlen else none

/-- What it does when none passes. -/
structure Fails (w : World fds) (ais : List Addrinfo) (out : Opened) : Prop where
  exits : ∃ why, out.sockfd = .error why
  tried : AddrOpen.tried out.log = ais
  closed : opened out.log = AddrOpen.closed out.log
  track : out.log.foldl Call.track fds = fds

theorem run_spec (o : Opener) (hw : w.Smooth) (addrlenp : Bool) {res : Addrinfo}
    {more : List Addrinfo} (hgai : w.getaddrinfo o.hints = .ok (res,more)) :
    (∃ k, w.Passes k ∧ (∀ j < k, ¬ w.Passes j) ∧ k < (res :: more).length ∧
        Succeeds w o addrlenp (res :: more) k (o.run w addrlenp)) ∨
      (∀ k < (res :: more).length, ¬ w.Passes k) ∧ Fails w (res :: more) (o.run w addrlenp) := by
  have hzero : ∀ j, 0 + j = j := Nat.zero_add
  rcases loop_spec o hw 0 (res :: more) with ⟨k,fd,r,hend,h⟩ | ⟨hend,h⟩
  · have hrun : o.run w addrlenp =
        ⟨.ok fd,if o.setsLen ∧ addrlenp then some r.ai_addrlen else none,
          (o.loop w 0 (res :: more)).2 ++ (if o.listens then [.listen fd true] else []) ++
            [.freeaddrinfo]⟩ := by
      simp only [Opener.run,hgai]
      generalize o.loop w 0 (res :: more) = p at hend
      obtain ⟨e,log⟩ := p
      obtain rfl : e = .found fd r := hend
      simp [hw.listen]
    have hquiet : ∀ l : List Call, l = [] ∨ l = [.listen fd true] →
        AddrOpen.tried (l ++ [Call.freeaddrinfo]) = [] ∧ opened (l ++ [Call.freeaddrinfo]) = [] ∧
          AddrOpen.closed (l ++ [Call.freeaddrinfo]) = [] ∧
          ∀ fds, (l ++ [Call.freeaddrinfo]).foldl Call.track fds = fds := by
      rintro l (rfl | rfl)
      · exact ⟨rfl,rfl,rfl,fun _ => rfl⟩
      · exact ⟨rfl,rfl,rfl,fun _ => rfl⟩
    obtain ⟨htried,hopened,hclosed,htrack⟩ :=
      hquiet (if o.listens then [.listen fd true] else []) (by split <;> simp)
    obtain ⟨hfd,hsocket⟩ := h.socket
    rw [hzero] at hsocket
    have hlt : k < (res :: more).length := (List.getElem?_eq_some_iff.mp h.entry).1
    refine .inl ⟨k,hzero k ▸ h.passes,fun j hj => hzero j ▸ h.first j hj,hlt,?_⟩
    rw [hrun,List.append_assoc]
    refine ⟨⟨fd,hfd,hsocket,rfl,?_,?_⟩,?_,?_⟩
    · rw [opened_append,closed_append,hopened,hclosed,List.append_nil,List.append_nil,h.closed]
    · rw [List.foldl_append,h.track,htrack]
    · rw [tried_append,htried,List.append_nil,h.tried]
    · rw [h.entry]
      rfl
  · have hrun : o.run w addrlenp = ⟨.error (.errSys (o.name ++ " error for %s, %s")),none,
        (o.loop w 0 (res :: more)).2⟩ := by
      simp only [Opener.run,hgai]
      generalize o.loop w 0 (res :: more) = p at hend
      obtain ⟨e,log⟩ := p
      obtain rfl : e = .null := hend
      rfl
    refine .inr ⟨fun k hk => hzero k ▸ h.fails k hk,?_⟩
    rw [hrun]
    exact ⟨⟨_,rfl⟩,h.tried,h.closed,h.track⟩

end

/-- Each of the four functions returns the descriptor of the first entry that passes, with the
descriptors of the entries before it closed once and the entries after it not tried; the process
exits when no entry passes, and only then. -/
theorem openers_first (fds : Finset Int) (w : World fds) (hw : w.Smooth) (addrlenp : Bool) :
    ∀ o ∈ openers, ∀ res more, w.getaddrinfo o.hints = .ok (res,more) →
      (∀ k < (res :: more).length, w.Passes k → (∀ j < k, ¬ w.Passes j) →
        Succeeds w o addrlenp (res :: more) k (o.run w addrlenp)) ∧
      ((∀ k < (res :: more).length, ¬ w.Passes k) →
        Fails w (res :: more) (o.run w addrlenp)) ∧
      ((∃ why, (o.run w addrlenp).sockfd = .error why) ↔
        ∀ k < (res :: more).length, ¬ w.Passes k) := by
  intro o _ res more hgai
  rcases run_spec o hw addrlenp hgai with ⟨k,hpass,hfirst,hlt,h⟩ | ⟨hnone,h⟩
  · refine ⟨fun k' hlt' hpass' hfirst' => ?_,fun hnone => absurd hpass (hnone k hlt),?_⟩
    · rcases Nat.lt_trichotomy k k' with hk | rfl | hk
      · exact absurd hpass (hfirst' k hk)
      · exact h
      · exact absurd hpass' (hfirst k' hk)
    · obtain ⟨fd,_,_,hok,_⟩ := h.sockfd
      refine iff_of_false (fun ⟨why,hwhy⟩ => ?_) fun hnone => hnone k hlt hpass
      rw [hok] at hwhy
      cases hwhy
  · exact ⟨fun k hlt hpass => absurd hpass (hnone k hlt),fun _ => h,iff_of_true h.exits hnone⟩

/-- `socket` fails for the first of three entries and `bind` for the second. -/
theorem openers_first_third : ∃ (w : World {0,1,2}) (res : Addrinfo),
    Succeeds w tcpListen true [res,res,res] 2 (tcpListen.run w true) ∧
      (tcpListen.run w true).log = [.socket res none,
        .socket res (some 3),.setsockopt 3 true,.bind 3 res false,.close 3 true,
        .socket res (some 3),.setsockopt 3 true,.bind 3 res true,.listen 3 true,.freeaddrinfo] := by
  let res : Addrinfo := ⟨2,1,6,[],16⟩
  let w : World {0,1,2} := ⟨fun _ => .ok (res,[res,res]),fun i =>
    ⟨if i = 0 then none else some ⟨3,by decide⟩,true,i = 2,true⟩,true⟩
  have hw : w.Smooth := ⟨fun _ => rfl,fun _ => rfl,rfl⟩
  have hfirst : ∀ j < 2, ¬ w.Passes j := by
    intro j hj hpass
    have htwo : j = 2 := by simpa [w] using hpass.2
    omega
  have hall := openers_first _ w hw true tcpListen (by simp [openers]) res [res,res] rfl
  exact ⟨w,res,hall.1 2 (by decide) ⟨by simp [w],rfl⟩ hfirst,rfl⟩

end UnixNet.AddrOpen
