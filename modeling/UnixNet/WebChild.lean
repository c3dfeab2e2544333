import Mathlib.Algebra.Group.Nat.Defs
import Mathlib.Algebra.Ring.Int.Defs
import UnixNet.Library.Machine
import UnixNet.LineBuffer
set_option autoImplicit false

/-! `web_child` and the loop of `child_main` around it, in one process. -/

namespace UnixNet
open Units

/-- `isspace` and `isdigit` in the C locale. -/
def isspace (c : Byte) : Bool := c == 32 || (9 ≤ c && c ≤ 13)
def isdigit (c : Byte) : Bool := 48 ≤ c && c ≤ 57

def decimal (ds : List Byte) : Nat := ds.foldl (fun v c => 10 * v + (c.toNat - 48)) 0

def LONG_MAX : Int := 2^63 - 1
def LONG_MIN : Int := -2^63

def saturate (v : Int) : Int := max LONG_MIN (min LONG_MAX v)

/-- `atol` on a line without its NUL: the end of the list stops it as the NUL does. -/
def atol (line : List Byte) : Int :=
  match line.dropWhile isspace with
  | [] => 0
  | c :: cs =>
    if c = 45 then saturate (-decimal (cs.takeWhile isdigit))
    else if c = 43 then saturate (decimal (cs.takeWhile isdigit))
    else saturate (decimal ((c :: cs).takeWhile isdigit))

/-- Storing a `long` in an `int` keeps the low 32 bits. -/
def toInt (v : Int) : Int := v.bmod (2^32)

/-- The test that a request line has to pass. -/
def wellFormed (line : List Byte) : Bool := 0 < toInt (atol line) && toInt (atol line) ≤ MAXN

/-- How one pass of the loop in `web_child` ends. -/
inductive WebPass where
  | returned : WebPass
  | readlineError : WebPass
  | quit (ntowrite : Int) : WebPass
  | reply (ntowrite : Nat) : WebPass
  deriving DecidableEq, Repr

def webChild (r : ReadlineResult) : WebPass :=
  if r.ret < 0 then .readlineError
  else if r.ret = 0 then .returned
  else
    let ntowrite := toInt (atol r.line)
    if ntowrite ≤ 0 ∨ (MAXN : Int) < ntowrite then .quit ntowrite else .reply ntowrite.toNat

/-- The cases of a pass, by what `Readline` returned and by its line. -/
inductive WebChildPass (r : ReadlineResult) : WebPass → Prop where
  | returned : r.ret = 0 → WebChildPass r .returned
  | readlineError : r.ret < 0 → WebChildPass r .readlineError
  | quit {n : Int} : 0 < r.ret → wellFormed r.line = false → WebChildPass r (.quit n)
  | reply {n : Nat} : 0 < r.ret → wellFormed r.line = true → WebChildPass r (.reply n)

theorem webChild_pass (r : ReadlineResult) : WebChildPass r (webChild r) := by
  unfold webChild
  split
  · rename_i h
    exact .readlineError h
  · split
    · rename_i h
      exact .returned h
    · simp only
      split
      · refine .quit (by omega) ?_
        simp only [wellFormed,Bool.and_eq_false_iff,decide_eq_false_iff_not]
        omega
      · refine .reply (by omega) ?_
        simp only [wellFormed,Bool.and_eq_true,decide_eq_true_eq]
        omega

/-- A connection that a worker took: what the client sent, the lines that
`web_child` parsed so far, and whether a read or a write on it failed. -/
structure Served where
  arrivals : List Arrival
  lines : List (List Byte)
  failed : Bool

inductive WorkerPc where
  | accept : WorkerPc
  | serve (rest : List Arrival) : WorkerPc
  | exited : WorkerPc
  deriving DecidableEq, Repr

/-- A process in the loop of `child_main`; `served` has the latest connection first. -/
structure Worker where
  lb : LineBuffer
  pc : WorkerPc
  served : List Served

def Worker.init : Worker := ⟨.init,.accept,[]⟩

/-- `Accept` returns a connection on which `arrivals` will come; or `web_child`
makes one pass, in which `Writen` succeeds or fails. -/
inductive WorkerAct where
  | accept (arrivals : List Arrival) : WorkerAct
  | pass (writen : Bool) : WorkerAct

/-- One pass on the connection `c` after the call of `Readline` gave `r`. -/
def servePass (c : Served) (cs : List Served) (writen : Bool) (r : ReadlineResult) : Worker :=
  match webChild r with
  | .returned => ⟨r.lb,.accept,c :: cs⟩
  | .readlineError => ⟨r.lb,.exited,{ c with failed := true } :: cs⟩
  | .quit _ => ⟨r.lb,.exited,{ c with lines := c.lines ++ [r.line] } :: cs⟩
  | .reply _ =>
    let c := { c with lines := c.lines ++ [r.line], failed := !writen }
    ⟨r.lb,if writen then .serve r.rest else .exited,c :: cs⟩

def Worker.step (w : Worker) : WorkerAct → Option Worker
  | .accept arrivals =>
    match w.pc with
    | .accept => some { w with pc := .serve arrivals, served := ⟨arrivals,[],false⟩ :: w.served }
    | _ => none
  | .pass writen =>
    match w.pc, w.served with
    | .serve rest, c :: cs => some (servePass c cs writen (readline MAXLINE w.lb rest))
    | _, _ => none

theorem step_accept {w v : Worker} {arrivals : List Arrival}
    (h : w.step (.accept arrivals) = some v) : w.pc = .accept ∧
      v = { w with pc := .serve arrivals, served := ⟨arrivals,[],false⟩ :: w.served } := by
  simp only [Worker.step] at h
  split at h
  · rename_i hpc
    exact ⟨hpc,(Option.some.inj h).symm⟩
  · cases h

theorem step_pass {w v : Worker} {writen : Bool} (h : w.step (.pass writen) = some v) :
    ∃ rest c cs, w.pc = .serve rest ∧ w.served = c :: cs ∧
      v = servePass c cs writen (readline MAXLINE w.lb rest) := by
  simp only [Worker.step] at h
  split at h
  · rename_i rest c cs hpc hserved
    exact ⟨rest,c,cs,hpc,hserved,(Option.some.inj h).symm⟩
  · cases h

/-- `child_main` of one process, started with the statics of the parent. -/
def childMain : Machine Worker WorkerAct := ⟨.init,Worker.step⟩

/-- The lines parsed on a connection are its first bytes. -/
def Served.Own (c : Served) : Prop := c.lines.flatten <+: stream c.arrivals

/-- The latest connection holds the lines parsed on it, then what is buffered,
then what is still to come. -/
structure Worker.Isolated (w : Worker) : Prop where
  own : ∀ c ∈ w.served, c.Own
  idle : w.pc = .accept → w.lb.readCnt = 0
  current : ∀ rest, w.pc = .serve rest → ∃ c cs, w.served = c :: cs ∧
    c.lines.flatten ++ pending w.lb rest = stream c.arrivals

theorem isolated_init : Worker.init.Isolated := ⟨nofun,fun _ => rfl,nofun⟩

theorem isolated_accept {w v : Worker} {arrivals : List Arrival} (hw : w.Isolated)
    (h : w.step (.accept arrivals) = some v) : v.Isolated := by
  obtain ⟨hpc,rfl⟩ := step_accept h
  have hlb := LineBuffer.unread_empty (Int.le_of_eq (hw.idle hpc))
  refine ⟨?_,nofun,?_⟩
  · intro c hc
    rcases List.mem_cons.mp hc with rfl | hc
    · simp [Served.Own]
    · exact hw.own c hc
  · intro rest hrest
    cases hrest
    exact ⟨_,_,rfl,by simp [pending,hlb]⟩

theorem servePass_isolated {c : Served} {cs : List Served} {lb : LineBuffer}
    {rest : List Arrival} (writen : Bool) (hold : ∀ d ∈ cs, d.Own)
    (hbytes : c.lines.flatten ++ pending lb rest = stream c.arrivals) :
    (servePass c cs writen (readline MAXLINE lb rest)).Isolated := by
  have hown : c.Own := ⟨_,hbytes⟩
  have hzero := @readline_zero MAXLINE lb rest
  have hsplit := @readline_pending MAXLINE lb rest
  have hp := webChild_pass (readline MAXLINE lb rest)
  unfold servePass
  generalize readline MAXLINE lb rest = r at *
  have hnext : 0 < r.ret →
      (c.lines ++ [r.line]).flatten ++ pending r.lb r.rest = stream c.arrivals := by
    intro hret
    rw [← hbytes,hsplit (by omega)]
    simp
  have hparsed : 0 < r.ret → ∀ b, Served.Own ⟨c.arrivals,c.lines ++ [r.line],b⟩ :=
    fun hret _ => ⟨_,hnext hret⟩
  generalize webChild r = out at hp
  cases hp with
  | returned hret =>
    exact ⟨List.forall_mem_cons.mpr ⟨hown,hold⟩,fun _ => (hzero hret).2.1,nofun⟩
  | readlineError hret => exact ⟨List.forall_mem_cons.mpr ⟨hown,hold⟩,nofun,nofun⟩
  | quit hret _ => exact ⟨List.forall_mem_cons.mpr ⟨hparsed hret _,hold⟩,nofun,nofun⟩
  | reply hret _ =>
    have hall := List.forall_mem_cons.mpr ⟨hparsed hret (!writen),hold⟩
    cases writen with
    | false => exact ⟨hall,nofun,nofun⟩
    | true =>
      refine ⟨hall,nofun,?_⟩
      intro rest' hrest
      obtain rfl := WorkerPc.serve.inj hrest
      exact ⟨_,_,rfl,hnext hret⟩

theorem isolated_step (w : Worker) (a : WorkerAct) (v : Worker) (hw : w.Isolated)
    (h : w.step a = some v) : v.Isolated := by
  cases a with
  | accept arrivals => exact isolated_accept hw h
  | pass writen =>
    obtain ⟨rest,c,cs,hpc,hserved,rfl⟩ := step_pass h
    obtain ⟨c',cs',hcons,hbytes⟩ := hw.current rest hpc
    obtain ⟨rfl,rfl⟩ : c = c' ∧ cs = cs' := by simpa [hserved] using hcons
    exact servePass_isolated writen (fun d hd => hw.own d (by simp [hserved,hd])) hbytes

/-- Every line parsed on a connection was received on it, what is still buffered
belongs to the connection being served, and nothing is buffered between two. -/
theorem childMain_isolated {w : Worker} (h : childMain.Reachable w) : w.Isolated :=
  h.invariant isolated_init isolated_step

/-- A first client sends "1\n" and closes, a second one sends "2\n" in two segments. -/
theorem childMain_isolated_two :
    let acts := [.accept [.data 49 [10]],.pass true,.pass true,
      .accept [.data 50 [],.data 10 []],.pass true,.pass true]
    ∃ w, childMain.run .init acts = some w ∧ w.lb.readCnt = 0 ∧
      w.served.map Served.lines = [[[50,10]],[[49,10]]] := by
  intro acts
  exact ⟨_,rfl,(childMain_isolated ⟨acts,rfl⟩).idle rfl,by decide⟩

end UnixNet
