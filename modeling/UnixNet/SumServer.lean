import UnixNet.FullTransfer
import UnixNet.Library.ByteOrder
import UnixNet.LineClient
import UnixNet.Numerals
set_option autoImplicit false

/-! The sum servers: `str_echo08` answers lines of text, `str_echo09` binary records. -/

namespace UnixNet
open Units
open LineReader (Transient readline_unit readline_pos)

inductive SumStop where
  | returned : SumStop
  | errSys (text : String) : SumStop
  | running : SumStop
  deriving DecidableEq, Repr

/-- What a server has written, call of `Writen` by call, and how it ended. -/
structure SumRun where
  sent : List (List Byte)
  stop : SumStop
  deriving DecidableEq, Repr

section
variable {σ : Type}

/-- `while (1)`: `get` reads a request into the variables and gives the value it returned, where 0
ends the loop; `reply` is then written. -/
def answerLoop (get : σ → Int × σ) (error : String) (reply : σ → List Byte) :
    Nat → σ → List Grant → SumRun
  | 0, _, _ => ⟨[],.running⟩
  | fuel+1, st, gs =>
    let n := (get st).1
    if n < 0 then ⟨[],.errSys error⟩
    else if n = 0 then ⟨[],.returned⟩
    else
      let out := reply (get st).2
      let w := writen out gs
      if w.ret ≠ out.length then ⟨[w.sent],.errSys "writen error"⟩
      else
        let next := answerLoop get error reply fuel (get st).2 w.rest
        ⟨w.sent :: next.sent,next.stop⟩

/-- The replies that a state leads to are written one after another, until there are none. -/
theorem answerLoop_replies {get : σ → Int × σ} {error : String} {reply : σ → List Byte}
    {I : σ → List (List Byte) → Prop} (hsize : ∀ st, (reply st).length ≤ SSIZE_MAX)
    (hnil : ∀ st, I st [] → (get st).1 = 0)
    (hcons : ∀ st x xs, I st (x :: xs) → 0 < (get st).1 ∧ reply (get st).2 = x ∧ I (get st).2 xs)
    {xs : List (List Byte)} {st : σ} (hst : I st xs) {gs : List Grant} (hgs : ∀ g ∈ gs, g.Moves)
    {fuel : Nat} (hfuel : xs.length < fuel) :
    answerLoop get error reply fuel st gs = ⟨xs,.returned⟩ := by
  induction xs generalizing st gs fuel with
  | nil =>
    obtain ⟨fuel,rfl⟩ := Nat.exists_eq_add_of_lt hfuel
    simp [answerLoop,hnil st hst]
  | cons x xs ih =>
    obtain ⟨fuel,rfl⟩ : ∃ k, fuel = k + 1 := ⟨fuel - 1,by omega⟩
    obtain ⟨hpos,hreply,hnext⟩ := hcons st x xs hst
    obtain ⟨hret,hsent,hrest⟩ := writen_moves (hsize (get st).2) hgs
    simp only [List.length_cons] at hfuel
    simp only [answerLoop]
    rw [if_neg (by omega),if_neg (by omega),hret,if_neg (by simp),hsent,hreply,
      ih hnext (by rw [← hreply]; exact hrest) (by omega)]

end

/-- A `long` in the memory of the machine, and its bytes. -/
def toLong (v : Int) : Int := v.bmod (2^64)

def loadLong (bs : List Byte) : Int := toLong (ByteOrder.value (bs.take 8))

def longBytes (v : Int) : List Byte := ByteOrder.bytes 8 (v % 2^64).toNat

/-- `sizeof(struct args)`: two longs. -/
def SIZEOF_ARGS : Nat := 16

/-- `result.sum = args.arg1 + args.arg2;` -/
def resultSum (args : List Byte) : Int := toLong (loadLong args + loadLong (args.drop 8))

/-- The array `args` and what is still to be read. -/
def readArgs (st : List Byte × List Arrival) : Int × List Byte × List Arrival :=
  let r := readn SIZEOF_ARGS st.2
  (r.ret,overwrite st.1 r.stored,r.rest)

/-- `str_echo09`, which finds any bytes in `args`. Every pass but the last takes a byte. -/
def strEcho09 (args : List Byte) (es : List Arrival) (gs : List Grant) : SumRun :=
  answerLoop readArgs "readn error" (fun st => longBytes (resultSum st.1))
    ((stream es).length + 1) (args,es) gs

/-- The `k`-th complete record. -/
def record (s : List Byte) (k : Nat) : List Byte := (s.drop (SIZEOF_ARGS * k)).take SIZEOF_ARGS

/-- One result for each complete record, and no other. -/
def Framed (s : List Byte) (out : SumRun) : Prop :=
  out = ⟨(List.range (s.length / SIZEOF_ARGS)).map fun k => longBytes (resultSum (record s k)),
    .returned⟩

/-- The results for what `readn` leaves in `args`, time after time. -/
def results (args s : List Byte) : List (List Byte) :=
  if _ : s = [] then []
  else
    let args := overwrite args (s.take SIZEOF_ARGS)
    longBytes (resultSum args) :: results args (s.drop SIZEOF_ARGS)
termination_by s.length
decreasing_by
  rename_i h
  have hpos := List.length_pos_iff.mpr h
  simp only [List.length_drop,SIZEOF_ARGS]
  omega

theorem longBytes_length (v : Int) : (longBytes v).length = 8 := ByteOrder.bytes_length 8 _

theorem resultSum_append {a : List Byte} (ha : a.length = SIZEOF_ARGS) (b : List Byte) :
    resultSum (a ++ b) = resultSum a := by
  unfold SIZEOF_ARGS at ha
  have hfirst : (a ++ b).take 8 = a.take 8 := List.take_append_of_le_length (by omega)
  have hsecond : ((a ++ b).drop 8).take 8 = (a.drop 8).take 8 := by
    rw [List.drop_append_of_le_length (by omega)]
    exact List.take_append_of_le_length (by rw [List.length_drop]; omega)
  simp only [resultSum,loadLong,hfirst,hsecond]

theorem results_eq {args s : List Byte} (h : s ≠ []) :
    results args s = longBytes (resultSum (overwrite args (s.take SIZEOF_ARGS))) ::
      results (overwrite args (s.take SIZEOF_ARGS)) (s.drop SIZEOF_ARGS) := by
  rw [results,dif_neg h]

theorem results_nil (args : List Byte) : results args [] = [] := by
  rw [results]
  simp

theorem results_length (args s : List Byte) :
    (results args s).length = (s.length + (SIZEOF_ARGS - 1)) / SIZEOF_ARGS := by
  induction args, s using results.induct with
  | case1 args => rw [results_nil]; rfl
  | case2 args s h _ ih =>
    have hpos := List.length_pos_iff.mpr h
    rw [results_eq h,List.length_cons,ih,List.length_drop]
    unfold SIZEOF_ARGS
    omega

theorem readArgs_spec {st : List Byte × List Arrival} (hst : Transient st.2) :
    (readArgs st).1 = (min SIZEOF_ARGS (stream st.2).length : Nat) ∧
      (readArgs st).2.1 = overwrite st.1 ((stream st.2).take SIZEOF_ARGS) ∧
      stream (readArgs st).2.2 = (stream st.2).drop SIZEOF_ARGS ∧ Transient (readArgs st).2.2 := by
  obtain ⟨hret,hstored,hrest,hcalm⟩ := readn_spec (n := SIZEOF_ARGS) (by decide) hst
  exact ⟨hret,congrArg (overwrite st.1) hstored,hrest,hcalm⟩

theorem strEcho09_results (args : List Byte) {es : List Arrival} (hes : Transient es)
    {gs : List Grant} (hgs : ∀ g ∈ gs, g.Moves) :
    strEcho09 args es gs = ⟨results args (stream es),.returned⟩ := by
  refine answerLoop_replies (I := fun st xs => Transient st.2 ∧ xs = results st.1 (stream st.2))
    (fun st => ?_) ?_ ?_ ⟨hes,rfl⟩ hgs ?_
  · rw [longBytes_length]
    decide
  · rintro st ⟨hst,hnil⟩
    have hlen := congrArg List.length hnil
    rw [results_length] at hlen
    rw [(readArgs_spec hst).1]
    simp only [List.length_nil,SIZEOF_ARGS] at hlen ⊢
    omega
  · rintro st x xs ⟨hst,hxs⟩
    obtain ⟨hret,hargs,hrest,hcalm⟩ := readArgs_spec hst
    have hne : stream st.2 ≠ [] := by
      intro hnil
      rw [hnil,results_nil] at hxs
      cases hxs
    have hpos := List.length_pos_iff.mpr hne
    rw [results_eq hne] at hxs
    obtain ⟨rfl,rfl⟩ := List.cons.inj hxs
    rw [hret,hargs,hrest]
    refine ⟨?_,rfl,hcalm,rfl⟩
    unfold SIZEOF_ARGS
    omega
  · rw [results_length]
    unfold SIZEOF_ARGS
    omega

theorem results_records (args : List Byte) {s : List Byte} (h : SIZEOF_ARGS ∣ s.length) :
    results args s = (List.range (s.length / SIZEOF_ARGS)).map
      fun k => longBytes (resultSum (record s k)) := by
  induction args, s using results.induct with
  | case1 args => rw [results_nil]; rfl
  | case2 args s hne _ ih =>
    have hpos := List.length_pos_iff.mpr hne
    have hfull : SIZEOF_ARGS ≤ s.length := Nat.le_of_dvd hpos h
    have hdvd : SIZEOF_ARGS ∣ (s.drop SIZEOF_ARGS).length := by
      rw [List.length_drop]
      exact Nat.dvd_sub h (Nat.dvd_refl _)
    have hcount : s.length / SIZEOF_ARGS = (s.drop SIZEOF_ARGS).length / SIZEOF_ARGS + 1 := by
      rw [List.length_drop]
      unfold SIZEOF_ARGS at *
      omega
    have hfirst : resultSum (overwrite args (s.take SIZEOF_ARGS)) = resultSum (record s 0) := by
      rw [overwrite,resultSum_append (by rw [List.length_take]; omega)]
      rfl
    have hnext : ∀ k, record (s.drop SIZEOF_ARGS) k = record s (k + 1) := fun k => by
      rw [record,record,List.drop_drop,Nat.mul_succ,Nat.add_comm]
    rw [results_eq hne,hcount,List.range_succ_eq_map,List.map_cons,List.map_map,ih hdvd,hfirst]
    simp only [hnext]
    rfl

/-- A trailing fragment is answered with what it leaves of the record before. -/
theorem strEcho09_framed_iff (args : List Byte) (es : List Arrival) (hes : Transient es)
    (gs : List Grant) (hgs : ∀ g ∈ gs, g.Moves) :
    Framed (stream es) (strEcho09 args es gs) ↔ SIZEOF_ARGS ∣ (stream es).length := by
  rw [strEcho09_results args hes hgs,Framed]
  constructor
  · intro h
    have hlen := congrArg (fun out => out.sent.length) h
    simp only [results_length,List.length_map,List.length_range] at hlen
    unfold SIZEOF_ARGS at *
    omega
  · intro h
    rw [results_records args h]

/-- 1 and 2 arrive in two pieces. -/
theorem strEcho09_framed_three :
    let es := [.data 1 [0,0,0,0,0,0,0,2],.fail .eintr,.data 0 [0,0,0,0,0,0]]
    Framed (stream es) (strEcho09 [] es [.take 3]) ∧
      (strEcho09 [] es [.take 3]).sent = [[3,0,0,0,0,0,0,0]] := by
  intro es
  have hes : Transient es := fun e he => by simpa [es] using he
  have hgs : ∀ g ∈ [Grant.take 3], g.Moves := by simp [Grant.Moves]
  exact ⟨(strEcho09_framed_iff [] es hes _ hgs).mpr (by decide),by decide +kernel⟩

/-- A client that sends one byte gets a result. -/
theorem strEcho09_not_framed : ¬ ∀ (args : List Byte) (es : List Arrival) (gs : List Grant),
    args.length = SIZEOF_ARGS → Transient es → (∀ g ∈ gs, g.Moves) →
      Framed (stream es) (strEcho09 args es gs) := by
  intro h
  have hframed := h (List.replicate SIZEOF_ARGS 0) [.data 7 []] [] (by decide)
    (fun e he => by simp at he) (by simp)
  have hlen := congrArg (fun out => out.sent.length) hframed
  exact absurd hlen (by decide +kernel)

/-- "input error\n" -/
def inputError : List Byte := [105,110,112,117,116,32,101,114,114,111,114,10]

/-- `sscanf(line, "%ld%ld", &arg1, &arg2) == 2`, where `strtol` saturates. -/
def scanLongs (line : List Byte) : Option (Int × Int) :=
  (scanLong line).bind fun (arg1,rest) =>
    (scanLong rest).map fun (arg2,_) => (saturate arg1,saturate arg2)

/-- What `snprintf` leaves in `line` for a request that `Readline` put there. -/
def sumReply (line : List Byte) : List Byte :=
  match scanLongs (cString line) with
  | some (arg1,arg2) => snprintf MAXLINE (longText (toLong (arg1 + arg2)) ++ [newline])
  | none => snprintf MAXLINE inputError

/-- The bytes of `line`, and the buffers behind it. -/
def readRequest (st : List Byte × LineBuffer × List Arrival) :
    Int × List Byte × LineBuffer × List Arrival :=
  let r := readline MAXLINE st.2.1 st.2.2
  (r.ret,r.line,r.lb,r.rest)

/-- `str_echo08`, which starts with `line` all zeros. Every pass but the last takes a byte. -/
def strEcho08 (lb : LineBuffer) (es : List Arrival) (gs : List Grant) : SumRun :=
  answerLoop readRequest "readline error" (fun st => cString (sumReply st.1))
    ((pending lb es).length + 1) ([],lb,es) gs

/-- A request line without its newline. -/
structure RequestLine where
  body : List Byte
  single : newline ∉ body

def RequestLine.bytes (l : RequestLine) : List Byte := l.body ++ [newline]

/-- The line starts with these two integers. -/
def TwoIntegers (l : List Byte) (a b : Int) : Prop := ∃ t u, Integer l a t ∧ Integer t b u

def FitsLong (v : Int) : Prop := LONG_MIN ≤ v ∧ v ≤ LONG_MAX

/-- One line, with the sum of the two integers if it fits as they do, or an error message. -/
structure Replies (l r : List Byte) : Prop where
  line : ∃ body, r = body ++ [newline] ∧ newline ∉ body
  sum : ∀ a b, TwoIntegers l a b → FitsLong a → FitsLong b → FitsLong (a + b) →
    r = longText (a + b) ++ [newline]
  error : (∀ a b, ¬ TwoIntegers l a b) → r = inputError

/-- The client gets one reply for each of its lines, in their order. -/
def Conversation (ls : List RequestLine) (out : SumRun) : Prop :=
  out.stop = .returned ∧ List.Forall₂ Replies (ls.map RequestLine.bytes) out.sent

theorem dropWhile_cString {p : Byte → Bool} (hp : p 0 = false) (l : List Byte) :
    (cString l).dropWhile p = cString (l.dropWhile p) := by
  induction l with
  | nil => rfl
  | cons c l ih =>
    by_cases hc : c = 0
    · subst hc
      simp [cString,hp]
    · rw [cString_cons hc]
      by_cases hpc : p c = true
      · rw [List.dropWhile_cons_of_pos hpc,List.dropWhile_cons_of_pos hpc,ih]
      · rw [List.dropWhile_cons_of_neg hpc,List.dropWhile_cons_of_neg hpc,cString_cons hc]

theorem takeWhile_cString {p : Byte → Bool} (hp : p 0 = false) (l : List Byte) :
    (cString l).takeWhile p = l.takeWhile p := by
  induction l with
  | nil => rfl
  | cons c l ih =>
    by_cases hc : c = 0
    · subst hc
      simp [cString,hp]
    · rw [cString_cons hc]
      by_cases hpc : p c = true
      · rw [List.takeWhile_cons_of_pos hpc,List.takeWhile_cons_of_pos hpc,ih]
      · rw [List.takeWhile_cons_of_neg hpc,List.takeWhile_cons_of_neg hpc]

theorem signed_cString (l : List Byte) :
    signed (cString l) = ((signed l).1,cString (signed l).2) := by
  cases l with
  | nil => rfl
  | cons c l =>
    by_cases hc : c = 0
    · subst hc
      simp [cString,signed]
    · rw [cString_cons hc]
      simp only [signed]
      by_cases hminus : c = 45
      · simp only [if_pos hminus]
      · by_cases hplus : c = 43
        · simp only [if_neg hminus,if_pos hplus]
        · simp only [if_neg hminus,if_neg hplus,cString_cons hc]

/-- A NUL ends the line for `sscanf`, and nothing that it reads has one. -/
theorem scanLong_cString (l : List Byte) :
    scanLong (cString l) = (scanLong l).map (Prod.map id cString) := by
  simp only [scanLong,dropWhile_cString (p := isspace) (by decide),signed_cString,
    takeWhile_cString (p := isdigit) (by decide),dropWhile_cString (p := isdigit) (by decide)]
  split <;> rfl

theorem scanLongs_cString (l : List Byte) : scanLongs (cString l) = scanLongs l := by
  unfold scanLongs
  rw [scanLong_cString]
  cases scanLong l with
  | none => rfl
  | some r =>
    simp only [Option.map_some,Option.bind_some,Prod.map_fst,Prod.map_snd,id,scanLong_cString]
    cases scanLong r.2 <;> rfl

theorem scanLongs_some {l : List Byte} {v w : Int} (h : scanLongs l = some (v,w)) :
    ∃ a b, TwoIntegers l a b ∧ v = saturate a ∧ w = saturate b ∧
      ∀ a' b', TwoIntegers l a' b' → a' = a ∧ b' = b := by
  obtain ⟨⟨a,t⟩,ht,h⟩ := Option.bind_eq_some_iff.mp h
  obtain ⟨⟨b,u⟩,hu,h⟩ := Option.map_eq_some_iff.mp h
  cases h
  refine ⟨a,b,⟨t,u,(scanLong_iff l a t).mp ht,(scanLong_iff t b u).mp hu⟩,rfl,rfl,?_⟩
  rintro a' b' ⟨t',u',ha,hb⟩
  have ha' := (scanLong_iff l a' t').mpr ha
  rw [ht] at ha'
  cases ha'
  have hb' := (scanLong_iff t b' u').mpr hb
  rw [hu] at hb'
  cases hb'
  exact ⟨rfl,rfl⟩

theorem scanLongs_none {l : List Byte} (h : scanLongs l = none) (a b : Int) :
    ¬ TwoIntegers l a b := by
  rintro ⟨t,u,ha,hb⟩
  have ht := (scanLong_iff l a t).mpr ha
  have hu := (scanLong_iff t b u).mpr hb
  simp [scanLongs,ht,hu] at h

theorem toLong_text (v : Int) : (longText (toLong v) ++ [newline]).length < MAXLINE := by
  have hlow : -((2^64 : Nat) / 2) ≤ toLong v := Int.le_bmod (by decide)
  have hhigh : toLong v < ((2^64 : Nat) + 1) / 2 := Int.bmod_lt (by decide)
  have hlen := longText_length (v := toLong v) (k := 19) (by decide) (by omega)
  rw [List.length_append,List.length_singleton]
  unfold MAXLINE
  omega

theorem saturate_eq {v : Int} (h : FitsLong v) : saturate v = v := by
  unfold saturate FitsLong LONG_MIN LONG_MAX at *
  omega

theorem toLong_eq {v : Int} (h : FitsLong v) : toLong v = v := by
  unfold FitsLong LONG_MIN LONG_MAX at h
  exact Int.bmod_eq_of_le (by omega) (by omega)

theorem sumReply_replies (l : List Byte) : Replies l (cString (sumReply l)) := by
  unfold sumReply
  rw [scanLongs_cString]
  cases hscan : scanLongs l with
  | none =>
    have htext : cString (snprintf MAXLINE inputError) = inputError := by decide +kernel
    rw [htext]
    refine ⟨⟨inputError.dropLast,by decide,by decide⟩,fun a b hab => ?_,fun _ => rfl⟩
    exact absurd hab (scanLongs_none hscan a b)
  | some r =>
    obtain ⟨a,b,hab,hv,hw,huniq⟩ := scanLongs_some hscan
    obtain ⟨hline,hnul⟩ := longText_plain (toLong (r.1 + r.2))
    have htext : cString (snprintf MAXLINE (longText (toLong (r.1 + r.2)) ++ [newline])) =
        longText (toLong (r.1 + r.2)) ++ [newline] := by
      rw [snprintf_eq (toLong_text _)]
      exact EchoSession.cString_eq (by simpa [newline] using hnul)
    simp only [htext]
    refine ⟨⟨_,rfl,hline⟩,fun a' b' hab' ha hb hsum => ?_,fun hno => absurd hab (hno a b)⟩
    obtain ⟨rfl,rfl⟩ := huniq a' b' hab'
    rw [hv,hw,saturate_eq ha,saturate_eq hb,toLong_eq hsum]

theorem sumReply_length (l : List Byte) : (cString (sumReply l)).length ≤ MAXLINE := by
  have htake : ∀ text, (cString (snprintf MAXLINE text)).length ≤ MAXLINE := fun text =>
    ((List.takeWhile_sublist _).length_le.trans (List.length_take_le ..)).trans (by decide)
  unfold sumReply
  cases scanLongs (cString l) with
  | none => exact htake _
  | some r => exact htake _

/-- The replies to what the reader has still to give. -/
def LeadsTo (st : List Byte × LineBuffer × List Arrival) (xs : List (List Byte)) : Prop :=
  Transient st.2.2 ∧
    xs = (units newline (MAXLINE - 1) (pending st.2.1 st.2.2)).map fun u => cString (sumReply u)

theorem strEcho08_units {lb : LineBuffer} {es : List Arrival} (hes : Transient es)
    {gs : List Grant} (hgs : ∀ g ∈ gs, g.Moves) :
    strEcho08 lb es gs = ⟨(units newline (MAXLINE - 1) (pending lb es)).map fun u =>
      cString (sumReply u),.returned⟩ := by
  have hm : 0 < MAXLINE - 1 := by decide
  refine answerLoop_replies (I := LeadsTo) (fun st => (sumReply_length st.1).trans (by decide))
    ?_ ?_ ⟨hes,rfl⟩ hgs ?_
  · rintro ⟨line,lb,es⟩ ⟨hst,hnil⟩
    obtain ⟨hret,_⟩ := readline_unit MAXLINE lb hst
    have hempty : pending lb es = [] := by
      by_contra hne
      rw [units_cons hm hne] at hnil
      cases hnil
    rw [hempty,unit_nil] at hret
    exact hret
  · rintro ⟨line,lb,es⟩ x xs ⟨hst,hxs⟩
    obtain ⟨_,hline,hrest,hcalm⟩ := readline_unit MAXLINE lb hst
    have hne : pending lb es ≠ [] := by
      intro hnil
      simp [hnil] at hxs
    rw [units_cons hm hne] at hxs
    obtain ⟨rfl,rfl⟩ := List.cons.inj hxs
    refine ⟨readline_pos (by decide) hst hne,congrArg (fun l => cString (sumReply l)) hline,
      hcalm,?_⟩
    simp only [readRequest,hrest]
  · rw [List.length_map]
    exact Nat.lt_succ_of_le (units_length_le ..)

/-- The client and the server agree on what a line is when `Readline` takes every line as a
whole. -/
theorem strEcho08_conversation_iff (ls : List RequestLine) (lb : LineBuffer) (es : List Arrival)
    (hes : Transient es) (hsent : pending lb es = ls.flatMap RequestLine.bytes) (gs : List Grant)
    (hgs : ∀ g ∈ gs, g.Moves) :
    Conversation ls (strEcho08 lb es gs) ↔ ∀ l ∈ ls, l.bytes.length ≤ MAXLINE - 1 := by
  have hm : 0 < MAXLINE - 1 := by decide
  have hbodies : ∀ b ∈ ls.map RequestLine.body, newline ∉ b := by
    intro b hb
    obtain ⟨l,_,rfl⟩ := List.mem_map.mp hb
    exact l.single
  have hflat : (ls.map RequestLine.body).flatMap (· ++ [newline]) = pending lb es := by
    rw [hsent,List.flatMap_map]
    rfl
  obtain ⟨hfit,_,hcount⟩ := units_pieces hm hbodies
  rw [hflat] at hfit hcount
  have hshort : (∀ b ∈ ls.map RequestLine.body, b.length < MAXLINE - 1) ↔
      ∀ l ∈ ls, l.bytes.length ≤ MAXLINE - 1 := by
    rw [List.forall_mem_map]
    refine forall₂_congr fun l _ => ?_
    rw [RequestLine.bytes,List.length_append,List.length_singleton,Nat.lt_iff_add_one_le]
  rw [strEcho08_units hes hgs,Conversation,← hshort]
  constructor
  · rintro ⟨_,hall⟩
    have hlen := hall.length_eq
    simp only [List.length_map] at hlen
    exact hcount (by rw [List.length_map]; exact hlen.symm)
  · intro hlines
    refine ⟨rfl,?_⟩
    rw [hfit hlines,List.map_map,List.map_map,List.forall₂_map_left_iff,List.forall₂_map_right_iff]
    exact List.forall₂_same.mpr fun l _ => sumReply_replies l.bytes

/-- "1 2\n" in two pieces. -/
theorem strEcho08_conversation_sum :
    Conversation [⟨[49,32,50],by decide⟩] (strEcho08 .init [.data 49 [32],.data 50 [10]] []) :=
  (strEcho08_conversation_iff [⟨[49,32,50],by decide⟩] .init [.data 49 [32],.data 50 [10]]
    (fun e he => by simp at he) rfl [] (by simp)).mpr (by decide)

/-- A line of 4096 bytes is answered twice. -/
theorem strEcho08_no_conversation : ¬ ∀ (ls : List RequestLine) (lb : LineBuffer)
    (es : List Arrival) (gs : List Grant), Transient es →
      pending lb es = ls.flatMap RequestLine.bytes → (∀ g ∈ gs, g.Moves) →
        Conversation ls (strEcho08 lb es gs) := by
  intro h
  obtain ⟨tail,htail⟩ : ∃ tail, tail = List.replicate (MAXLINE - 2) (97 : Byte) := ⟨_,rfl⟩
  have hbody : newline ∉ 97 :: tail := by simp [htail,newline]
  have hlong : MAXLINE - 1 ≤ (97 :: tail).length := by
    rw [htail,List.length_cons,List.length_replicate]
    decide
  have hes : Transient [.data 97 (tail ++ [newline])] := fun e he => by simp at he
  have hpending : pending .init [.data 97 (tail ++ [newline])] = (97 :: tail) ++ [newline] := by
    have hunread : LineBuffer.init.unread = [] := LineBuffer.unread_empty (Int.le_refl 0)
    simp [pending,hunread]
  have hall := (h [⟨97 :: tail,hbody⟩] .init _ [] hes
    (by simp [hpending,RequestLine.bytes]) (by simp)).2
  have hlen := hall.length_eq
  have htwo := (units_delimited_length (by decide) hbody []).2 hlong
  rw [strEcho08_units hes (by simp),hpending] at hlen
  simp only [List.length_map,List.length_singleton] at hlen
  omega

end UnixNet
