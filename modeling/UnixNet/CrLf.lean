import Mathlib.Algebra.Ring.Int.Defs
import Mathlib.Data.List.Count
import UnixNet.Library.Machine
import UnixNet.LineBuffer
set_option autoImplicit false

/-! sock: `crlf_add` and `crlf_strip`, and the loop of `loop_tcp` that calls them. -/

namespace UnixNet

def carriageReturn : Byte := 13

/-- What was written from `dst` on, and the value that is returned; `none` is the err_quit. -/
structure Converted where
  dst : List Byte
  ret : Option Int
  deriving DecidableEq, Repr

def crlfAddLoop (dstsize : Int) : List Byte → Int → List Byte → Converted
  | [], lenout, dst => ⟨dst,some lenout⟩
  | c :: src, lenout, dst =>
    if c = newline then
      if dstsize ≤ lenout + 1 then ⟨dst,none⟩
      else crlfAddLoop dstsize src (lenout + 1) (dst ++ [carriageReturn,c])
    else crlfAddLoop dstsize src lenout (dst ++ [c])

def crlfAdd (dstsize : Int) (src : List Byte) : Converted :=
  if dstsize < src.length then ⟨[],none⟩ else crlfAddLoop dstsize src src.length []

def crlfStripLoop (dstsize : Int) : List Byte → Int → List Byte → Converted
  | [], lenout, dst => ⟨dst,some lenout⟩
  | c :: src, lenout, dst =>
    if c ≠ carriageReturn then
      if dstsize ≤ lenout + 1 then ⟨dst,none⟩
      else crlfStripLoop dstsize src (lenout + 1) (dst ++ [c])
    else crlfStripLoop dstsize src lenout dst

def crlfStrip (dstsize : Int) (src : List Byte) : Converted := crlfStripLoop dstsize src 0 []

/-! ## The conversions -/

def addCr (x : List Byte) : List Byte :=
  x.flatMap fun c => if c = newline then [carriageReturn,c] else [c]

def stripCr (x : List Byte) : List Byte := x.filter fun c => c ≠ carriageReturn

theorem addCr_cons (c : Byte) (x : List Byte) :
    addCr (c :: x) = (if c = newline then [carriageReturn,c] else [c]) ++ addCr x := rfl

theorem addCr_length (x : List Byte) : (addCr x).length = x.length + x.count newline := by
  induction x with
  | nil => rfl
  | cons c x ih =>
    rw [addCr_cons,List.length_append,ih,List.count_cons,List.length_cons]
    by_cases hc : c = newline
    · simp only [hc,if_true,List.length_cons,List.length_nil,beq_self_eq_true]
      omega
    · simp only [hc,if_false,List.length_cons,List.length_nil,beq_iff_eq]
      omega

theorem stripCr_addCr {x : List Byte} (hx : carriageReturn ∉ x) : stripCr (addCr x) = x := by
  induction x with
  | nil => rfl
  | cons c x ih =>
    obtain ⟨hc,hx⟩ := not_or.mp (mt List.mem_cons.mpr hx)
    have hhead : stripCr (if c = newline then [carriageReturn,c] else [c]) = [c] := by
      split <;> simp [stripCr,Ne.symm hc]
    rw [addCr_cons,stripCr,List.filter_append,← stripCr,← stripCr,hhead,ih hx,
      List.singleton_append]

/-- Either conversion of a whole is that of its pieces. -/
theorem addCr_flatten (xs : List (List Byte)) : addCr xs.flatten = (xs.map addCr).flatten := by
  induction xs with
  | nil => rfl
  | cons x xs ih =>
    rw [List.flatten_cons,addCr,List.flatMap_append,← addCr,← addCr,ih,List.map_cons,
      List.flatten_cons]

theorem stripCr_flatten (xs : List (List Byte)) :
    stripCr xs.flatten = (xs.map stripCr).flatten := by
  rw [stripCr,List.filter_flatten]
  rfl

section
variable {dstsize : Int}

/-- How the loop ends: it has quit for a newline, or it has written the whole conversion. -/
theorem crlfAddLoop_cases (src : List Byte) (lenout : Int) (dst : List Byte) :
    (crlfAddLoop dstsize src lenout dst).ret = none ∧ newline ∈ src ∧
        dstsize ≤ lenout + src.count newline ∨
      crlfAddLoop dstsize src lenout dst =
          ⟨dst ++ addCr src,some (lenout + src.count newline)⟩ ∧
        (newline ∈ src → lenout + src.count newline < dstsize) := by
  induction src generalizing lenout dst with
  | nil => exact .inr ⟨by simp [crlfAddLoop,addCr],nofun⟩
  | cons c src ih =>
    rw [crlfAddLoop,addCr_cons]
    by_cases hc : c = newline
    · have hcount : (c :: src).count newline = src.count newline + 1 := by
        rw [hc,List.count_cons_self]
      rw [if_pos hc,if_pos hc,hcount]
      split
      · exact .inl ⟨rfl,by simp [hc],by omega⟩
      · rename_i hroom
        refine (ih (lenout + 1) (dst ++ [carriageReturn,c])).imp ?_ ?_
        · rintro ⟨hret,-,hle⟩
          exact ⟨hret,by simp [hc],by omega⟩
        · rintro ⟨hloop,hlt⟩
          refine ⟨?_,fun _ => ?_⟩
          · rw [hloop,List.append_assoc]
            congr 2
            omega
          · by_cases hmem : newline ∈ src
            · have := hlt hmem
              omega
            · rw [List.count_eq_zero_of_not_mem hmem]
              omega
    · have hcount : (c :: src).count newline = src.count newline :=
        List.count_cons_of_ne hc
      have hmem : newline ∈ c :: src ↔ newline ∈ src := by simp [Ne.symm hc]
      rw [if_neg hc,if_neg hc,hcount,hmem]
      have hloop := ih lenout (dst ++ [c])
      rwa [List.append_assoc] at hloop

theorem crlfStripLoop_cases (src : List Byte) (lenout : Int) (dst : List Byte) :
    (crlfStripLoop dstsize src lenout dst).ret = none ∧ stripCr src ≠ [] ∧
        dstsize ≤ lenout + (stripCr src).length ∨
      crlfStripLoop dstsize src lenout dst =
          ⟨dst ++ stripCr src,some (lenout + (stripCr src).length)⟩ ∧
        (stripCr src ≠ [] → lenout + (stripCr src).length < dstsize) := by
  induction src generalizing lenout dst with
  | nil => exact .inr ⟨by simp [crlfStripLoop,stripCr],fun h => absurd rfl h⟩
  | cons c src ih =>
    rw [crlfStripLoop]
    by_cases hc : c = carriageReturn
    · have hstrip : stripCr (c :: src) = stripCr src := by simp [stripCr,hc]
      rw [if_neg (not_not.mpr hc),hstrip]
      exact ih lenout dst
    · have hstrip : stripCr (c :: src) = c :: stripCr src := by simp [stripCr,hc]
      rw [if_pos hc,hstrip,List.length_cons]
      split
      · exact .inl ⟨rfl,List.cons_ne_nil _ _,by omega⟩
      · rename_i hroom
        refine (ih (lenout + 1) (dst ++ [c])).imp ?_ ?_
        · rintro ⟨hret,-,hle⟩
          exact ⟨hret,List.cons_ne_nil _ _,by omega⟩
        · rintro ⟨hloop,hlt⟩
          refine ⟨?_,fun _ => ?_⟩
          · rw [hloop,List.append_assoc]
            congr 2
            omega
          · by_cases hnil : stripCr src = []
            · rw [hnil,List.length_nil]
              omega
            · have := hlt hnil
              omega

theorem crlfAddLoop_inside (src : List Byte) (lenout : Int) (dst : List Byte)
    (hlen : (dst.length : Int) + src.length ≤ lenout) (hroom : lenout ≤ dstsize) :
    ((crlfAddLoop dstsize src lenout dst).dst.length : Int) ≤ dstsize := by
  induction src generalizing lenout dst with
  | nil => exact Int.le_trans (by simpa [crlfAddLoop] using hlen) hroom
  | cons c src ih =>
    rw [List.length_cons] at hlen
    rw [crlfAddLoop]
    split
    · split
      · change (dst.length : Int) ≤ dstsize
        omega
      · exact ih _ _ (by rw [List.length_append]; simp; omega) (by omega)
    · exact ih _ _ (by rw [List.length_append,List.length_singleton]; omega) hroom

theorem crlfStripLoop_inside (src : List Byte) (lenout : Int) (dst : List Byte)
    (hlen : (dst.length : Int) = lenout) (hroom : dst.length ≤ dstsize.toNat) :
    (crlfStripLoop dstsize src lenout dst).dst.length ≤ dstsize.toNat := by
  induction src generalizing lenout dst with
  | nil => exact hroom
  | cons c src ih =>
    rw [crlfStripLoop]
    split
    · split
      · exact hroom
      · refine ih _ _ ?_ ?_
        · rw [List.length_append,List.length_singleton]
          omega
        · rw [List.length_append,List.length_singleton]
          omega
    · exact ih _ _ hlen hroom

theorem crlfAdd_cases (dstsize : Int) (src : List Byte) :
    (crlfAdd dstsize src).ret = none ∧ (dstsize < src.length ∨
        newline ∈ src ∧ dstsize ≤ src.length + src.count newline) ∨
      crlfAdd dstsize src = ⟨addCr src,some (addCr src).length⟩ ∧ (src.length : Int) ≤ dstsize ∧
        (newline ∈ src → (src.length : Int) + src.count newline < dstsize) := by
  rw [crlfAdd,addCr_length]
  split
  · rename_i hlong
    exact .inl ⟨rfl,.inl hlong⟩
  · rename_i hlong
    obtain ⟨hret,hmem,hle⟩ | ⟨hloop,hlt⟩ := crlfAddLoop_cases src src.length []
    · exact .inl ⟨hret,.inr ⟨hmem,hle⟩⟩
    · refine .inr ⟨?_,Int.not_lt.mp hlong,hlt⟩
      rw [hloop,List.nil_append]
      rfl

theorem crlfStrip_cases (dstsize : Int) (src : List Byte) :
    (crlfStrip dstsize src).ret = none ∧ stripCr src ≠ [] ∧ dstsize ≤ (stripCr src).length ∨
      crlfStrip dstsize src = ⟨stripCr src,some (stripCr src).length⟩ ∧
        (stripCr src ≠ [] → ((stripCr src).length : Int) < dstsize) := by
  have hloop := @crlfStripLoop_cases dstsize src 0 []
  rwa [Int.zero_add,List.nil_append] at hloop

theorem crlfStrip_none_iff (dstsize : Int) (src : List Byte) :
    (crlfStrip dstsize src).ret = none ↔ stripCr src ≠ [] ∧ dstsize ≤ (stripCr src).length := by
  obtain ⟨hret,hquit⟩ | ⟨heq,hlt⟩ := crlfStrip_cases dstsize src
  · exact iff_of_true hret hquit
  · refine iff_of_false (by rw [heq]; nofun) fun ⟨hne,hle⟩ => ?_
    have := hlt hne
    omega

theorem crlfAdd_some {src : List Byte} (h : (crlfAdd dstsize src).ret ≠ none) :
    crlfAdd dstsize src = ⟨addCr src,some (addCr src).length⟩ := by
  obtain ⟨hret,-⟩ | ⟨heq,-⟩ := crlfAdd_cases dstsize src
  · exact absurd hret h
  · exact heq

theorem crlfStrip_some {src : List Byte} (h : (crlfStrip dstsize src).ret ≠ none) :
    crlfStrip dstsize src = ⟨stripCr src,some (stripCr src).length⟩ := by
  obtain ⟨hret,-⟩ | ⟨heq,-⟩ := crlfStrip_cases dstsize src
  · exact absurd hret h
  · exact heq

end

/-- Pieces of a stream, each with the size of the destination that it is converted into. -/
abbrev Pieces : Type := List (Int × List Byte)

def Pieces.whole (ps : Pieces) : List Byte := (ps.map Prod.snd).flatten

/-- What the conversions of the pieces are together. -/
def Pieces.joined (convert : Int → List Byte → Converted) (ps : Pieces) : Converted :=
  ⟨(ps.map fun p => (convert p.1 p.2).dst).flatten,
    some (ps.map fun p => (convert p.1 p.2).ret.getD 0).sum⟩

/-- The destinations are large enough, for the pieces and for the whole. -/
def Pieces.Fit (convert : Int → List Byte → Converted) (ps : Pieces) (dstsize : Int) : Prop :=
  (∀ p ∈ ps, (convert p.1 p.2).ret ≠ none) ∧ (convert dstsize ps.whole).ret ≠ none

theorem sum_lengths (f : List Byte → List Byte) (xs : List (List Byte)) :
    (xs.map fun x => ((f x).length : Int)).sum = (xs.map f).flatten.length := by
  induction xs with
  | nil => rfl
  | cons x xs ih =>
    rw [List.map_cons,List.sum_cons,ih,List.map_cons,List.flatten_cons,List.length_append]
    omega

/-- A conversion that takes pieces to the pieces of the whole does so in its memory and in the
lengths that it returns. -/
theorem joined_eq {convert : Int → List Byte → Converted} {f : List Byte → List Byte}
    (hsome : ∀ dstsize src, (convert dstsize src).ret ≠ none →
      convert dstsize src = ⟨f src,some (f src).length⟩)
    (hflatten : ∀ xs : List (List Byte), f xs.flatten = (xs.map f).flatten) {ps : Pieces}
    {dstsize : Int} (hfit : ps.Fit convert dstsize) :
    ps.joined convert = convert dstsize ps.whole := by
  obtain ⟨hps,hwhole⟩ := hfit
  have hdst : (ps.map fun p => (convert p.1 p.2).dst) = (ps.map Prod.snd).map f := by
    rw [List.map_map]
    exact List.map_congr_left fun p hp => by rw [hsome _ _ (hps p hp)]; rfl
  have hret : (ps.map fun p => (convert p.1 p.2).ret.getD 0) =
      (ps.map Prod.snd).map fun x => ((f x).length : Int) := by
    rw [List.map_map]
    exact List.map_congr_left fun p hp => by rw [hsome _ _ (hps p hp)]; rfl
  rw [hsome _ _ hwhole,Pieces.joined,hdst,hret,Pieces.whole,hflatten,sum_lengths]

/-- Stripping undoes adding, and both do with pieces what they do with the whole. -/
theorem crlf_round_trip {x : List Byte} (hx : carriageReturn ∉ x) {addsize stripsize : Int}
    (hadd : (crlfAdd addsize x).ret ≠ none)
    (hstrip : (crlfStrip stripsize (crlfAdd addsize x).dst).ret ≠ none)
    {ps qs : Pieces} {dstsize dstsize' : Int} (hps : ps.Fit crlfAdd dstsize)
    (hqs : qs.Fit crlfStrip dstsize') :
    (crlfStrip stripsize (crlfAdd addsize x).dst).dst = x ∧
      (crlfAdd addsize x).ret = some ((crlfAdd addsize x).dst.length : Int) ∧
      (crlfAdd addsize x).dst.length = x.length + x.count newline ∧
      ps.joined crlfAdd = crlfAdd dstsize ps.whole ∧
      qs.joined crlfStrip = crlfStrip dstsize' qs.whole := by
  refine ⟨?_,?_,?_,@joined_eq crlfAdd addCr (fun _ _ => crlfAdd_some) addCr_flatten _ _ hps,
    @joined_eq crlfStrip stripCr (fun _ _ => crlfStrip_some) stripCr_flatten _ _ hqs⟩
  · rw [crlfStrip_some hstrip,crlfAdd_some hadd]
    exact stripCr_addCr hx
  · rw [crlfAdd_some hadd]
  · rw [crlfAdd_some hadd]
    exact addCr_length x

/-- Two lines, and one that is cut between its return and its newline. -/
theorem crlf_round_trip_lines :
    let x : List Byte := [97,10,98,10]
    let ps : Pieces := [(9,[97,13]),(9,[10,98])]
    (crlfStrip 9 (crlfAdd 9 x).dst).dst = x ∧
      (crlfAdd 9 x).ret = some ((crlfAdd 9 x).dst.length : Int) ∧
      (crlfAdd 9 x).dst.length = x.length + x.count newline ∧
      ps.joined crlfAdd = crlfAdd 9 ps.whole ∧ ps.joined crlfStrip = crlfStrip 9 ps.whole :=
  crlf_round_trip (by decide) (by decide) (by decide) ⟨by decide,by decide⟩ ⟨by decide,by decide⟩

/-! ## The size of the destination -/

/-- A conversion quits exactly when `out` is longer than the destination, and never writes behind
its end. -/
structure UsesAll (dstsize : Int) (out : List Byte) (r : Converted) : Prop where
  quits : r.ret = none ↔ dstsize < out.length
  inside : r.dst.length ≤ dstsize.toNat

theorem crlfAdd_inside (dstsize : Int) (src : List Byte) :
    (crlfAdd dstsize src).dst.length ≤ dstsize.toNat := by
  rw [crlfAdd]
  split
  · exact Nat.zero_le _
  · have hroom := @crlfAddLoop_inside dstsize src src.length [] (by simp) (by omega)
    omega

theorem crlfStrip_inside (dstsize : Int) (src : List Byte) :
    (crlfStrip dstsize src).dst.length ≤ dstsize.toNat :=
  crlfStripLoop_inside src 0 [] rfl (Nat.zero_le _)

/-- The test after the increment is wrong for a conversion that fits exactly and has a newline. -/
theorem crlfAdd_usesAll_iff (dstsize : Int) (src : List Byte) :
    UsesAll dstsize (addCr src) (crlfAdd dstsize src) ↔
      ¬ (newline ∈ src ∧ dstsize = src.length + src.count newline) := by
  have hcount : newline ∈ src ↔ 0 < src.count newline := List.count_pos_iff.symm
  have hlen := addCr_length src
  have hiff : UsesAll dstsize (addCr src) (crlfAdd dstsize src) ↔
      ((crlfAdd dstsize src).ret = none ↔ dstsize < (addCr src).length) :=
    ⟨UsesAll.quits,fun h => ⟨h,crlfAdd_inside dstsize src⟩⟩
  rw [hiff,hcount]
  obtain ⟨hret,hquit⟩ | ⟨heq,hle,hlt⟩ := crlfAdd_cases dstsize src
  · rw [hcount] at hquit
    simp only [hret,true_iff]
    omega
  · rw [hcount] at hlt
    simp only [heq,reduceCtorEq,false_iff]
    omega

theorem crlfStrip_usesAll_iff (dstsize : Int) (src : List Byte) :
    UsesAll dstsize (stripCr src) (crlfStrip dstsize src) ↔
      if stripCr src = [] then 0 ≤ dstsize else dstsize ≠ (stripCr src).length := by
  have hnil : stripCr src = [] ↔ (stripCr src).length = 0 := List.length_eq_zero_iff.symm
  have hiff : UsesAll dstsize (stripCr src) (crlfStrip dstsize src) ↔
      ((crlfStrip dstsize src).ret = none ↔ dstsize < (stripCr src).length) :=
    ⟨UsesAll.quits,fun h => ⟨h,crlfStrip_inside dstsize src⟩⟩
  rw [hiff]
  obtain ⟨hret,hne,hle⟩ | ⟨heq,hlt⟩ := crlfStrip_cases dstsize src
  · rw [if_neg hne]
    simp only [hret,true_iff]
    omega
  · rw [Ne,hnil] at hlt
    simp only [heq,reduceCtorEq,false_iff]
    split
    · rename_i hempty
      rw [hempty,List.length_nil]
      omega
    · rename_i hne
      rw [hnil] at hne
      omega

/-! ## The loop -/

/-- The options that the loop looks at, and the sizes of `rbuf` and `wbuf`. -/
structure SockOptions where
  crlf : Bool
  halfclose : Bool
  msgpeek : Bool
  readlen : Nat
  writelen : Nat

/-- The defaults of `main`, with `-c`. -/
def crlfDefaults : SockOptions := ⟨true,false,false,1024,1024⟩

inductive LoopTcpEnd where
  | selectError | stdinError | shutdownError | writeError | recvError | writenError
  | stdinEof | closed
  | addQuit | stripQuit
  deriving DecidableEq, Repr

/-- Where the loop is: in `select`, about to read, or at its end. `again` is `flags != 0`. -/
inductive LoopPc where
  | select : LoopPc
  | stdin (sock : Bool) : LoopPc
  | sock (again : Bool) : LoopPc
  | exited (e : LoopTcpEnd) : LoopPc
  deriving DecidableEq, Repr

structure LoopTcp where
  pc : LoopPc
  stdineof : Bool
  read : List Byte
  sent : List Byte
  received : List Byte
  shown : List Byte

/-- What the system does: `none` is an error, and `ok` tells of the call that follows. -/
inductive LoopAct where
  | selected (ready : Option (Bool × Bool)) : LoopAct
  | readStdin (r : Option (List Byte)) (ok : Bool) : LoopAct
  | recv (r : Option (List Byte)) (ok : Bool) : LoopAct

namespace LoopTcp

def exit (s : LoopTcp) (e : LoopTcpEnd) : LoopTcp := { s with pc := .exited e }

/-- The rest of the turn behind the test of stdin. -/
def afterStdin (o : SockOptions) (s : LoopTcp) (sock : Bool) : LoopTcp :=
  { s with pc := if sock then .sock o.msgpeek else .select }

def select (o : SockOptions) (s : LoopTcp) : Option (Bool × Bool) → Option LoopTcp
  | none => some (s.exit .selectError)
  | some (stdin,sock) =>
    if stdin && s.stdineof then none
    else if stdin then some { s with pc := .stdin sock }
    else some (s.afterStdin o sock)

/-- What is written for the bytes that were read, unless the conversion quits. -/
def converted (o : SockOptions) (convert : Int → List Byte → Converted) (bs : List Byte) :
    Converted :=
  if o.crlf then convert o.writelen bs else ⟨bs,some bs.length⟩

def stdin (o : SockOptions) (s : LoopTcp) (sock : Bool) (r : Option (List Byte)) (ok : Bool) :
    LoopTcp :=
  match r with
  | none => s.exit .stdinError
  | some [] =>
    if o.halfclose then
      if ok then { s with stdineof := true, pc := .select } else s.exit .shutdownError
    else s.exit .stdinEof
  | some (b :: bs) =>
    let c := converted o crlfAdd (b :: bs)
    if c.ret = none then s.exit .addQuit
    else if ok then
      { s with read := s.read ++ b :: bs, sent := s.sent ++ c.dst }.afterStdin o sock
    else s.exit .writeError

def recv (o : SockOptions) (s : LoopTcp) (again : Bool) (r : Option (List Byte)) (ok : Bool) :
    LoopTcp :=
  match r with
  | none => s.exit .recvError
  | some [] => s.exit .closed
  | some (b :: bs) =>
    let c := converted o crlfStrip (b :: bs)
    if c.ret = none then s.exit .stripQuit
    else if ok then
      { s with
        received := s.received ++ b :: bs
        shown := s.shown ++ c.dst
        pc := if again then .sock false else .select }
    else s.exit .writenError

def step (o : SockOptions) (s : LoopTcp) : LoopAct → Option LoopTcp
  | .selected ready => if s.pc = .select then s.select o ready else none
  | .readStdin r ok =>
    match s.pc with
    | .stdin sock => if (r.getD []).length ≤ o.readlen then some (s.stdin o sock r ok) else none
    | _ => none
  | .recv r ok =>
    match s.pc with
    | .sock again => if (r.getD []).length ≤ o.readlen then some (s.recv o again r ok) else none
    | _ => none

def machine (o : SockOptions) : Machine LoopTcp LoopAct :=
  ⟨⟨.select,false,[],[],[],[]⟩,step o⟩

section
variable {o : SockOptions} {s t : LoopTcp} {a : LoopAct}

/-- Bytes that fill the buffer and lose nothing in the conversion. -/
def FullRecv (o : SockOptions) (bs : List Byte) : Prop :=
  bs ≠ [] ∧ bs.length = o.readlen ∧ carriageReturn ∉ bs

/-- When the buffers are equal, these are the bytes that the conversion quits for. -/
theorem crlfStrip_full_iff (heq : o.writelen = o.readlen) {bs : List Byte}
    (hle : bs.length ≤ o.readlen) : (crlfStrip o.writelen bs).ret = none ↔ FullRecv o bs := by
  have hfilter : (stripCr bs).length = bs.length ↔ carriageReturn ∉ bs := by
    rw [stripCr,List.length_filter_eq_length_iff]
    refine ⟨fun h hmem => absurd (h _ hmem) (by simp),fun h c hc => ?_⟩
    rw [decide_eq_true_eq]
    rintro rfl
    exact h hc
  have hlen : (stripCr bs).length ≤ bs.length := List.length_filter_le _ _
  rw [crlfStrip_none_iff,FullRecv,heq,← hfilter]
  have hnil : stripCr bs = [] ↔ (stripCr bs).length = 0 := List.length_eq_zero_iff.symm
  have hnil' : bs = [] ↔ bs.length = 0 := List.length_eq_zero_iff.symm
  rw [Ne,Ne,hnil,hnil']
  omega

theorem recv_strip_iff (hcrlf : o.crlf = true) (heq : o.writelen = o.readlen) {again ok : Bool}
    {r : Option (List Byte)} (hle : (r.getD []).length ≤ o.readlen) :
    (s.recv o again r ok).pc = .exited .stripQuit ↔ ∃ bs, r = some bs ∧ FullRecv o bs := by
  rcases r with _ | _ | ⟨b,bs⟩
  · simp [recv,exit]
  · simp [recv,exit,FullRecv]
  · have hfull := crlfStrip_full_iff heq hle
    rw [Option.getD_some] at hfull
    simp only [recv,converted,if_pos hcrlf,Option.some.injEq,exists_eq_left',← hfull]
    split
    · rename_i hret
      simp [hret,exit]
    · rename_i hret
      refine iff_of_false ?_ hret
      cases ok <;> cases again <;> simp [exit]

theorem exited_step {e : LoopTcpEnd} (h : s.pc = .exited e) (a : LoopAct) : step o s a = none := by
  cases a <;> simp [step,h]

/-- A step that does not receive keeps the bytes, or sends what it has read. -/
inductive LoopStep (o : SockOptions) (s : LoopTcp) : LoopAct → LoopTcp → Prop where
  | quiet {a : LoopAct} {t : LoopTcp} (other : ∀ r ok, a ≠ .recv r ok) (read : t.read = s.read)
      (sent : t.sent = s.sent) (received : t.received = s.received) (shown : t.shown = s.shown)
      (pc : t.pc ≠ .exited .stripQuit) : LoopStep o s a t
  | sends (bs : List Byte) (sock : Bool) (fits : (converted o crlfAdd bs).ret ≠ none) :
      LoopStep o s (.readStdin (some bs) true)
        ({ s with
          read := s.read ++ bs
          sent := s.sent ++ (converted o crlfAdd bs).dst }.afterStdin o sock)
  | recv (again : Bool) {r : Option (List Byte)} (ok : Bool)
      (room : (r.getD []).length ≤ o.readlen) : LoopStep o s (.recv r ok) (s.recv o again r ok)

theorem afterStdin_pc (s : LoopTcp) (sock : Bool) (e : LoopTcpEnd) :
    (s.afterStdin o sock).pc ≠ .exited e := by
  cases sock <;> exact LoopPc.noConfusion

theorem exit_quiet {e : LoopTcpEnd} (ha : ∀ r ok, a ≠ .recv r ok) (he : e ≠ .stripQuit) :
    LoopStep o s a (s.exit e) :=
  .quiet ha rfl rfl rfl rfl fun h => he (LoopPc.exited.inj h)

theorem select_step {ready : Option (Bool × Bool)} (ht : s.select o ready = some t) :
    LoopStep o s (.selected ready) t := by
  rcases ready with _ | ⟨stdin,sock⟩
  · cases ht
    exact exit_quiet nofun nofun
  · simp only [select] at ht
    split at ht
    · cases ht
    · split at ht
      · cases ht
        exact .quiet nofun rfl rfl rfl rfl nofun
      · cases ht
        exact .quiet nofun rfl rfl rfl rfl (afterStdin_pc s sock _)

theorem stdin_step (sock : Bool) (r : Option (List Byte)) (ok : Bool) :
    LoopStep o s (.readStdin r ok) (s.stdin o sock r ok) := by
  rcases r with _ | _ | ⟨b,bs⟩
  · exact exit_quiet nofun nofun
  · simp only [stdin]
    split
    · split
      · exact .quiet nofun rfl rfl rfl rfl nofun
      · exact exit_quiet nofun nofun
    · exact exit_quiet nofun nofun
  · simp only [stdin]
    split
    · exact exit_quiet nofun nofun
    · rename_i hret
      cases ok with
      | false => exact exit_quiet nofun nofun
      | true => exact .sends (b :: bs) sock hret

theorem step_cases (ht : step o s a = some t) : LoopStep o s a t := by
  cases a with
  | selected ready =>
    rw [step] at ht
    split at ht
    · exact select_step ht
    · cases ht
  | readStdin r ok =>
    simp only [step] at ht
    split at ht
    · rename_i sock hpc
      split at ht
      · cases ht
        exact stdin_step sock r ok
      · cases ht
    · cases ht
  | recv r ok =>
    simp only [step] at ht
    split at ht
    · rename_i again hpc
      split at ht
      · rename_i hroom
        cases ht
        exact .recv again ok hroom
      · cases ht
    · cases ht

/-- The strip quits in the steps that receive a full buffer, and in no others. -/
theorem step_strip_iff (hcrlf : o.crlf = true) (heq : o.writelen = o.readlen)
    (ht : step o s a = some t) :
    t.pc = .exited .stripQuit ↔ ∃ bs ok, a = .recv (some bs) ok ∧ FullRecv o bs := by
  cases step_cases ht with
  | quiet other read sent received shown pc =>
    exact iff_of_false pc fun ⟨bs,ok,ha,_⟩ => other (some bs) ok ha
  | sends bs sock fits => exact iff_of_false (afterStdin_pc _ sock _) nofun
  | recv again ok room =>
    rw [recv_strip_iff hcrlf heq room]
    simp [and_assoc]

/-- With equal buffers, a run ends in the strip exactly when the peer has filled one without a
carriage return. -/
theorem strip_run_iff (hcrlf : o.crlf = true) (heq : o.writelen = o.readlen) {as : List LoopAct}
    (hs : (machine o).run (machine o).init as = some s) :
    s.pc = .exited .stripQuit ↔ ∃ q bs ok,
      (q,LoopAct.recv (some bs) ok) ∈ (machine o).trace (machine o).init as ∧ FullRecv o bs := by
  constructor
  · intro hquit
    by_contra hnone
    have hinit : (machine o).init.pc ≠ .exited .stripQuit := LoopPc.noConfusion
    refine @Machine.avoiding_invariant _ _ (machine o)
      (fun _ a => ∃ bs ok, a = .recv (some bs) ok ∧ FullRecv o bs)
      (fun s => s.pc ≠ .exited .stripQuit) hinit ?_ as s hs ?_ hquit
    · intro q a t _ _ hgood ht hpc
      exact hgood ((@step_strip_iff o q t a hcrlf heq ht).mp hpc)
    · rintro q _ hq ⟨bs,ok,rfl,hfull⟩
      exact hnone ⟨q,bs,ok,hq,hfull⟩
  · rintro ⟨q,bs,ok,hq,hfull⟩
    obtain ⟨as,cs,rfl,hrun⟩ := Machine.mem_trace_iff.mp hq
    rw [Machine.run_append,hrun,Option.bind_some,Machine.run_cons] at hs
    obtain ⟨t,ht,hrest⟩ := Option.bind_eq_some_iff.mp hs
    have hpc := (@step_strip_iff o q t (.recv (some bs) ok) hcrlf heq ht).mpr ⟨bs,ok,rfl,hfull⟩
    -- nothing happens after the end
    cases cs with
    | nil =>
      cases hrest
      exact hpc
    | cons a cs =>
      rw [Machine.run_cons] at hrest
      change (step o t a).bind _ = _ at hrest
      rw [exited_step hpc] at hrest
      cases hrest

/-- What the loop has sent and shown is the conversion of what it has read and received. -/
structure Converts (o : SockOptions) (s : LoopTcp) : Prop where
  sent : s.sent = if o.crlf then addCr s.read else s.read
  shown : s.shown = if o.crlf then stripCr s.received else s.received

theorem converted_add {bs : List Byte} (h : (converted o crlfAdd bs).ret ≠ none) :
    (converted o crlfAdd bs).dst = if o.crlf then addCr bs else bs := by
  rw [converted] at h ⊢
  split
  · rename_i hcrlf
    rw [if_pos hcrlf] at h
    rw [crlfAdd_some h]
  · rfl

theorem converted_strip {bs : List Byte} (h : (converted o crlfStrip bs).ret ≠ none) :
    (converted o crlfStrip bs).dst = if o.crlf then stripCr bs else bs := by
  rw [converted] at h ⊢
  split
  · rename_i hcrlf
    rw [if_pos hcrlf] at h
    rw [crlfStrip_some h]
  · rfl

theorem addCr_append (x y : List Byte) : addCr (x ++ y) = addCr x ++ addCr y :=
  List.flatMap_append

theorem stripCr_append (x y : List Byte) : stripCr (x ++ y) = stripCr x ++ stripCr y :=
  List.filter_append ..

theorem recv_converts (h : Converts o s) (again : Bool) (r : Option (List Byte)) (ok : Bool) :
    Converts o (s.recv o again r ok) := by
  obtain ⟨hsent,hshown⟩ := h
  rcases r with _ | _ | ⟨b,bs⟩
  · exact ⟨hsent,hshown⟩
  · exact ⟨hsent,hshown⟩
  · simp only [recv]
    split
    · exact ⟨hsent,hshown⟩
    · rename_i hret
      cases ok with
      | false => exact ⟨hsent,hshown⟩
      | true =>
        refine ⟨hsent,?_⟩
        simp only [if_true,hshown,converted_strip hret,stripCr_append]
        split <;> rfl

theorem step_converts (h : Converts o s) (ht : step o s a = some t) : Converts o t := by
  cases step_cases ht with
  | quiet other read sent received shown pc =>
    refine ⟨?_,?_⟩
    · rw [sent,read,h.sent]
    · rw [shown,received,h.shown]
  | sends bs sock fits =>
    refine ⟨?_,h.shown⟩
    simp only [afterStdin,h.sent,converted_add fits,addCr_append]
    split <;> rfl
  | recv again ok room => exact recv_converts h again _ ok

theorem converts_run {as : List LoopAct}
    (hs : (machine o).run (machine o).init as = some s) : Converts o s := by
  refine Machine.run_invariant (fun s a t => step_converts) ?_ hs
  refine ⟨?_,?_⟩ <;> split <;> rfl

end

theorem recv_run (o : SockOptions) {bs : List Byte} (hpeek : o.msgpeek = false)
    (hle : bs.length ≤ o.readlen) :
    (machine o).run (machine o).init [.selected (some (false,true)),.recv (some bs) true] =
      some (recv o ⟨.sock false,false,[],[],[],[]⟩ false (some bs) true) := by
  simp [Machine.run_cons,machine,step,select,afterStdin,hpeek,hle]

end LoopTcp

end UnixNet
