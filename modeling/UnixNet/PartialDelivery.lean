import UnixNet.Library.Machine
import UnixNet.Library.Memory
import UnixNet.ChunkedWrite
set_option autoImplicit false

/-! sctp: `pdapi_recvmsg`, which puts a partially delivered message together. -/

namespace UnixNet
open Memory

def SCTP_PDAPI_INCR_SZ : Nat := 65535
def SCTP_PDAPI_NEED_MORE_THRESHOLD : Nat := 1024
def PTRDIFF_MAX : Nat := 2^63 - 1

/-- An allocation of `n` bytes that keeps the bytes of `old`. -/
def Allocates (old : List Byte) (n : Nat) (cells : List Byte) : Prop :=
  cells.length = n ∧ n ≤ PTRDIFF_MAX ∧ old <+: cells

instance (old : List Byte) (n : Nat) (cells : List Byte) : Decidable (Allocates old n cells) :=
  inferInstanceAs (Decidable (_ ∧ _))

inductive PdapiEnd where
  | mallocError | recvError | outOfMemory | outside
  deriving DecidableEq, Repr

/-- Where the program is: between two calls, at `Malloc`, at the first receive, at `realloc`, or
at the receive of the loop. -/
inductive PdapiPc where
  | idle : PdapiPc
  | malloc : PdapiPc
  | first : PdapiPc
  | realloc : PdapiPc
  | next (left : Int) : PdapiPc
  | exited (e : PdapiEnd) : PdapiPc
  deriving DecidableEq, Repr

/-- The buffer as the caller finds it, or NULL, and `*rdlen`. The pieces are those of the call. -/
structure PdapiReturn where
  readbuf : Option (List Byte)
  rdlen : Int
  pieces : List (List Byte)

/-- The bytes that are the caller's. -/
def PdapiReturn.message (r : PdapiReturn) : Option (List Byte) :=
  r.readbuf.map fun buf => buf.take r.rdlen.toNat

/-- A buffer that is returned holds the pieces, and `*rdlen` is their length. -/
structure PdapiReturn.Whole (r : PdapiReturn) : Prop where
  rdlen : r.rdlen = r.pieces.flatten.length
  message : r.readbuf = none ∨ r.message = some r.pieces.flatten
  nonempty : ∀ piece ∈ r.pieces, piece ≠ []

/-- `pending` are the messages that the peer has sent, less what has been delivered. -/
structure Pdapi where
  pc : PdapiPc
  readbuf : Option (List Byte)
  rdbufSz : Int
  atInBuf : Int
  pieces : List (List Byte)
  pending : List (List Byte)
  returned : List PdapiReturn

/-- `none` is an error. A receive of no bytes tells that there is no peer any more. -/
inductive PdapiAct where
  | call : PdapiAct
  | malloc (r : Option (List Byte)) : PdapiAct
  | realloc (r : Option (List Byte)) : PdapiAct
  | recv (r : Option (List Byte)) : PdapiAct

namespace Pdapi

/-- An `int` as the `size_t` of a call. -/
def sizeT (n : Int) : Nat := (n % 2^64).toNat

/-- Whether a piece has `MSG_EOR`, and what is left to be delivered. -/
def deliver (piece : List Byte) : List (List Byte) → Option (Bool × List (List Byte))
  | [] => none
  | m :: rest =>
    if piece = m then some (true,rest)
    else if piece <+: m then some (false,m.drop piece.length :: rest)
    else none

/-- `&sctp_pdapi_readbuf[at_in_buf]` filled with a piece. -/
def place (readbuf : Option (List Byte)) (atInBuf : Int) (piece : List Byte) : Option (List Byte) :=
  if atInBuf < 0 then none else readbuf.bind fun buf => store buf atInBuf.toNat piece

def exit (s : Pdapi) (e : PdapiEnd) : Pdapi := { s with pc := .exited e }

def ret (s : Pdapi) (readbuf : Option (List Byte)) : Pdapi :=
  { s with
    pc := .idle
    pieces := []
    returned := s.returned ++ [⟨readbuf,s.atInBuf,s.pieces⟩] }

def call (s : Pdapi) : Pdapi :=
  { s with pc := if s.readbuf = none then .malloc else .first, atInBuf := 0 }

def malloc (s : Pdapi) : Option (List Byte) → Option Pdapi
  | none => some (s.exit .mallocError)
  | some cells =>
    if Allocates [] SCTP_PDAPI_INCR_SZ cells then
      some { s with pc := .first, readbuf := some cells, rdbufSz := SCTP_PDAPI_INCR_SZ }
    else none

/-- The test of `left` behind a piece without `MSG_EOR`. -/
def more (s : Pdapi) : Pdapi :=
  let left := toInt (s.rdbufSz - s.atInBuf)
  { s with pc := if left < SCTP_PDAPI_NEED_MORE_THRESHOLD then .realloc else .next left }

def realloc (s : Pdapi) : Option (List Byte) → Option Pdapi
  | none => some (s.exit .outOfMemory)
  | some cells =>
    let rdbufSz := toInt (s.rdbufSz + SCTP_PDAPI_INCR_SZ)
    if Allocates (s.readbuf.getD []) (sizeT rdbufSz) cells then
      some { s with
        pc := .next (toInt (rdbufSz - s.atInBuf))
        readbuf := some cells
        rdbufSz := rdbufSz }
    else none

/-- The buffer after a receive that has stored `piece`. -/
def appended (s : Pdapi) (buf piece : List Byte) : Pdapi :=
  { s with
    readbuf := some buf
    atInBuf := toInt (s.atInBuf + piece.length)
    pieces := s.pieces ++ [piece] }

def received (s : Pdapi) (piece : List Byte) (eor : Bool) : Pdapi :=
  match place s.readbuf s.atInBuf piece with
  | none => s.exit .outside
  | some buf =>
    let t := s.appended buf piece
    if s.pc = .first ∧ t.atInBuf < 1 then t.ret none
    else if eor then t.ret t.readbuf
    else t.more

/-- The space that a receive is given. -/
def offered (s : Pdapi) : Option Int :=
  match s.pc with
  | .first => some s.rdbufSz
  | .next left => some left
  | _ => none

def recv (s : Pdapi) (left : Int) : Option (List Byte) → Option Pdapi
  | none => some (s.exit .recvError)
  -- inside a message every receive brings at least one byte
  | some [] => if s.pc = .first then some (s.ret none) else none
  | some (b :: bs) =>
    if sizeT left < (b :: bs).length then none
    else (deliver (b :: bs) s.pending).map fun r =>
      { s with pending := r.2 }.received (b :: bs) r.1

def step (s : Pdapi) : PdapiAct → Option Pdapi
  | .call => if s.pc = .idle then some s.call else none
  | .malloc r => if s.pc = .malloc then s.malloc r else none
  | .realloc r => if s.pc = .realloc then s.realloc r else none
  | .recv r => s.offered.bind fun left => s.recv left r

def machine (messages : List (List Byte)) : Machine Pdapi PdapiAct :=
  ⟨⟨.idle,none,0,0,[],messages,[]⟩,step⟩

/-- The messages, when `got` has been delivered of the first one. -/
def resume (got : List Byte) : List (List Byte) → List (List Byte)
  | [] => []
  | m :: rest => (got ++ m) :: rest

/-- The buffer with its size, which an `int` holds. -/
structure Sized (s : Pdapi) (buf : List Byte) : Prop where
  readbuf : s.readbuf = some buf
  size : s.rdbufSz = buf.length
  incr : SCTP_PDAPI_INCR_SZ ≤ buf.length
  int : buf.length < 2^31

/-- The buffer starts with the pieces of the call. -/
structure Filled (s : Pdapi) (buf : List Byte) : Prop extends Sized s buf where
  atInBuf : s.atInBuf = s.pieces.flatten.length
  pieces : s.pieces.flatten <+: buf

def AtPc (s : Pdapi) : PdapiPc → Prop
  | .idle => s.pieces = [] ∧ (s.readbuf = none ∨ ∃ buf, s.Sized buf)
  | .malloc => s.pieces = [] ∧ s.atInBuf = 0
  | .first => s.pieces = [] ∧ ∃ buf, s.Filled buf
  | .realloc => s.pieces ≠ [] ∧ ∃ buf, s.Filled buf
  | .next left =>
    s.pieces ≠ [] ∧ (∃ buf, s.Filled buf) ∧ left = s.rdbufSz - s.atInBuf ∧
      SCTP_PDAPI_NEED_MORE_THRESHOLD ≤ left
  | .exited e => e ≠ .outside

/-- A receive that is given `left` bytes stays inside of the buffer. -/
structure Room (s : Pdapi) (left : Int) (buf : List Byte) : Prop extends Sized s buf where
  start : 0 ≤ s.atInBuf
  nonneg : 0 ≤ left
  fits : s.atInBuf + left ≤ s.rdbufSz
  threshold : s.pieces ≠ [] → SCTP_PDAPI_NEED_MORE_THRESHOLD ≤ left

structure Inv (messages : List (List Byte)) (s : Pdapi) : Prop where
  atPc : s.AtPc s.pc
  whole : ∀ r ∈ s.returned, r.Whole
  nonempty : ∀ piece ∈ s.pieces, piece ≠ []
  delivered :
    s.returned.filterMap PdapiReturn.message ++ resume s.pieces.flatten s.pending = messages

section
variable {messages pending : List (List Byte)} {s t : Pdapi} {buf piece cells : List Byte}

@[simp] theorem resume_nil (l : List (List Byte)) : resume [] l = l := by cases l <;> rfl

theorem deliver_some {eor : Bool} {rest : List (List Byte)}
    (h : deliver piece pending = some (eor,rest)) : ∃ m ms, pending = m :: ms ∧
      (eor = true ∧ piece = m ∧ rest = ms ∨
        eor = false ∧ ∃ l, m = piece ++ l ∧ rest = l :: ms) := by
  cases pending with
  | nil => cases h
  | cons m ms =>
    refine ⟨m,ms,rfl,?_⟩
    rw [deliver] at h
    split at h
    · rename_i heq
      cases h
      exact .inl ⟨rfl,heq,rfl⟩
    · split at h
      · rename_i hpre
        obtain ⟨l,rfl⟩ := hpre
        cases h
        exact .inr ⟨rfl,l,rfl,by rw [List.drop_left]⟩
      · cases h

theorem Sized.keep (h : s.Sized buf) (hreadbuf : t.readbuf = s.readbuf)
    (hsize : t.rdbufSz = s.rdbufSz) : t.Sized buf :=
  ⟨hreadbuf.trans h.readbuf,hsize.trans h.size,h.incr,h.int⟩

theorem Sized.filled (h : s.Sized buf) (hzero : s.atInBuf = 0) (hnil : s.pieces = []) :
    s.Filled buf := by
  refine ⟨h,?_,?_⟩
  · rw [hzero,hnil]
    rfl
  · rw [hnil]
    exact List.nil_prefix

theorem Inv.known (h : Inv messages s) {pc : PdapiPc} (hpc : s.pc = pc) : s.AtPc pc := by
  rw [← hpc]
  exact h.atPc

theorem appended_pieces (s : Pdapi) (buf piece : List Byte) :
    (s.appended buf piece).pieces.flatten = s.pieces.flatten ++ piece := by
  rw [appended,List.flatten_append,List.flatten_singleton]

theorem Filled.left (h : s.Filled buf) :
    toInt (s.rdbufSz - s.atInBuf) = s.rdbufSz - s.atInBuf := by
  have hle := h.pieces.length_le
  rw [h.size,h.atInBuf,← Nat.cast_sub hle]
  exact toInt_of_lt (Nat.lt_of_le_of_lt (Nat.sub_le _ _) h.int)

/-- A larger buffer is one that has no more than 2^31 bytes: past that the size is negative, and
as a `size_t` it is too large. -/
theorem realloc_grows (hint : buf.length < 2^31)
    (h : Allocates buf (sizeT (toInt (buf.length + SCTP_PDAPI_INCR_SZ : Nat))) cells) :
    toInt (buf.length + SCTP_PDAPI_INCR_SZ : Nat) = cells.length ∧
      cells.length = buf.length + SCTP_PDAPI_INCR_SZ ∧ cells.length < 2^31 := by
  obtain ⟨hlen,hmax,-⟩ := h
  rw [hlen]
  by_cases hlt : buf.length + SCTP_PDAPI_INCR_SZ < 2^31
  · rw [toInt_of_lt hlt,sizeT]
    omega
  · exfalso
    have hneg : toInt (buf.length + SCTP_PDAPI_INCR_SZ : Nat) =
        (buf.length + SCTP_PDAPI_INCR_SZ : Nat) - 2^32 := by
      rw [toInt,Int.bmod_def]
      unfold SCTP_PDAPI_INCR_SZ at hlt ⊢
      omega
    rw [hneg,sizeT] at hmax
    unfold PTRDIFF_MAX SCTP_PDAPI_INCR_SZ at hmax
    unfold SCTP_PDAPI_INCR_SZ at hlt
    omega

/-- A piece that fits into the offered space is appended to the others. -/
theorem Filled.place (h : s.Filled buf) (hfits : s.atInBuf + piece.length ≤ s.rdbufSz) :
    ∃ buf', place s.readbuf s.atInBuf piece = some buf' ∧ (s.appended buf' piece).Filled buf' := by
  obtain ⟨rest,hbuf⟩ := h.pieces
  have hlen : s.pieces.flatten.length + rest.length = buf.length := by
    rw [← hbuf,List.length_append]
  have hint := h.int
  rw [h.size,h.atInBuf] at hfits
  have hstore : store buf s.pieces.flatten.length piece =
      some (s.pieces.flatten ++ (piece ++ rest.drop piece.length)) := by
    have hold : (rest.take piece.length).length = piece.length := by
      rw [List.length_take]
      omega
    rw [← store_middle _ _ hold,List.take_append_drop,hbuf]
  have hadd : toInt (s.atInBuf + piece.length) =
      (s.pieces.flatten.length + piece.length : Nat) := by
    rw [h.atInBuf,← Nat.cast_add]
    exact toInt_of_lt (by omega)
  have hsize := store_length hstore
  refine ⟨s.pieces.flatten ++ (piece ++ rest.drop piece.length),?_,⟨⟨rfl,?_,?_,?_⟩,?_,?_⟩⟩
  · rw [Pdapi.place,h.atInBuf,if_neg (by omega),h.readbuf,Option.bind_some,Int.toNat_natCast,hstore]
  · rw [hsize]
    exact h.size
  · rw [hsize]
    exact h.incr
  · rw [hsize]
    exact hint
  · rw [appended_pieces,List.length_append]
    exact hadd
  · rw [appended_pieces,← List.append_assoc]
    exact List.prefix_append _ _

theorem Filled.whole (h : s.Filled buf) (hne : ∀ piece ∈ s.pieces, piece ≠ []) :
    PdapiReturn.Whole ⟨some buf,s.atInBuf,s.pieces⟩ := by
  refine ⟨h.atInBuf,.inr ?_,hne⟩
  rw [PdapiReturn.message,Option.map_some,h.atInBuf,Int.toNat_natCast,
    ← List.prefix_iff_eq_take.mp h.pieces]

theorem Inv.exit (h : Inv messages s) {e : PdapiEnd} (he : e ≠ .outside) :
    Inv messages (s.exit e) := ⟨he,h.whole,h.nonempty,h.delivered⟩

theorem call_inv (h : Inv messages s) (hpc : s.pc = .idle) : Inv messages s.call := by
  obtain ⟨hnil,hbuf⟩ := h.known hpc
  refine ⟨?_,h.whole,h.nonempty,h.delivered⟩
  rcases hbuf with hnone | ⟨buf,hsized⟩
  · have hpc : s.call.pc = .malloc := if_pos hnone
    rw [hpc]
    exact ⟨hnil,rfl⟩
  · have hsome : s.readbuf ≠ none := by
      rw [hsized.readbuf]
      exact Option.some_ne_none buf
    have hcall : s.call.Sized buf := hsized.keep rfl rfl
    have hpc : s.call.pc = .first := if_neg hsome
    rw [hpc]
    exact ⟨hnil,buf,hcall.filled rfl hnil⟩

theorem malloc_inv (h : Inv messages s) (hpc : s.pc = .malloc) {r : Option (List Byte)}
    (ht : s.malloc r = some t) : Inv messages t := by
  obtain ⟨hnil,hzero⟩ := h.known hpc
  cases r with
  | none =>
    cases ht
    exact h.exit (by decide)
  | some cells =>
    rw [malloc] at ht
    split at ht
    · rename_i halloc
      cases ht
      have hlen := halloc.1
      have hsized : Sized { s with
          pc := .first
          readbuf := some cells
          rdbufSz := SCTP_PDAPI_INCR_SZ } cells := by
        refine ⟨rfl,?_,Nat.le_of_eq hlen.symm,?_⟩
        · rw [hlen]
        · rw [hlen]
          decide
      exact ⟨⟨hnil,cells,hsized.filled hzero hnil⟩,h.whole,h.nonempty,h.delivered⟩
    · cases ht

theorem realloc_inv (h : Inv messages s) (hpc : s.pc = .realloc) {r : Option (List Byte)}
    (ht : s.realloc r = some t) : Inv messages t := by
  obtain ⟨hne,buf,hfill⟩ := h.known hpc
  cases r with
  | none =>
    cases ht
    exact h.exit (by decide)
  | some cells =>
    simp only [realloc] at ht
    split at ht
    · rename_i halloc
      cases ht
      rw [hfill.readbuf,Option.getD_some,hfill.size,← Nat.cast_add] at halloc
      obtain ⟨hsize,hlen,hint⟩ := realloc_grows hfill.int halloc
      have hincr := hfill.incr
      have hgrown : Filled { s with
          pc := .next (toInt (toInt (s.rdbufSz + SCTP_PDAPI_INCR_SZ) - s.atInBuf))
          readbuf := some cells
          rdbufSz := toInt (s.rdbufSz + SCTP_PDAPI_INCR_SZ) } cells := by
        refine ⟨⟨rfl,?_,by omega,hint⟩,hfill.atInBuf,hfill.pieces.trans halloc.2.2⟩
        change toInt _ = _
        rw [hfill.size,← Nat.cast_add,hsize]
      refine ⟨⟨hne,⟨cells,hgrown⟩,hgrown.left,?_⟩,h.whole,h.nonempty,h.delivered⟩
      -- the new cells alone are enough
      have hle := hfill.pieces.length_le
      rw [hgrown.left,hgrown.size,hgrown.atInBuf]
      change (SCTP_PDAPI_NEED_MORE_THRESHOLD : Int) ≤ cells.length - s.pieces.flatten.length
      unfold SCTP_PDAPI_NEED_MORE_THRESHOLD
      unfold SCTP_PDAPI_INCR_SZ at hlen
      omega
    · cases ht

theorem Inv.room (h : Inv messages s) {left : Int} (hleft : s.offered = some left) :
    ∃ buf, s.Filled buf ∧ s.Room left buf := by
  rw [offered] at hleft
  split at hleft
  · rename_i hpc
    cases hleft
    obtain ⟨hnil,buf,hfill⟩ := h.known hpc
    have hsize := hfill.size
    have hstart := hfill.atInBuf
    rw [hnil,List.flatten_nil,List.length_nil] at hstart
    exact ⟨buf,hfill,hfill.toSized,by omega,by omega,by omega,fun hne => absurd hnil hne⟩
  · rename_i left' hpc
    cases hleft
    obtain ⟨-,⟨buf,hfill⟩,heq,hle⟩ := h.known hpc
    have hstart := hfill.atInBuf
    exact ⟨buf,hfill,hfill.toSized,by omega,by omega,by omega,fun _ => hle⟩
  · cases hleft

theorem more_atPc (h : s.Filled buf) (hne : s.pieces ≠ []) : s.more.AtPc s.more.pc := by
  have hmore : s.more.Filled buf := ⟨h.toSized.keep rfl rfl,h.atInBuf,h.pieces⟩
  by_cases hlt : toInt (s.rdbufSz - s.atInBuf) < SCTP_PDAPI_NEED_MORE_THRESHOLD
  · have hpc : s.more.pc = .realloc := if_pos hlt
    rw [hpc]
    exact ⟨hne,buf,hmore⟩
  · have hpc : s.more.pc = .next (toInt (s.rdbufSz - s.atInBuf)) := if_neg hlt
    rw [hpc]
    exact ⟨hne,⟨buf,hmore⟩,h.left,Int.not_lt.mp hlt⟩

/-- A piece that is stored ends the call when it has `MSG_EOR`. -/
theorem received_eq (h : s.Filled buf) (hne : piece ≠ [])
    (hfits : s.atInBuf + piece.length ≤ s.rdbufSz) (eor : Bool) :
    ∃ buf', (s.appended buf' piece).Filled buf' ∧ s.received piece eor =
      if eor then (s.appended buf' piece).ret (some buf') else (s.appended buf' piece).more := by
  obtain ⟨buf',hplace,hfill⟩ := h.place hfits
  have hpos : ¬ (s.appended buf' piece).atInBuf < 1 := by
    rw [hfill.atInBuf,appended_pieces,List.length_append]
    have hlen := List.length_pos_iff.mpr hne
    omega
  refine ⟨buf',hfill,?_⟩
  simp only [received,hplace,hpos,and_false,if_false]
  rfl

theorem ret_whole (hwhole : ∀ r ∈ s.returned, r.Whole) {r : PdapiReturn} (hr : r.Whole) :
    ∀ q ∈ s.returned ++ [r], q.Whole := by
  intro q hq
  rcases List.mem_append.mp hq with hq | hq
  · exact hwhole q hq
  · rw [List.mem_singleton.mp hq]
    exact hr

theorem closed_inv (h : Inv messages s) (hfill : s.Filled buf) (hnil : s.pieces = []) :
    Inv messages (s.ret none) := by
  refine ⟨⟨rfl,.inr ⟨buf,hfill.toSized.keep rfl rfl⟩⟩,
    ret_whole h.whole ⟨hfill.atInBuf,.inl rfl,h.nonempty⟩,List.forall_mem_nil _,?_⟩
  have hdelivered := h.delivered
  rw [hnil] at hdelivered
  rw [ret,List.filterMap_append,List.filterMap_cons_none rfl,List.filterMap_nil,List.append_nil]
  exact hdelivered

theorem ret_inv (hfill : s.Filled buf) (hwhole : ∀ r ∈ s.returned, r.Whole)
    (hne : ∀ piece ∈ s.pieces, piece ≠ [])
    (hdelivered : s.returned.filterMap PdapiReturn.message ++ s.pieces.flatten :: s.pending =
      messages) : Inv messages (s.ret (some buf)) := by
  have hret := hfill.whole hne
  refine ⟨⟨rfl,.inr ⟨buf,hfill.toSized.keep rfl rfl⟩⟩,ret_whole hwhole hret,
    List.forall_mem_nil _,?_⟩
  have hmessage := hret.message.resolve_left (Option.some_ne_none buf)
  rw [ret,List.filterMap_append,List.filterMap_cons_some hmessage,List.filterMap_nil,
    List.append_assoc]
  change _ ++ ([s.pieces.flatten] ++ resume [] s.pending) = messages
  rw [resume_nil]
  exact hdelivered

theorem piece_inv (h : Inv messages s) (hfill : s.Filled buf) (hne : piece ≠ [])
    (hfits : s.atInBuf + piece.length ≤ s.rdbufSz) {eor : Bool} {rest : List (List Byte)}
    (hdeliver : deliver piece s.pending = some (eor,rest)) :
    Inv messages ({ s with pending := rest }.received piece eor) := by
  obtain ⟨m,ms,hpending,hcases⟩ := deliver_some hdeliver
  have hdelivered := h.delivered
  rw [hpending] at hdelivered
  have hpend : Filled { s with pending := rest } buf :=
    ⟨hfill.toSized.keep rfl rfl,hfill.atInBuf,hfill.pieces⟩
  obtain ⟨buf',hfill',heq⟩ := received_eq hpend hne hfits eor
  have hpieces : ∀ p ∈ s.pieces ++ [piece], p ≠ [] := by
    intro p hp
    rcases List.mem_append.mp hp with hp | hp
    · exact h.nonempty p hp
    · rw [List.mem_singleton.mp hp]
      exact hne
  rw [heq]
  obtain ⟨rfl,rfl,rfl⟩ | ⟨rfl,l,rfl,rfl⟩ := hcases
  · refine ret_inv hfill' h.whole hpieces ?_
    rw [appended_pieces]
    exact hdelivered
  · refine ⟨more_atPc hfill' (by simp [appended]),h.whole,hpieces,?_⟩
    change _ ++ resume (Pdapi.appended _ buf' piece).pieces.flatten (l :: ms) = messages
    rw [appended_pieces,resume,List.append_assoc]
    exact hdelivered

theorem recv_inv (h : Inv messages s) {left : Int} (hleft : s.offered = some left)
    {r : Option (List Byte)} (ht : s.recv left r = some t) : Inv messages t := by
  obtain ⟨buf,hfill,hroom⟩ := h.room hleft
  rcases r with _ | _ | ⟨b,bs⟩
  · cases ht
    exact h.exit (by decide)
  · obtain ⟨hpc,ht⟩ := Option.ite_none_right_eq_some.mp ht
    cases ht
    exact closed_inv h hfill (h.known hpc).1
  · obtain ⟨hsize,ht⟩ := Option.ite_none_left_eq_some.mp ht
    obtain ⟨⟨eor,rest⟩,hdeliver,rfl⟩ := Option.map_eq_some_iff.mp ht
    refine piece_inv h hfill (List.cons_ne_nil b bs) ?_ hdeliver
    have hle := hroom.fits
    have hnonneg := hroom.nonneg
    rw [sizeT] at hsize
    omega

theorem step_inv {a : PdapiAct} (h : Inv messages s) (ht : s.step a = some t) : Inv messages t := by
  cases a with
  | call =>
    obtain ⟨hpc,ht⟩ := Option.ite_none_right_eq_some.mp ht
    cases ht
    exact call_inv h hpc
  | malloc r =>
    obtain ⟨hpc,ht⟩ := Option.ite_none_right_eq_some.mp ht
    exact malloc_inv h hpc ht
  | realloc r =>
    obtain ⟨hpc,ht⟩ := Option.ite_none_right_eq_some.mp ht
    exact realloc_inv h hpc ht
  | recv r =>
    obtain ⟨left,hleft,hrecv⟩ := Option.bind_eq_some_iff.mp ht
    exact recv_inv h hleft hrecv

theorem init_inv (messages : List (List Byte)) : Inv messages (machine messages).init := by
  have hidle : (machine messages).init.AtPc .idle := ⟨rfl,.inl rfl⟩
  exact ⟨hidle,List.forall_mem_nil _,List.forall_mem_nil _,resume_nil _⟩

theorem reachable_inv (hs : (machine messages).Reachable s) : Inv messages s :=
  hs.invariant (init_inv messages) fun _ _ _ h ht => step_inv h ht

end
end Pdapi

/-- The buffers that were returned hold the messages from the first one on, and every receive was
given a part of the buffer. -/
structure Reassembles (messages : List (List Byte)) (trace : List (Pdapi × PdapiAct)) (s : Pdapi) :
    Prop where
  whole : ∀ r ∈ s.returned, r.Whole
  messages : s.returned.filterMap PdapiReturn.message <+: messages
  room : ∀ q r, (q,.recv r) ∈ trace → ∃ left buf, q.offered = some left ∧ q.Room left buf
  inside : s.pc ≠ .exited .outside

/-- This holds for every way to deliver the messages in pieces. -/
theorem pdapi_reassembles (messages : List (List Byte)) {as : List PdapiAct} {s : Pdapi}
    (hs : (Pdapi.machine messages).run (Pdapi.machine messages).init as = some s) :
    Reassembles messages ((Pdapi.machine messages).trace (Pdapi.machine messages).init as) s := by
  have hinv : Pdapi.Inv messages s := Pdapi.reachable_inv ⟨as,hs⟩
  refine ⟨hinv.whole,?_,?_,?_⟩
  · rw [← hinv.delivered]
    exact List.prefix_append _ _
  · intro q r hq
    obtain ⟨hreach,t,ht⟩ := Machine.mem_trace (Machine.reachable_init _) hs hq
    obtain ⟨left,hleft,-⟩ := Option.bind_eq_some_iff.mp ht
    obtain ⟨buf,-,hroom⟩ := (Pdapi.reachable_inv hreach).room hleft
    exact ⟨left,buf,hleft,hroom⟩
  · intro hpc
    exact hinv.known hpc rfl

/-- A first piece that leaves less than the threshold, and the last one in the larger buffer. -/
theorem pdapi_grown_run (b c : Byte) (bs cs cells extra : List Byte) (hcells : cells.length = 65535)
    (hbs : bs.length = 64999) (hcs : cs.length = 1) (hextra : extra.length = 65535) :
    ∃ s, (Pdapi.machine [(b :: bs) ++ c :: cs]).run (Pdapi.machine [(b :: bs) ++ c :: cs]).init
        [.call,.malloc (some cells),.recv (some (b :: bs)),
          .realloc (some ((b :: bs) ++ (cells.drop 65000 ++ extra))),.recv (some (c :: cs))] =
        some s ∧
      s.returned.filterMap PdapiReturn.message = [(b :: bs) ++ c :: cs] := by
  simp [Pdapi.machine,Machine.run_cons,Pdapi.step,Pdapi.call,Pdapi.malloc,Allocates,
    SCTP_PDAPI_INCR_SZ,PTRDIFF_MAX,Pdapi.offered,Pdapi.recv,Pdapi.sizeT,Pdapi.deliver,hcells,
    Pdapi.received,hbs,Pdapi.place,store,Pdapi.appended,toInt,Pdapi.more,Pdapi.ret,Pdapi.realloc,
    hextra,hcs,SCTP_PDAPI_NEED_MORE_THRESHOLD,PdapiReturn.message,List.take_append]

theorem pdapi_reassembles_grown :
    let message : List Byte := (7 :: List.replicate 64999 7) ++ [1,2]
    ∃ as s, (Pdapi.machine [message]).run (Pdapi.machine [message]).init as = some s ∧
      s.returned.filterMap PdapiReturn.message = [message] ∧
      Reassembles [message]
        ((Pdapi.machine [message]).trace (Pdapi.machine [message]).init as) s := by
  intro message
  obtain ⟨s,hs,hreturned⟩ := pdapi_grown_run 7 1 (List.replicate 64999 7) [2]
    (List.replicate 65535 0) (List.replicate 65535 0) List.length_replicate List.length_replicate
    rfl List.length_replicate
  exact ⟨_,s,hs,hreturned,pdapi_reassembles [message] hs⟩

end UnixNet
