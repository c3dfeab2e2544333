import UnixNet.PacketFields
set_option autoImplicit false

/-! `get_ifi_info` with `SIOCGIFCONF`: the walk over the buffer, on x86-64 Linux. -/

namespace UnixNet
open Inspect

namespace Ifr

def IFNAMSIZ : Nat := 16
def AF_INET : Nat := 2
def AF_INET6 : Nat := 10
def sizeofSockaddr : Nat := 16
def sizeofSockaddrIn6 : Nat := 28

/-- `sizeof(struct ifreq)`: a name and a union of 24 bytes. -/
def sizeofIfreq : Nat := IFNAMSIZ + 24

def colon : Byte := 58

/-- The arguments of `get_ifi_info`, and what the calls for a name give: whether the interface is
up, and whether the calls behind `SIOCGIFFLAGS` succeed. -/
structure Walk where
  family : Nat
  doaliases : Bool
  flags : List Byte → Option Bool
  rest : List Byte → Bool

/-- How far `ptr` moves, the colon that is overwritten and the new `lastname`; or the process has
ended. -/
inductive Visit where
  | next (stride : Nat) (cptr : Option Nat) (lastname : List Byte)
  | exited

/-- The name at `p` up to a colon or NUL, and whether it is a colon. -/
def strchr (p : Nat) : Nat → Field (List Byte × Bool)
  | 0 => pure ([],false)
  | k+1 => do
    let b ← cell p
    if b = 0 then pure ([],false)
    else if b = colon then pure ([],true)
    else
      let s ← strchr (p + 1) k
      pure (b :: s.1,s.2)

/-- The size that is chosen by `sa_family`. -/
def addrLen (sa_family : Nat) : Nat :=
  if sa_family = AF_INET6 then sizeofSockaddrIn6 else sizeofSockaddr

/-- The body of the loop. -/
def Walk.visit (w : Walk) (ifc_len ptr : Nat) (lastname : List Byte) : Field Visit := do
  let sa_family ← hostShort (ptr + IFNAMSIZ)
  let len := addrLen sa_family
  let stride := IFNAMSIZ + len
  if sa_family ≠ w.family then pure (.next stride none lastname)
  else
    let name ← strchr ptr (ifc_len - ptr + 1)
    let cptr := if name.2 then some (ptr + name.1.length) else none
    if name.1.take IFNAMSIZ = lastname ∧ w.doaliases = false then
      pure (.next stride cptr lastname)
    else
      let _ifrcopy ← cells ptr sizeofIfreq
      match w.flags name.1 with
      | none => pure .exited
      | some up =>
        if up = false then pure (.next stride cptr (name.1.take IFNAMSIZ))
        else
          let _ifi_addr ← cells (ptr + IFNAMSIZ) len
          if w.rest name.1 then pure (.next stride cptr (name.1.take IFNAMSIZ))
          else pure .exited

/-- What the loop has at its test. -/
structure Turn where
  ptr : Nat
  buf : Nat → Byte
  lastname : List Byte

/-- The turns of the loop; each moves `ptr`, so that `ifc_len` turns are enough. -/
def Walk.turns (w : Walk) (ifc_len : Nat) : Nat → Turn → List Turn
  | 0, _ => []
  | fuel+1, t =>
    if t.ptr < ifc_len then
      t :: match (w.visit ifc_len t.ptr t.lastname).run t.buf with
        | .exited => []
        | .next stride cptr lastname =>
          w.turns ifc_len fuel
            ⟨t.ptr + stride,fun i => if some i = cptr then 0 else t.buf i,lastname⟩
    else []

/-- A record of the kernel for an interface with an `AF_INET` address. -/
structure Record where
  name : List Byte
  pad : List Byte
  addr : List Byte
  plain : 0 ∉ name
  sizeofName : name.length + 1 + pad.length = IFNAMSIZ
  sizeofUnion : 2 + addr.length = 24

def Record.bytes (r : Record) : List Byte := r.name ++ 0 :: r.pad ++ [2,0] ++ r.addr

/-- The name that the loop gives to `ioctl`. -/
def Record.asked (r : Record) : List Byte := r.name.takeWhile (· ≠ colon)

/-- Each record is visited at its start, and no read leaves the buffer. -/
structure Walk.Right (w : Walk) (records : List Record) (buf : Nat → Byte) : Prop where
  visits : (w.turns (sizeofIfreq * records.length) (sizeofIfreq * records.length) ⟨0,buf,[]⟩).map
    Turn.ptr = (List.range records.length).map (sizeofIfreq * ·)
  within : ∀ t ∈ w.turns (sizeofIfreq * records.length) (sizeofIfreq * records.length) ⟨0,buf,[]⟩,
    (w.visit (sizeofIfreq * records.length) t.ptr t.lastname).Within
      (sizeofIfreq * records.length) t.buf

section
variable {w : Walk} {buf : Nat → Byte}

theorem Record.bytes_length (r : Record) : r.bytes.length = sizeofIfreq := by
  have hname := r.sizeofName
  have hunion := r.sizeofUnion
  simp only [bytes,List.length_append,List.length_cons,List.length_nil,sizeofIfreq]
  omega

theorem cells_cons {p k : Nat} {c : Byte} {cs : List Byte}
    (h : (cells p (k + 1)).run buf = c :: cs) : buf p = c ∧ (cells (p + 1) k).run buf = cs := by
  rw [cells,run_bind,run_cell,run_bind,run_pure] at h
  exact List.cons.inj h

theorem run_strchr {name : List Byte} (hplain : 0 ∉ name) {p k : Nat} (hk : name.length < k)
    (h : (cells p (name.length + 1)).run buf = name ++ [0]) :
    ((strchr p k).run buf).1 = name.takeWhile (· ≠ colon) := by
  induction name generalizing p k with
  | nil =>
    obtain ⟨hnul,_⟩ := cells_cons h
    obtain ⟨k,rfl⟩ := Nat.exists_eq_add_of_lt hk
    rw [strchr,run_bind,run_cell,run_ite,if_pos hnul,run_pure,List.takeWhile_nil]
  | cons c cs ih =>
    obtain ⟨hc,hrest⟩ := cells_cons h
    obtain ⟨hne,hplain⟩ := not_or.mp (mt List.mem_cons.mpr hplain)
    cases k with
    | zero => omega
    | succ k =>
      rw [strchr,run_bind,run_cell,run_ite,hc,if_neg (Ne.symm hne),run_ite,List.takeWhile_cons]
      by_cases hcolon : c = colon
      · simp [hcolon]
      · rw [if_neg hcolon,run_bind,run_pure,ih hplain (Nat.lt_of_succ_lt_succ hk) hrest]
        simp [hcolon]

theorem cells_append {p j k : Nat} {xs ys : List Byte}
    (h : (cells p (j + k)).run buf = xs ++ ys) (hlen : xs.length = j) :
    (cells p j).run buf = xs ∧ (cells (p + j) k).run buf = ys := by
  rw [run_cells_add] at h
  exact List.append_inj h (by rw [run_cells,List.length_map,List.length_range,hlen])

theorem record_family {r : Record} (h : (cells 0 sizeofIfreq).run buf = r.bytes) :
    (hostShort IFNAMSIZ).run buf = AF_INET := by
  have hlen : (r.name ++ 0 :: r.pad).length = IFNAMSIZ := by
    have hname := r.sizeofName
    rw [List.length_append,List.length_cons]
    omega
  have hsplit : r.bytes = (r.name ++ 0 :: r.pad) ++ 2 :: 0 :: r.addr := by simp [Record.bytes]
  rw [hsplit] at h
  obtain ⟨_,hunion⟩ := cells_append (j := IFNAMSIZ) (k := 24) h hlen
  obtain ⟨hlow,hunion⟩ := cells_cons hunion
  obtain ⟨hhigh,_⟩ := cells_cons hunion
  rw [Nat.zero_add] at hlow hhigh
  rw [run_hostShort,hlow,hhigh]
  rfl

theorem record_asked {r : Record} (h : (cells 0 sizeofIfreq).run buf = r.bytes) {k : Nat}
    (hk : IFNAMSIZ ≤ k) : ((strchr 0 k).run buf).1 = r.asked := by
  have hname := r.sizeofName
  have hsplit : r.bytes = (r.name ++ [0]) ++ (r.pad ++ [2,0] ++ r.addr) := by simp [Record.bytes]
  have hsize : sizeofIfreq = (r.name.length + 1) + (sizeofIfreq - (r.name.length + 1)) := by
    unfold sizeofIfreq
    omega
  rw [hsplit,hsize] at h
  exact run_strchr r.plain (by omega) (cells_append h (by simp)).1

theorem run_visit_record {r : Record} (h : (cells 0 sizeofIfreq).run buf = r.bytes)
    (hflags : (w.flags r.asked).isSome = true) (hrest : w.rest r.asked = true) {ifc_len : Nat}
    (hlen : sizeofIfreq ≤ ifc_len) (lastname : List Byte) :
    ∃ cptr name, (w.visit ifc_len 0 lastname).run buf =
      .next (IFNAMSIZ + sizeofSockaddr) cptr name := by
  have hasked := record_asked h (k := ifc_len - 0 + 1) (by unfold sizeofIfreq at hlen; omega)
  obtain ⟨up,hup⟩ := Option.isSome_iff_exists.mp hflags
  rw [Walk.visit,run_bind,Nat.zero_add,record_family h]
  split
  · exact ⟨none,lastname,rfl⟩
  · rw [run_bind]
    generalize (strchr 0 (ifc_len - 0 + 1)).run buf = name at hasked ⊢
    rw [hasked,hup,hrest,run_ite,run_pure]
    split
    · exact ⟨_,lastname,rfl⟩
    · rw [run_bind]
      dsimp only
      rw [run_ite,run_pure]
      split
      · exact ⟨_,_,rfl⟩
      · rw [run_bind,if_pos rfl,run_pure]
        exact ⟨_,_,rfl⟩

/-- From the start of the first record the walk goes on at byte 32. -/
theorem turns_second {r : Record} (h : (cells 0 sizeofIfreq).run buf = r.bytes)
    (hflags : (w.flags r.asked).isSome = true) (hrest : w.rest r.asked = true) {ifc_len : Nat}
    (hlen : sizeofIfreq ≤ ifc_len) {fuel : Nat} (hfuel : 2 ≤ fuel) :
    ((w.turns ifc_len fuel ⟨0,buf,[]⟩).map Turn.ptr)[1]? = some 32 := by
  obtain ⟨fuel,rfl⟩ := Nat.exists_eq_add_of_le' hfuel
  obtain ⟨cptr,name,hrun⟩ := run_visit_record h hflags hrest hlen []
  have hlong : 40 ≤ ifc_len := hlen
  rw [Walk.turns,if_pos (by dsimp only; omega),hrun]
  dsimp only
  rw [Walk.turns,if_pos (by dsimp only [IFNAMSIZ,sizeofSockaddr]; omega)]
  rfl

end

/-- The second visit is in the middle of the first record. -/
theorem walk_right_iff (w : Walk) (records : List Record) (buf : Nat → Byte)
    (hbuf : (cells 0 (sizeofIfreq * records.length)).run buf = records.flatMap Record.bytes)
    (hflags : ∀ r ∈ records, (w.flags r.asked).isSome = true)
    (hrest : ∀ r ∈ records, w.rest r.asked = true) :
    w.Right records buf ↔ records = [] := by
  constructor
  · intro h
    cases records with
    | nil => rfl
    | cons r rs =>
      exfalso
      have hflat : (cells 0 (sizeofIfreq + sizeofIfreq * rs.length)).run buf =
          r.bytes ++ rs.flatMap Record.bytes := by
        rw [← List.flatMap_cons,← hbuf,List.length_cons,Nat.mul_add_one,Nat.add_comm]
      have hfirst := (cells_append hflat r.bytes_length).1
      obtain ⟨hflags,_⟩ := List.forall_mem_cons.mp hflags
      obtain ⟨hrest,_⟩ := List.forall_mem_cons.mp hrest
      have hlen : sizeofIfreq ≤ sizeofIfreq * (r :: rs).length :=
        Nat.le_mul_of_pos_right _ (Nat.succ_pos _)
      have hsecond := turns_second hfirst hflags hrest hlen
        (Nat.le_trans (by decide : 2 ≤ sizeofIfreq) hlen)
      rw [h.visits,List.getElem?_map] at hsecond
      obtain ⟨i,hi,hstart⟩ := Option.map_eq_some_iff.mp hsecond
      unfold sizeofIfreq IFNAMSIZ at hstart
      omega
  · rintro rfl
    exact ⟨rfl,nofun⟩

/-- "lo" and "eth0". -/
def lo : Record := ⟨[108,111],List.replicate 13 0,0 :: 0 :: 127 :: 0 :: 0 :: 1 ::
  List.replicate 16 0,by decide,by decide,by decide⟩
def eth0 : Record := ⟨[101,116,104,48],List.replicate 11 0,0 :: 0 :: 192 :: 0 :: 2 :: 1 ::
  List.replicate 16 0,by decide,by decide,by decide⟩

def bothUp : Walk := ⟨AF_INET,true,fun _ => some true,fun _ => true⟩

def listed (records : List Record) : Nat → Byte :=
  fun i => (records.flatMap Record.bytes).getD i 0

theorem walk_right_iff_both :
    bothUp.Right [lo,eth0] (listed [lo,eth0]) ↔ [lo,eth0] = [] :=
  walk_right_iff bothUp [lo,eth0] (listed [lo,eth0]) (by decide) (fun _ _ => rfl) fun _ _ => rfl

theorem walk_strays :
    ((bothUp.turns 80 80 ⟨0,listed [lo,eth0],[]⟩).map Turn.ptr = [0,32,64]) ∧
    ¬ ∀ (w : Walk) (records : List Record) (buf : Nat → Byte),
      (cells 0 (sizeofIfreq * records.length)).run buf = records.flatMap Record.bytes →
      (∀ r ∈ records, (w.flags r.asked).isSome = true) →
      (∀ r ∈ records, w.rest r.asked = true) → w.Right records buf := by
  refine ⟨by decide,fun h => ?_⟩
  have hright := h bothUp [lo,eth0] (listed [lo,eth0]) (by decide) (fun _ _ => rfl) fun _ _ => rfl
  exact absurd hright.visits (by decide)

end Ifr

end UnixNet
