import Mathlib.Data.List.Basic
import Mathlib.Algebra.Group.Nat.Defs
import UnixNet.Library.Memory
import UnixNet.Library.Records
import UnixNet.SocketAddress
set_option autoImplicit false

/-! The messages of the interface list that `sysctl` returns, and the socket addresses in them. -/

namespace UnixNet.Route
open Memory Records Sa

def RTM_NEWADDR : Nat := 12
def RTM_IFINFO : Nat := 14
def RTAX_IFP : Nat := 4
def RTAX_IFA : Nat := 5
def RTAX_BRD : Nat := 7
def RTAX_MAX : Nat := 8
def IFNAMSIZ : Nat := 16

/-- `sizeof(u_long)`. -/
def ULONG : Nat := 8

/-- The sizes of `struct if_msghdr`, which has the counters of `struct if_data` behind its first 16
bytes, and of `struct ifa_msghdr`. -/
structure Abi where
  ifm : Nat
  ifam : Nat
  data : 16 + 2 * ULONG ≤ ifm

def roundup (a size : Nat) : Nat :=
  if a &&& (size - 1) ≠ 0 then 1 + (a ||| (size - 1)) else a

def nextSa (sa_len : Nat) : Nat := if sa_len ≠ 0 then roundup sa_len ULONG else ULONG

/-- The loop of `get_rtaddrs` from `i` on. A pointer is what lies from it to the end of the
buffer. -/
def rtaddrsFrom (addrs : Nat) : Nat → Nat → List Byte → Option (List (Option (List Byte)))
  | 0, _, _ => some []
  | n+1, i, sa =>
    if addrs.testBit i then do
      let sa_len ← loadBig sa 0 1
      return some sa :: (← rtaddrsFrom addrs n (i + 1) (sa.drop (nextSa sa_len)))
    else (rtaddrsFrom addrs n (i + 1) sa).map (none :: ·)

/-- The array `rti_info`. -/
def getRtaddrs (addrs : Nat) (sa : List Byte) : Option (List (Option (List Byte))) :=
  rtaddrsFrom addrs RTAX_MAX 0 sa

/-- With nothing to look at there are no more addresses. -/
theorem rtaddrsFrom_nil {addrs n i : Nat} {rti : List (Option (List Byte))}
    (h : rtaddrsFrom addrs n i [] = some rti) (sa : List Byte) :
    rtaddrsFrom addrs n i sa = some rti ∧ ∀ o ∈ rti, o = none := by
  induction n generalizing i rti with
  | zero =>
    cases h
    exact ⟨rfl,by simp⟩
  | succ n ih =>
    by_cases hbit : addrs.testBit i
    · simp [rtaddrsFrom,hbit,loadBig,load] at h
    · simp only [rtaddrsFrom,hbit,Bool.false_eq_true,if_false,Option.map_eq_some_iff] at h ⊢
      obtain ⟨rti,hrti,rfl⟩ := h
      obtain ⟨hsame,hall⟩ := ih hrti
      exact ⟨⟨rti,hsame,rfl⟩,by simpa using hall⟩

/-- What follows the addresses only makes the pointers longer. -/
theorem rtaddrsFrom_append {addrs n i : Nat} {sa : List Byte} {rti : List (Option (List Byte))}
    (h : rtaddrsFrom addrs n i sa = some rti) (rest : List Byte) :
    rtaddrsFrom addrs n i (sa ++ rest) = some (rti.map (Option.map (· ++ rest))) := by
  induction n generalizing i sa rti with
  | zero =>
    cases h
    rfl
  | succ n ih =>
    by_cases hbit : addrs.testBit i
    · simp only [rtaddrsFrom,hbit,if_true] at h ⊢
      cases hlen : loadBig sa 0 1 with
      | none => simp [hlen] at h
      | some sa_len =>
        cases hnext : rtaddrsFrom addrs n (i + 1) (sa.drop (nextSa sa_len)) with
        | none => simp [hlen,hnext] at h
        | some more =>
          simp [hlen,hnext] at h
          subst h
          have hmore : rtaddrsFrom addrs n (i + 1) ((sa ++ rest).drop (nextSa sa_len)) =
              some (more.map (Option.map (· ++ rest))) := by
            by_cases hle : nextSa sa_len ≤ sa.length
            · rw [List.drop_append_of_le_length hle]
              exact ih hnext
            · rw [List.drop_eq_nil_of_le (by omega)] at hnext
              obtain ⟨hsame,hall⟩ := rtaddrsFrom_nil hnext ((sa ++ rest).drop (nextSa sa_len))
              rw [hsame]
              refine congrArg some (List.ext_getElem (by simp) fun k hk hk' => ?_)
              rw [List.getElem_map,hall _ (List.getElem_mem hk)]
              rfl
          simp [loadBig_append hlen,hmore]
    · simp only [rtaddrsFrom,hbit,Bool.false_eq_true,if_false,Option.map_eq_some_iff] at h ⊢
      obtain ⟨more,hmore,rfl⟩ := h
      exact ⟨_,ih hmore,rfl⟩

/-- The addresses lie in what they were looked for in. -/
theorem rtaddrsFrom_length {addrs n i : Nat} {sa : List Byte} {rti : List (Option (List Byte))}
    (h : rtaddrsFrom addrs n i sa = some rti) : ∀ p, some p ∈ rti → p.length ≤ sa.length := by
  induction n generalizing i sa rti with
  | zero =>
    cases h
    simp
  | succ n ih =>
    by_cases hbit : addrs.testBit i
    · simp only [rtaddrsFrom,hbit,if_true,Option.bind_eq_bind,Option.bind_eq_some_iff] at h
      obtain ⟨sa_len,-,more,hmore,h⟩ := h
      cases h
      intro p hp
      rcases List.mem_cons.mp hp with hp | hp
      · cases hp
        exact Nat.le_refl _
      · have hle := ih hmore p hp
        rw [List.length_drop] at hle
        omega
    · simp only [rtaddrsFrom,hbit,Bool.false_eq_true,if_false,Option.map_eq_some_iff] at h
      obtain ⟨more,hmore,rfl⟩ := h
      intro p hp
      exact ih hmore p (by simpa using hp)

/-! ## Well-formed messages -/

/-- An RTM_IFINFO message with the link-layer address of its interface. -/
structure IfMsg (abi : Abi) where
  bytes : List Byte
  ifm_addrs : Nat
  ifm_flags : Nat
  rti : List (Option (List Byte))
  sdl : List Byte
  sdl_index : Nat
  sdl_nlen : Nat
  sdl_alen : Nat
  msglen : loadBig bytes 0 2 = some bytes.length
  type : loadBig bytes 3 1 = some RTM_IFINFO
  addrs_eq : loadBig bytes 4 4 = some ifm_addrs
  flags_eq : loadBig bytes 8 4 = some ifm_flags
  header : abi.ifm ≤ bytes.length
  rti_eq : getRtaddrs ifm_addrs (bytes.drop abi.ifm) = some rti
  ifp : rti[RTAX_IFP]? = some (some sdl)
  family : loadBig sdl 1 1 = some AF_LINK
  index_eq : loadBig sdl 2 2 = some sdl_index
  nlen_eq : loadBig sdl 5 1 = some sdl_nlen
  alen_eq : loadBig sdl 6 1 = some sdl_alen
  room : 8 + sdl_nlen + sdl_alen ≤ sdl.length
  short : sdl_nlen < IFNAMSIZ
  plain : 0 ∉ (sdl.drop 8).take sdl_nlen

/-- An RTM_NEWADDR message with its address. -/
structure AddrMsg (abi : Abi) where
  bytes : List Byte
  ifam_addrs : Nat
  rti : List (Option (List Byte))
  ifa : List Byte
  ifa_len : Nat
  msglen : loadBig bytes 0 2 = some bytes.length
  type : loadBig bytes 3 1 = some RTM_NEWADDR
  addrs_eq : loadBig bytes 4 4 = some ifam_addrs
  header : abi.ifam ≤ bytes.length
  rti_eq : getRtaddrs ifam_addrs (bytes.drop abi.ifam) = some rti
  ifa_eq : rti[RTAX_IFA]? = some (some ifa)
  len_eq : loadBig ifa 0 1 = some ifa_len
  room : ifa_len ≤ ifa.length
  brd : ∀ sa, rti[RTAX_BRD]? = some (some sa) → ∃ n, loadBig sa 0 1 = some n ∧ n ≤ sa.length

/-- An interface with the messages of its addresses. -/
structure Group (abi : Abi) where
  info : IfMsg abi
  addrs : List (AddrMsg abi)

inductive Msg (abi : Abi) where
  | info (m : IfMsg abi) : Msg abi
  | addr (a : AddrMsg abi) : Msg abi

variable {abi : Abi}

def Msg.bytes : Msg abi → List Byte
  | .info m => m.bytes
  | .addr a => a.bytes

def Group.msgs (g : Group abi) : List (Msg abi) := .info g.info :: g.addrs.map .addr

/-- The buffer that holds the messages of the groups. -/
def buffer (gs : List (Group abi)) : List Byte := (gs.flatMap Group.msgs).flatMap Msg.bytes

/-- What follows the RTM_IFINFO message of a group. -/
def Group.after (g : Group abi) (rest : List Byte) : List Byte :=
  (g.addrs.map Msg.addr).flatMap Msg.bytes ++ rest

theorem groups_cons {σ ε : Type} (step : σ → Msg abi → List Byte → Except ε σ) (g : Group abi)
    (gs : List (Group abi)) (s : σ) :
    fold Msg.bytes step [] ((g :: gs).flatMap Group.msgs) s =
      (fold Msg.bytes step (buffer gs) g.msgs s).bind
        (fold Msg.bytes step [] (gs.flatMap Group.msgs)) := by
  rw [List.flatMap_cons,fold_append,List.append_nil]
  rfl

theorem groups_ok {σ ε : Type} {step : σ → Msg abi → List Byte → Except ε σ} {g : Group abi}
    {gs : List (Group abi)} {s t : σ}
    (h : fold Msg.bytes step [] ((g :: gs).flatMap Group.msgs) s = .ok t) :
    ∃ s', fold Msg.bytes step (buffer gs) g.msgs s = .ok s' ∧
      fold Msg.bytes step [] (gs.flatMap Group.msgs) s' = .ok t := by
  rw [groups_cons] at h
  cases hfold : fold Msg.bytes step (buffer gs) g.msgs s with
  | error e =>
    rw [hfold] at h
    cases h
  | ok s' =>
    rw [hfold] at h
    exact ⟨s',rfl,h⟩

theorem Msg.bytes_ne_nil (m : Msg abi) : m.bytes ≠ [] := by
  intro h
  cases m with
  | info m =>
    have hlen := m.msglen
    rw [show m.bytes = [] from h] at hlen
    simp [loadBig,load] at hlen
  | addr a =>
    have hlen := a.msglen
    rw [show a.bytes = [] from h] at hlen
    simp [loadBig,load] at hlen

def IfMsg.name (m : IfMsg abi) : List Byte := (m.sdl.drop 8).take m.sdl_nlen
def IfMsg.lladdr (m : IfMsg abi) : List Byte := (m.sdl.drop (8 + m.sdl_nlen)).take m.sdl_alen

/-- What follows the name, to the end of the buffer. -/
def IfMsg.behind (m : IfMsg abi) (rest : List Byte) : List Byte :=
  m.sdl.drop (8 + m.sdl_nlen) ++ rest

@[simp] theorem IfMsg.name_length (m : IfMsg abi) : m.name.length = m.sdl_nlen := by
  have hroom := m.room
  rw [IfMsg.name,List.length_take,List.length_drop]
  omega

@[simp] theorem IfMsg.lladdr_length (m : IfMsg abi) : m.lladdr.length = m.sdl_alen := by
  have hroom := m.room
  rw [IfMsg.lladdr,List.length_take,List.length_drop]
  omega

theorem IfMsg.data_eq (m : IfMsg abi) (rest : List Byte) :
    (m.sdl ++ rest).drop 8 = m.name ++ m.behind rest := by
  have hroom := m.room
  rw [List.drop_append_of_le_length (by omega),IfMsg.name,IfMsg.behind,← List.append_assoc,
    ← List.drop_drop,List.take_append_drop]

/-- In the buffer the message shows its link-layer address in the same place. -/
theorem IfMsg.rtaddrs (m : IfMsg abi) (rest : List Byte) :
    ∃ rti, getRtaddrs m.ifm_addrs ((m.bytes ++ rest).drop abi.ifm) = some rti ∧
      rti[RTAX_IFP]? = some (some (m.sdl ++ rest)) := by
  refine ⟨m.rti.map (Option.map (· ++ rest)),?_,?_⟩
  · rw [List.drop_append_of_le_length m.header]
    exact rtaddrsFrom_append m.rti_eq rest
  · rw [List.getElem?_map,m.ifp]
    rfl

theorem AddrMsg.rtaddrs (a : AddrMsg abi) (rest : List Byte) :
    getRtaddrs a.ifam_addrs ((a.bytes ++ rest).drop abi.ifam) =
      some (a.rti.map (Option.map (· ++ rest))) := by
  rw [List.drop_append_of_le_length a.header]
  exact rtaddrsFrom_append a.rti_eq rest

/-! ## A host with two interfaces -/

/-- The headers with their `struct if_data` and the address of their interface. -/
def bsd : Abi := ⟨168,20,by decide⟩

def linkMessage (flags : Nat) (sdl : List Byte) : List Byte :=
  big 2 (168 + sdl.length) ++ [5,14] ++ big 4 16 ++ big 4 flags ++ List.replicate 156 0 ++ sdl

def linkRti (sdl : List Byte) : List (Option (List Byte)) :=
  [none,none,none,none,some sdl,none,none,none]

def addrMessage (sin : List Byte) : List Byte :=
  big 2 (20 + sin.length) ++ [5,12] ++ big 4 32 ++ List.replicate 12 0 ++ sin

/-- "en0", up, with the hardware address 0:1b:63:7a:4:9. -/
def en0 : IfMsg bsd where
  bytes := linkMessage 0x8843 [20,18,0,1,6,3,6,0,101,110,48,0,27,99,122,4,9,0,0,0]
  ifm_addrs := 16
  ifm_flags := 0x8843
  rti := linkRti [20,18,0,1,6,3,6,0,101,110,48,0,27,99,122,4,9,0,0,0]
  sdl := [20,18,0,1,6,3,6,0,101,110,48,0,27,99,122,4,9,0,0,0]
  sdl_index := 1
  sdl_nlen := 3
  sdl_alen := 6
  msglen := by decide +kernel
  type := by decide +kernel
  addrs_eq := by decide +kernel
  flags_eq := by decide +kernel
  header := by decide +kernel
  rti_eq := rfl
  ifp := rfl
  family := rfl
  index_eq := rfl
  nlen_eq := rfl
  alen_eq := rfl
  room := by decide
  short := by decide
  plain := by decide

/-- "en1", down, with the hardware address 0:1b:63:7a:4:a. -/
def en1 : IfMsg bsd where
  bytes := linkMessage 0x8802 [20,18,0,2,6,3,6,0,101,110,49,0,27,99,122,4,10,0,0,0]
  ifm_addrs := 16
  ifm_flags := 0x8802
  rti := linkRti [20,18,0,2,6,3,6,0,101,110,49,0,27,99,122,4,10,0,0,0]
  sdl := [20,18,0,2,6,3,6,0,101,110,49,0,27,99,122,4,10,0,0,0]
  sdl_index := 2
  sdl_nlen := 3
  sdl_alen := 6
  msglen := by decide +kernel
  type := by decide +kernel
  addrs_eq := by decide +kernel
  flags_eq := by decide +kernel
  header := by decide +kernel
  rti_eq := rfl
  ifp := rfl
  family := rfl
  index_eq := rfl
  nlen_eq := rfl
  alen_eq := rfl
  room := by decide
  short := by decide
  plain := by decide

/-- The address 10.0.0.1. -/
def inet1 : AddrMsg bsd where
  bytes := addrMessage [16,2,0,0,10,0,0,1,0,0,0,0,0,0,0,0]
  ifam_addrs := 32
  rti := [none,none,none,none,none,some [16,2,0,0,10,0,0,1,0,0,0,0,0,0,0,0],none,none]
  ifa := [16,2,0,0,10,0,0,1,0,0,0,0,0,0,0,0]
  ifa_len := 16
  msglen := by decide +kernel
  type := by decide +kernel
  addrs_eq := by decide +kernel
  header := by decide
  rti_eq := rfl
  ifa_eq := rfl
  len_eq := rfl
  room := by decide
  brd := by simp [RTAX_BRD]

end UnixNet.Route
