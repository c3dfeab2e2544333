import Mathlib.Data.List.Basic
import Mathlib.Data.Nat.Digits.Defs
import Mathlib.Algebra.Group.Nat.Defs
import Mathlib.Algebra.Ring.Int.Defs
import UnixNet.Library.Records
import UnixNet.RoutingMessage
set_option autoImplicit false

/-! `get_ifi_info` over the routing messages: the current entry goes from message to message. -/

namespace UnixNet.Route
open Memory Records Sa

def IFI_NAME : Nat := 16
def IFI_HADDR : Nat := 8
def IFF_UP : Nat := 1
def IFF_BROADCAST : Nat := 2
def IFF_POINTOPOINT : Nat := 16

/-- `ifi_flags` is the bit pattern of a `short`; `ifi_haddr` has `IFI_HADDR` bytes. -/
structure IfiInfo where
  ifi_name : List Byte
  ifi_index : Int
  ifi_hlen : Nat
  ifi_haddr : List Byte
  ifi_flags : Nat
  ifi_addr : Option (List Byte)
  ifi_brdaddr : Option (List Byte)
  ifi_dstaddr : Option (List Byte)
  deriving DecidableEq, Repr

/-- The entries before the current one, the current one, which is not set at the start, and the
flags of the last interface. -/
structure IfiLoop where
  before : List IfiInfo
  ifi : Option IfiInfo
  flags : Nat
  deriving DecidableEq, Repr

/-- The list from `ifihead` on. -/
def IfiLoop.list (s : IfiLoop) : List IfiInfo := s.before ++ s.ifi.toList

/-- How the loop is left from within: by an invalid access or by `err_quit`. -/
inductive Exit where
  | fault : Exit
  | quit (ifm_type : Nat) : Exit
  deriving DecidableEq, Repr

def inside {α : Type} : Option α → Except Exit α
  | none => .error .fault
  | some a => .ok a

/-- A `u_short` stored in a `short`. -/
def toShort (x : Nat) : Int := (x : Int).bmod (2^16)

/-- The text "index %d" in the place of a missing name. -/
def indexName (sdl_index : Nat) : List Byte :=
  ("index ".toList ++ Nat.toDigits 10 sdl_index).map fun c => UInt8.ofNat c.toNat

/-- The two calls of `snprintf` for `ifi_name`. -/
def ifiName (sdl_index sdl_nlen : Nat) (sdl_data : List Byte) : Option (List Byte) :=
  (if 0 < sdl_nlen then starString sdl_nlen sdl_data else some (indexName sdl_index)).map
    (List.take (IFI_NAME - 1))

/-- `ifi_haddr` after `memcpy` from the address `LLADDR(sdl)`. -/
def ifiHaddr (sdl_alen : Nat) (lladdr : List Byte) : Option (List Byte) :=
  (if 0 < sdl_alen then load lladdr 0 (min IFI_HADDR sdl_alen) else some []).map fun haddr =>
    haddr ++ List.replicate (IFI_HADDR - haddr.length) 0

/-- The new entry for an interface that is up. -/
def linkEntry (flags : Nat) (sa : List Byte) : Option IfiInfo := do
  let ifi : IfiInfo := ⟨[],0,0,List.replicate IFI_HADDR 0,flags % 65536,none,none,none⟩
  if (← loadBig sa 1 1) = AF_LINK then
    let sdl_index ← loadBig sa 2 2
    let sdl_nlen ← loadBig sa 5 1
    let name ← ifiName sdl_index sdl_nlen (sa.drop 8)
    let sdl_alen ← loadBig sa 6 1
    let haddr ← ifiHaddr sdl_alen (sa.drop (8 + sdl_nlen))
    return { ifi with
      ifi_index := toShort sdl_index
      ifi_name := name
      ifi_hlen := sdl_alen
      ifi_haddr := haddr }
  else return ifi

def onInfo (abi : Abi) (ifm : List Byte) (s : IfiLoop) : Option IfiLoop := do
  let flags ← loadBig ifm 8 4
  let s := { s with flags := flags }
  if flags &&& IFF_UP = 0 then return s
  let rti_info ← getRtaddrs (← loadBig ifm 4 4) (ifm.drop abi.ifm)
  match rti_info[RTAX_IFP]?.join with
  | none => return s
  | some sa =>
    let ifi ← linkEntry flags sa
    return { s with before := s.list, ifi := some ifi }

/-- `Calloc` and `memcpy` of a socket address, or what was there. -/
def copySa (sa old : Option (List Byte)) : Option (Option (List Byte)) :=
  match sa with
  | none => some old
  | some sa => do return some (← load sa 0 (← loadBig sa 0 1))

def copyIf (flag : Nat) (sa old : Option (List Byte)) : Option (Option (List Byte)) :=
  if flag ≠ 0 then copySa sa old else some old

def onNewaddr (abi : Abi) (doaliases : Bool) (next : List Byte) (s : IfiLoop) :
    Option IfiLoop := do
  let ifi ← s.ifi
  if ifi.ifi_addr.isSome ∧ doaliases = false then return s
  let before := if ifi.ifi_addr.isSome then s.list else s.before
  let ifi := if ifi.ifi_addr.isSome then
      { ifi with ifi_addr := none, ifi_brdaddr := none, ifi_dstaddr := none } else ifi
  let rti_info ← getRtaddrs (← loadBig next 4 4) (next.drop abi.ifam)
  let addr ← copySa rti_info[RTAX_IFA]?.join ifi.ifi_addr
  let brd := rti_info[RTAX_BRD]?.join
  let brdaddr ← copyIf (s.flags &&& IFF_BROADCAST) brd ifi.ifi_brdaddr
  let dstaddr ← copyIf (s.flags &&& IFF_POINTOPOINT) brd ifi.ifi_dstaddr
  let ifi := { ifi with ifi_addr := addr, ifi_brdaddr := brdaddr, ifi_dstaddr := dstaddr }
  return { s with before := before, ifi := some ifi }

def ifiBody (abi : Abi) (doaliases : Bool) (next : List Byte) (s : IfiLoop) :
    Except Exit (IfiLoop × Nat) := do
  let ifm_type ← inside (loadBig next 3 1)
  let s ← if ifm_type = RTM_IFINFO then inside (onInfo abi next s)
    else if ifm_type = RTM_NEWADDR then inside (onNewaddr abi doaliases next s)
    else .error (.quit ifm_type)
  return (s,← inside (loadBig next 0 2))

def getIfiInfo (abi : Abi) (doaliases : Bool) (fuel : Nat) (buf : List Byte) : Walk Exit IfiLoop :=
  walk (ifiBody abi doaliases) fuel buf.length buf ⟨[],none,0⟩

/-! ## What a list says about the interfaces -/

@[ext] structure Ident where
  name : List Byte
  index : Int
  haddr : List Byte
  flags : Nat
  deriving DecidableEq, Repr

def IfiInfo.ident (e : IfiInfo) : Ident :=
  ⟨e.ifi_name,e.ifi_index,e.ifi_haddr.take e.ifi_hlen,e.ifi_flags⟩

/-- An address with the interface of its entry. -/
def IfiInfo.carried (e : IfiInfo) : Option (Ident × List Byte) :=
  e.ifi_addr.map fun a => (e.ident,a)

def IfiLoop.pairs (s : IfiLoop) : List (Ident × List Byte) := s.list.filterMap IfiInfo.carried

def Ident.tag (i : Ident) : Int × List Byte := (i.index,i.name)

/-- The indices and names of the entries. -/
def IfiLoop.tags (s : IfiLoop) : List (Int × List Byte) := s.list.map fun e => e.ident.tag

variable {abi : Abi}

def IfMsg.ident (m : IfMsg abi) : Ident :=
  ⟨if m.sdl_nlen = 0 then indexName m.sdl_index else m.name,m.sdl_index,m.lladdr,m.ifm_flags⟩

def IfMsg.up (m : IfMsg abi) : Prop := m.ifm_flags &&& IFF_UP ≠ 0

instance instDecidableUp (m : IfMsg abi) : Decidable m.up :=
  inferInstanceAs (Decidable (m.ifm_flags &&& IFF_UP ≠ 0))

def AddrMsg.address (a : AddrMsg abi) : List Byte := a.ifa.take a.ifa_len

/-- The addresses of an interface that belong in the list. -/
def Group.expected (doaliases : Bool) (g : Group abi) : List (Ident × List Byte) :=
  if g.info.up then
    (if doaliases then g.addrs else g.addrs.take 1).map fun a => (g.info.ident,a.address)
  else []

/-! ## One message -/

def ifiStep (doaliases : Bool) (s : IfiLoop) : Msg abi → List Byte → Except Exit IfiLoop
  | .info m, rest => inside (onInfo abi (m.bytes ++ rest) s)
  | .addr a, rest => inside (onNewaddr abi doaliases (a.bytes ++ rest) s)

theorem ifiBody_takes (doaliases : Bool) (m : Msg abi) :
    Takes (ifiBody abi doaliases) Msg.bytes (ifiStep doaliases) m := by
  intro rest s
  cases m with
  | info m =>
    have htype := loadBig_append m.type rest
    have hlen := loadBig_append m.msglen rest
    simp only [ifiBody,ifiStep,Msg.bytes,htype,hlen,inside]
    cases onInfo abi (m.bytes ++ rest) s <;> rfl
  | addr a =>
    have htype := loadBig_append a.type rest
    have hlen := loadBig_append a.msglen rest
    simp only [ifiBody,ifiStep,Msg.bytes,htype,hlen,inside]
    cases onNewaddr abi doaliases (a.bytes ++ rest) s <;> rfl

theorem onInfo_down {m : IfMsg abi} (h : ¬ m.up) (rest : List Byte) (s : IfiLoop) :
    onInfo abi (m.bytes ++ rest) s = some { s with flags := m.ifm_flags } := by
  have hflags : m.ifm_flags &&& IFF_UP = 0 := not_not.mp h
  simp [onInfo,loadBig_append m.flags_eq rest,hflags]

theorem onInfo_up {m : IfMsg abi} (h : m.up) (rest : List Byte) (s : IfiLoop) :
    onInfo abi (m.bytes ++ rest) s = (linkEntry m.ifm_flags (m.sdl ++ rest)).map fun ifi =>
      ⟨s.list,some ifi,m.ifm_flags⟩ := by
  obtain ⟨rti,hrti,hifp⟩ := m.rtaddrs rest
  have hflags : ¬ m.ifm_flags &&& IFF_UP = 0 := h
  simp only [onInfo,loadBig_append m.flags_eq rest,loadBig_append m.addrs_eq rest,hflags,hrti,hifp,
    Option.bind_eq_bind,Option.bind_some,if_false,Option.join_some]
  cases linkEntry m.ifm_flags (m.sdl ++ rest) <;> rfl

theorem copySa_eq {sa : List Byte} {n : Nat} (hlen : loadBig sa 0 1 = some n) (hn : n ≤ sa.length)
    (rest : List Byte) (old : Option (List Byte)) :
    copySa (some (sa ++ rest)) old = some (some (sa.take n)) := by
  have hload : load (sa ++ rest) 0 n = some (sa.take n) := by
    rw [load_left (by omega),load,if_pos (by omega),List.drop_zero]
  simp [copySa,loadBig_append hlen rest,hload]

theorem AddrMsg.copyBrd (a : AddrMsg abi) (rest : List Byte) (flag : Nat)
    (old : Option (List Byte)) :
    ∃ new, copyIf flag ((a.rti.map (Option.map (· ++ rest)))[RTAX_BRD]?.join) old = some new := by
  unfold copyIf
  split
  case isFalse => exact ⟨old,rfl⟩
  rw [List.getElem?_map]
  cases hbrd : a.rti[RTAX_BRD]? with
  | none => exact ⟨old,rfl⟩
  | some o =>
    cases o with
    | none => exact ⟨old,rfl⟩
    | some sa =>
      obtain ⟨n,hlen,hn⟩ := a.brd sa hbrd
      exact ⟨_,copySa_eq hlen hn rest old⟩

/-- The addresses of a message sequence that are put into entries, by whether the current entry has
an address. -/
def taken (doaliases had : Bool) (as : List (AddrMsg abi)) : List (AddrMsg abi) :=
  if doaliases then as else if had then [] else as.take 1

theorem onNewaddr_unset (doaliases : Bool) (a : AddrMsg abi) (rest : List Byte) {s : IfiLoop}
    (h : s.ifi = none) : onNewaddr abi doaliases (a.bytes ++ rest) s = none := by
  simp [onNewaddr,h]

theorem onNewaddr_set (doaliases : Bool) (a : AddrMsg abi) (rest : List Byte) {s : IfiLoop}
    {ifi : IfiInfo} (h : s.ifi = some ifi) :
    ∃ s' ifi', onNewaddr abi doaliases (a.bytes ++ rest) s = some s' ∧ s'.ifi = some ifi' ∧
      ifi'.ident = ifi.ident ∧ ifi'.ifi_addr.isSome ∧
      s'.pairs = s.pairs ++ (taken doaliases ifi.ifi_addr.isSome [a]).map (fun a =>
        (ifi.ident,a.address)) ∧ ∀ x, x ∈ s'.tags ↔ x ∈ s.tags := by
  by_cases hskip : ifi.ifi_addr.isSome ∧ doaliases = false
  · refine ⟨s,ifi,?_,h,rfl,hskip.1,?_,fun _ => Iff.rfl⟩
    · simp only [onNewaddr,h,Option.bind_eq_bind,Option.bind_some,if_pos hskip,Option.pure_def]
    · simp [taken,hskip]
  · have hifa : (a.rti.map (Option.map (· ++ rest)))[RTAX_IFA]?.join = some (a.ifa ++ rest) := by
      rw [List.getElem?_map,a.ifa_eq]
      rfl
    cases haddr : ifi.ifi_addr with
    | none =>
      obtain ⟨brdaddr,hbrd⟩ := a.copyBrd rest (s.flags &&& IFF_BROADCAST) ifi.ifi_brdaddr
      obtain ⟨dstaddr,hdst⟩ := a.copyBrd rest (s.flags &&& IFF_POINTOPOINT) ifi.ifi_dstaddr
      let ifi' := { ifi with
        ifi_addr := some a.address, ifi_brdaddr := brdaddr, ifi_dstaddr := dstaddr }
      refine ⟨⟨s.before,some ifi',s.flags⟩,ifi',?_,rfl,rfl,rfl,?_,fun x => ?_⟩
      · simp only [onNewaddr,h,haddr,loadBig_append a.addrs_eq rest,a.rtaddrs rest,hifa,
          copySa_eq a.len_eq a.room rest,hbrd,hdst,Option.bind_eq_bind,Option.bind_some,
          Option.pure_def,Option.isSome_none,Bool.false_eq_true,false_and,if_false]
        rfl
      · have hold : ifi.carried = none := by simp [IfiInfo.carried,haddr]
        have hnew : ifi'.carried = some (ifi.ident,a.address) := rfl
        simp [IfiLoop.pairs,IfiLoop.list,h,hold,hnew,taken]
      · have hsame : ifi'.ident = ifi.ident := rfl
        simp [IfiLoop.tags,IfiLoop.list,h,hsame]
    | some x =>
      have halias : doaliases = true := by
        rw [haddr] at hskip
        simpa using hskip
      obtain ⟨brdaddr,hbrd⟩ := a.copyBrd rest (s.flags &&& IFF_BROADCAST) none
      obtain ⟨dstaddr,hdst⟩ := a.copyBrd rest (s.flags &&& IFF_POINTOPOINT) none
      let ifi' := { ifi with
        ifi_addr := some a.address, ifi_brdaddr := brdaddr, ifi_dstaddr := dstaddr }
      refine ⟨⟨s.list,some ifi',s.flags⟩,ifi',?_,rfl,rfl,rfl,?_,fun x => ?_⟩
      · simp only [onNewaddr,h,haddr,halias,loadBig_append a.addrs_eq rest,a.rtaddrs rest,hifa,
          copySa_eq a.len_eq a.room rest,hbrd,hdst,Option.bind_eq_bind,Option.bind_some,
          Option.pure_def,Option.isSome_some,if_true]
        rfl
      · have hnew : ifi'.carried = some (ifi.ident,a.address) := rfl
        simp [IfiLoop.pairs,IfiLoop.list,hnew,taken,halias]
      · have hsame : ifi'.ident = ifi.ident := rfl
        simp only [IfiLoop.tags,IfiLoop.list,h,hsame,Option.toList_some,List.map_append,
          List.map_cons,List.map_nil,List.mem_append,List.mem_singleton,or_assoc,or_self]

/-! ## The entry of an interface -/

/-- A NUL follows the name somewhere in the buffer. -/
def IfMsg.Readable (m : IfMsg abi) (rest : List Byte) : Prop :=
  m.sdl_nlen = 0 ∨ 0 ∈ m.behind rest

/-- The name ends where it should. -/
def IfMsg.NameKept (m : IfMsg abi) (rest : List Byte) : Prop :=
  m.sdl_nlen = 0 ∨ m.sdl_nlen = IFI_NAME - 1 ∨ (m.behind rest).head? = some 0

/-- What the entry can hold of the interface. -/
def IfMsg.Kept (m : IfMsg abi) (rest : List Byte) : Prop :=
  m.NameKept rest ∧ m.sdl_index < 32768 ∧ m.sdl_alen ≤ IFI_HADDR ∧ m.ifm_flags < 65536

theorem indexName_length {sdl_index : Nat} (h : sdl_index < 65536) :
    (indexName sdl_index).length ≤ IFI_NAME - 1 := by
  have hdigits := Nat.toDigits_length 10 sdl_index 5 (by decide) (by omega)
  have hword : "index ".toList.length = 6 := by decide
  have hmax : IFI_NAME - 1 = 15 := rfl
  have hlen : (indexName sdl_index).length =
      ("index ".toList ++ Nat.toDigits 10 sdl_index).length := List.length_map _
  rw [List.length_append] at hlen
  omega

theorem takeWhile_ne_nil_iff {l : List Byte} (h : 0 ∈ l) :
    (l.takeWhile fun c => c ≠ 0) = [] ↔ l.head? = some 0 := by
  cases l with
  | nil => simp at h
  | cons c l => by_cases hc : c = 0 <;> simp [hc]

/-- `%*s` goes on to the next NUL. -/
theorem ifiName_eq (m : IfMsg abi) (rest : List Byte) :
    (¬ m.Readable rest → ifiName m.sdl_index m.sdl_nlen ((m.sdl ++ rest).drop 8) = none) ∧
    (m.Readable rest → ∃ name,
      ifiName m.sdl_index m.sdl_nlen ((m.sdl ++ rest).drop 8) = some name ∧
        (name = m.ident.name ↔ m.NameKept rest)) := by
  have hshort : m.sdl_nlen ≤ IFI_NAME - 1 := Nat.le_of_lt_succ m.short
  rw [m.data_eq rest]
  by_cases hnlen : m.sdl_nlen = 0
  · refine ⟨fun h => absurd (.inl hnlen) h,fun _ => ⟨indexName m.sdl_index,?_,?_⟩⟩
    · have hindex : m.sdl_index < 65536 := loadBig_lt m.index_eq
      simp [ifiName,hnlen,List.take_of_length_le (indexName_length hindex)]
    · simp [IfMsg.ident,IfMsg.NameKept,hnlen]
  · have hpos : 0 < m.sdl_nlen := by omega
    have hplain : ∀ c ∈ m.name, c ≠ 0 := fun c hc h0 => m.plain (h0 ▸ hc)
    have hbehind : m.Readable rest ↔ 0 ∈ m.name ++ m.behind rest := by
      simp only [IfMsg.Readable,hnlen,false_or,List.mem_append]
      exact ⟨.inr,fun h => h.resolve_left m.plain⟩
    refine ⟨fun h => ?_,fun h => ?_⟩
    · rw [hbehind] at h
      rw [ifiName,if_pos hpos,starString,stringAt,List.drop_zero,if_neg h]
      rfl
    · have hnul : 0 ∈ m.behind rest := h.resolve_left hnlen
      rw [hbehind] at h
      refine ⟨(m.name ++ (m.behind rest).takeWhile fun c => c ≠ 0).take (IFI_NAME - 1),?_,?_⟩
      · rw [ifiName,if_pos hpos,starString,stringAt,List.drop_zero,if_pos h,
          List.takeWhile_append_of_pos (by simpa using hplain)]
        simp
      · have hident : m.ident.name = m.name := if_neg hnlen
        have hwhole : m.name.take (IFI_NAME - 1) = m.name :=
          List.take_of_length_le (by rw [m.name_length]; exact hshort)
        rw [hident,List.take_append,m.name_length,hwhole]
        simp only [List.append_right_eq_self,List.take_eq_nil_iff,IfMsg.NameKept,hnlen,false_or,
          takeWhile_ne_nil_iff hnul]
        constructor
        · rintro (hfull | hnext)
          · exact .inl (by omega)
          · exact .inr hnext
        · rintro (hfull | hnext)
          · exact .inl (by omega)
          · exact .inr hnext

theorem ifiHaddr_eq (m : IfMsg abi) (rest : List Byte) :
    ∃ haddr, ifiHaddr m.sdl_alen ((m.sdl ++ rest).drop (8 + m.sdl_nlen)) = some haddr ∧
      (haddr.take m.sdl_alen = m.lladdr ↔ m.sdl_alen ≤ IFI_HADDR) := by
  have hroom := m.room
  have hload : (if 0 < m.sdl_alen then
      load ((m.sdl ++ rest).drop (8 + m.sdl_nlen)) 0 (min IFI_HADDR m.sdl_alen) else some []) =
        some (m.lladdr.take IFI_HADDR) := by
    by_cases halen : 0 < m.sdl_alen
    · rw [if_pos halen,List.drop_append_of_le_length (by omega),
        load_left (by rw [List.length_drop]; omega),load,
        if_pos (by rw [List.length_drop]; omega),List.drop_zero,IfMsg.lladdr,List.take_take]
    · have hnone : m.lladdr = [] := List.length_eq_zero_iff.mp (by rw [m.lladdr_length]; omega)
      rw [if_neg halen,hnone,List.take_nil]
  refine ⟨_,by rw [ifiHaddr,hload]; rfl,?_⟩
  constructor
  · intro h
    have hlen := congrArg List.length h
    simp only [List.length_take,List.length_append,List.length_replicate,m.lladdr_length] at hlen
    omega
  · intro h
    have hall : m.lladdr.take IFI_HADDR = m.lladdr :=
      List.take_of_length_le (by rw [m.lladdr_length]; exact h)
    rw [hall,← m.lladdr_length,List.take_left]

theorem toShort_eq_iff {x : Nat} (h : x < 65536) : toShort x = x ↔ x < 32768 := by
  have hsize : (2^16 : Nat) = 65536 := by decide
  unfold toShort
  rw [hsize,Int.bmod_def]
  split <;> omega

theorem linkEntry_unreadable {m : IfMsg abi} {rest : List Byte} (h : ¬ m.Readable rest) :
    linkEntry m.ifm_flags (m.sdl ++ rest) = none := by
  simp [linkEntry,loadBig_append m.family,loadBig_append m.index_eq,loadBig_append m.nlen_eq,
    (ifiName_eq m rest).1 h]

/-- What an entry says of an interface, by what it can hold. -/
structure Entry (m : IfMsg abi) (rest : List Byte) (ident : Ident) : Prop where
  index : ident.index = toShort m.sdl_index
  name : ident.name = m.ident.name ↔ m.NameKept rest
  whole : ident = m.ident ↔ m.Kept rest

theorem linkEntry_readable {m : IfMsg abi} {rest : List Byte} (h : m.Readable rest) :
    ∃ ifi, linkEntry m.ifm_flags (m.sdl ++ rest) = some ifi ∧ ifi.ifi_addr = none ∧
      Entry m rest ifi.ident := by
  obtain ⟨name,hname,hkept⟩ := (ifiName_eq m rest).2 h
  obtain ⟨haddr,hhaddr,hall⟩ := ifiHaddr_eq m rest
  have hindex : toShort m.sdl_index = m.ident.index ↔ m.sdl_index < 32768 :=
    toShort_eq_iff (loadBig_lt m.index_eq)
  have hflags : m.ifm_flags % 65536 = m.ident.flags ↔ m.ifm_flags < 65536 :=
    Nat.mod_eq_iff_lt (by decide)
  have hlladdr : m.ident.haddr = m.lladdr := rfl
  have hentry : linkEntry m.ifm_flags (m.sdl ++ rest) = some
      ⟨name,toShort m.sdl_index,m.sdl_alen,haddr,m.ifm_flags % 65536,none,none,none⟩ := by
    simp [linkEntry,loadBig_append m.family,loadBig_append m.index_eq,loadBig_append m.nlen_eq,
      loadBig_append m.alen_eq,hname,hhaddr]
  refine ⟨_,hentry,rfl,by dsimp only [IfiInfo.ident],hkept,?_⟩
  rw [IfMsg.Kept,← hkept,← hindex,← hall,← hflags,← hlladdr]
  simp only [Ident.ext_iff,IfiInfo.ident]

/-! ## The messages of an interface -/

theorem addrs_unset (doaliases : Bool) {as : List (AddrMsg abi)} (has : as ≠ [])
    (rest : List Byte) {s : IfiLoop} (h : s.ifi = none) :
    fold Msg.bytes (ifiStep doaliases) rest (as.map .addr) s = .error .fault := by
  cases as with
  | nil => exact absurd rfl has
  | cons a as => simp [fold,ifiStep,onNewaddr_unset doaliases a _ h,inside,Except.bind]

theorem taken_cons (doaliases had : Bool) (a : AddrMsg abi) (as : List (AddrMsg abi)) :
    taken doaliases had (a :: as) = taken doaliases had [a] ++ taken doaliases true as := by
  cases doaliases <;> cases had <;> simp [taken]

theorem addrs_set (doaliases : Bool) (as : List (AddrMsg abi)) (rest : List Byte) {s : IfiLoop}
    {ifi : IfiInfo} (h : s.ifi = some ifi) :
    ∃ s' ifi', fold Msg.bytes (ifiStep doaliases) rest (as.map .addr) s = .ok s' ∧
      s'.ifi = some ifi' ∧ ifi'.ifi_addr.isSome = (ifi.ifi_addr.isSome || !as.isEmpty) ∧
      s'.pairs = s.pairs ++ (taken doaliases ifi.ifi_addr.isSome as).map (fun a =>
        (ifi.ident,a.address)) ∧ ∀ x, x ∈ s'.tags ↔ x ∈ s.tags := by
  induction as generalizing s ifi with
  | nil => exact ⟨s,ifi,rfl,h,by simp,by simp [taken],fun _ => Iff.rfl⟩
  | cons a as ih =>
    obtain ⟨s₁,ifi₁,hstep,hifi,hident,haddr,hpairs,htags⟩ := onNewaddr_set doaliases a
      ((as.map Msg.addr).flatMap Msg.bytes ++ rest) h
    obtain ⟨s₂,ifi₂,hfold,hifi₂,haddr₂,hpairs₂,htags₂⟩ := ih hifi
    refine ⟨s₂,ifi₂,?_,hifi₂,?_,?_,fun x => (htags₂ x).trans (htags x)⟩
    · rw [List.map_cons,fold,ifiStep,hstep]
      exact hfold
    · rw [haddr₂,haddr]
      simp
    · rw [hpairs₂,hpairs,hident,haddr,taken_cons _ _ a as,List.map_append,List.append_assoc]

/-- Whether the current entry has an address, if there is a current entry. -/
def IfiLoop.last (s : IfiLoop) : Option Bool := s.ifi.map fun ifi => ifi.ifi_addr.isSome

/-- The turns for a group, by what they do. The addresses of an interface that is down go to the
entry that is there, unless that one has its address and there are no aliases. -/
inductive GroupRun (doaliases : Bool) (g : Group abi) (rest : List Byte) (s : IfiLoop) :
    Except Exit IfiLoop → Prop where
  | unreadable : g.info.up → ¬ g.info.Readable (g.after rest) →
      GroupRun doaliases g rest s (.error .fault)
  | up {s' : IfiLoop} {ident : Ident} : g.info.up → g.info.Readable (g.after rest) →
      Entry g.info (g.after rest) ident → s'.last = some (!g.addrs.isEmpty) →
      s'.pairs = s.pairs ++ (taken doaliases false g.addrs).map (fun a => (ident,a.address)) →
      (∀ x, x ∈ s'.tags ↔ x ∈ s.tags ∨ x = ident.tag) → GroupRun doaliases g rest s (.ok s')
  | quiet {s' : IfiLoop} : ¬ g.info.up →
      (g.addrs ≠ [] → s.last = some true ∧ doaliases = false) → s'.last = s.last →
      s'.pairs = s.pairs → (∀ x, x ∈ s'.tags ↔ x ∈ s.tags) → GroupRun doaliases g rest s (.ok s')
  | unset : ¬ g.info.up → g.addrs ≠ [] → s.last = none →
      GroupRun doaliases g rest s (.error .fault)
  | stray {s' : IfiLoop} {extra : List (Ident × List Byte)} : ¬ g.info.up → g.addrs ≠ [] →
      ¬ (s.last = some true ∧ doaliases = false) → extra ≠ [] → s'.pairs = s.pairs ++ extra →
      s.last ≠ none → s'.last ≠ none → (∀ x, x ∈ s'.tags ↔ x ∈ s.tags) →
      GroupRun doaliases g rest s (.ok s')

theorem msgs_fault {doaliases : Bool} {g : Group abi} {rest : List Byte} {s : IfiLoop}
    (h : onInfo abi (g.info.bytes ++ g.after rest) s = none) :
    fold Msg.bytes (ifiStep doaliases) rest g.msgs s = .error .fault := by
  rw [Group.after] at h
  simp only [Group.msgs,fold,ifiStep,h,inside,Except.bind]

theorem msgs_ok {doaliases : Bool} {g : Group abi} {rest : List Byte} {s s₁ : IfiLoop}
    (h : onInfo abi (g.info.bytes ++ g.after rest) s = some s₁) :
    fold Msg.bytes (ifiStep doaliases) rest g.msgs s =
      fold Msg.bytes (ifiStep doaliases) rest (g.addrs.map .addr) s₁ := by
  rw [Group.after] at h
  simp only [Group.msgs,fold,ifiStep,h,inside,Except.bind]

theorem group_run (doaliases : Bool) (g : Group abi) (rest : List Byte) (s : IfiLoop) :
    GroupRun doaliases g rest s (fold Msg.bytes (ifiStep doaliases) rest g.msgs s) := by
  by_cases hup : g.info.up
  · have hinfo := onInfo_up hup (g.after rest) s
    by_cases hread : g.info.Readable (g.after rest)
    · obtain ⟨ifi,hentry,haddr,hident⟩ := linkEntry_readable hread
      obtain ⟨s',ifi',hfold,hifi',haddr',hpairs,htags⟩ := addrs_set doaliases g.addrs rest
        (s := ⟨s.list,some ifi,g.info.ifm_flags⟩) rfl
      have hnew : IfiLoop.pairs ⟨s.list,some ifi,g.info.ifm_flags⟩ = s.pairs := by
        simp [IfiLoop.pairs,IfiLoop.list,IfiInfo.carried,haddr]
      rw [hentry] at hinfo
      rw [msgs_ok hinfo,hfold]
      refine .up hup hread hident ?_ ?_ fun x => (htags x).trans ?_
      · rw [IfiLoop.last,hifi',Option.map_some,haddr',haddr]
        rfl
      · rw [hpairs,hnew,haddr]
        rfl
      · simp [IfiLoop.tags,IfiLoop.list,or_assoc]
    · rw [linkEntry_unreadable hread] at hinfo
      rw [msgs_fault hinfo]
      exact .unreadable hup hread
  · rw [msgs_ok (onInfo_down hup (g.after rest) s)]
    by_cases haddrs : g.addrs = []
    · rw [haddrs]
      exact .quiet hup (absurd haddrs) rfl rfl fun _ => Iff.rfl
    rcases Option.eq_none_or_eq_some s.ifi with hifi | ⟨ifi,hifi⟩
    · have hlast : s.last = none := by rw [IfiLoop.last,hifi]; rfl
      rw [addrs_unset doaliases haddrs rest (s := { s with flags := g.info.ifm_flags }) hifi]
      exact .unset hup haddrs hlast
    · obtain ⟨s',ifi',hfold,hifi',haddr',hpairs,htags⟩ := addrs_set doaliases g.addrs rest
        (s := { s with flags := g.info.ifm_flags }) hifi
      have hlast : s.last = some ifi.ifi_addr.isSome := by rw [IfiLoop.last,hifi]; rfl
      rw [hfold]
      by_cases hfull : s.last = some true ∧ doaliases = false
      · have hhad : ifi.ifi_addr.isSome = true := by simpa [hlast] using hfull.1
        refine .quiet hup (fun _ => hfull) ?_ ?_ htags
        · rw [IfiLoop.last,hifi',Option.map_some,haddr',hhad,hlast,hhad]
          rfl
        · rw [hpairs,hhad,hfull.2]
          exact List.append_nil _
      · have hset : s'.last ≠ none := by simp [IfiLoop.last,hifi']
        refine .stray hup haddrs hfull ?_ hpairs (by simp [hlast]) hset htags
        rw [hlast] at hfull
        obtain ⟨a,as,hcons⟩ := List.exists_cons_of_ne_nil haddrs
        rw [hcons]
        cases doaliases with
        | false => simpa [taken] using hfull
        | true => simp [taken]

/-! ## The whole list -/

/-- The buffers for which the list is right, by whether the entry that comes last has an address:
no address follows an interface that is down, unless it is passed over, and each interface that is
up leaves its data whole. -/
def Clean (doaliases : Bool) : Option Bool → List (Group abi) → Prop
  | _, [] => True
  | last, g :: gs =>
    if g.info.up then
      g.info.Readable (g.after (buffer gs)) ∧
        (g.addrs ≠ [] → g.info.Kept (g.after (buffer gs))) ∧
        Clean doaliases (some (!g.addrs.isEmpty)) gs
    else (g.addrs ≠ [] → last = some true ∧ doaliases = false) ∧ Clean doaliases last gs

theorem expected_up {doaliases : Bool} {g : Group abi} (h : g.info.up) :
    g.expected doaliases = (taken doaliases false g.addrs).map fun a =>
      (g.info.ident,a.address) := by
  rw [Group.expected,if_pos h]
  rfl

theorem expected_down {doaliases : Bool} {g : Group abi} (h : ¬ g.info.up) :
    g.expected doaliases = [] := if_neg h

theorem own_eq_iff {doaliases : Bool} {g : Group abi} {rest : List Byte} {ident : Ident}
    (hup : g.info.up) (h : Entry g.info rest ident) :
    (taken doaliases false g.addrs).map (fun a => (ident,a.address)) = g.expected doaliases ↔
      (g.addrs ≠ [] → g.info.Kept rest) := by
  rw [expected_up hup]
  constructor
  · intro heq hne
    obtain ⟨a,as,hcons⟩ := List.exists_cons_of_ne_nil hne
    rw [hcons] at heq
    refine h.whole.mp ?_
    cases doaliases <;> simp [taken] at heq
    · exact heq
    · exact heq.1
  · intro hkept
    by_cases hne : g.addrs = []
    · simp [taken,hne]
    · rw [h.whole.mpr (hkept hne)]

/-- A run adds at least as many addresses as belong in the list. -/
theorem groups_longer {doaliases : Bool} (gs : List (Group abi)) {s s' : IfiLoop}
    (h : fold Msg.bytes (ifiStep doaliases) [] (gs.flatMap Group.msgs) s = .ok s') :
    ∃ more, s'.pairs = s.pairs ++ more ∧
      (gs.flatMap (Group.expected doaliases)).length ≤ more.length := by
  induction gs generalizing s with
  | nil =>
    cases h
    exact ⟨[],by simp,Nat.le_refl _⟩
  | cons g gs ih =>
    have hrun := group_run doaliases g (buffer gs) s
    obtain ⟨s₁,hfold,hrest⟩ := groups_ok h
    rw [hfold] at hrun
    obtain ⟨more,hmore,hlen⟩ := ih hrest
    rw [List.flatMap_cons,List.length_append]
    cases hrun with
    | up hup hread hident hlast hpairs htags =>
      refine ⟨_,by rw [hmore,hpairs,List.append_assoc],?_⟩
      rw [expected_up hup,List.length_append,List.length_map,List.length_map]
      omega
    | quiet hdown hpassed hlast hpairs htags =>
      refine ⟨more,by rw [hmore,hpairs],?_⟩
      rw [expected_down hdown]
      simpa using hlen
    | @stray s' extra hdown haddrs hfull hextra hpairs hset hset' htags =>
      refine ⟨extra ++ more,by rw [hmore,hpairs,List.append_assoc],?_⟩
      rw [expected_down hdown,List.length_append]
      exact Nat.le_trans (by simpa using hlen) (Nat.le_add_left _ _)

/-- The addresses come out right for the clean buffers and for no others. -/
theorem groups_iff (doaliases : Bool) (gs : List (Group abi)) (s : IfiLoop) :
    (∃ s', fold Msg.bytes (ifiStep doaliases) [] (gs.flatMap Group.msgs) s = .ok s' ∧
      s'.pairs = s.pairs ++ gs.flatMap (Group.expected doaliases)) ↔ Clean doaliases s.last gs := by
  induction gs generalizing s with
  | nil => simp [fold,Clean]
  | cons g gs ih =>
    have hrun := group_run doaliases g (buffer gs) s
    rw [groups_cons,Clean]
    cases hfold : fold Msg.bytes (ifiStep doaliases) (buffer gs) g.msgs s with
    | error e =>
      rw [hfold] at hrun
      cases hrun with
      | unreadable hup hread => simp [Except.bind,hup,hread]
      | unset hdown haddrs hlast => simp [Except.bind,hdown,haddrs,hlast]
    | ok s₁ =>
      rw [hfold] at hrun
      simp only [Except.bind]
      cases hrun with
      | @up _ ident hup hread hident hlast hpairs htags =>
        have hown : (taken doaliases false g.addrs).map (fun a => (ident,a.address)) =
            g.expected doaliases ↔ _ := own_eq_iff hup hident
        rw [if_pos hup,← hlast,← ih s₁,← hown,List.flatMap_cons]
        constructor
        · rintro ⟨s',hrest,hall⟩
          obtain ⟨more,hmore,-⟩ := groups_longer gs hrest
          rw [hmore,hpairs,List.append_assoc,List.append_cancel_left_eq] at hall
          have hlen : ((taken doaliases false g.addrs).map fun a => (ident,a.address)).length =
              (g.expected doaliases).length := by
            rw [expected_up hup,List.length_map,List.length_map]
          obtain ⟨hfirst,hmore'⟩ := List.append_inj hall hlen
          exact ⟨hread,hfirst,s',hrest,by rw [hmore,hmore']⟩
        · rintro ⟨-,hfirst,s',hrest,hall⟩
          exact ⟨s',hrest,by rw [hall,hpairs,hfirst,List.append_assoc]⟩
      | quiet hdown hpassed hlast hpairs htags =>
        rw [if_neg hdown,and_iff_right hpassed,← hlast,← ih s₁,List.flatMap_cons,
          expected_down hdown,hpairs,List.nil_append]
      | @stray _ extra hdown haddrs hfull hextra hpairs hset hset' htags =>
        rw [if_neg hdown,List.flatMap_cons,expected_down hdown,List.nil_append]
        constructor
        · rintro ⟨s',hrest,hall⟩
          obtain ⟨more,hmore,hlen⟩ := groups_longer gs hrest
          rw [hmore,hpairs,List.append_assoc,List.append_cancel_left_eq] at hall
          have hpos : 0 < extra.length := List.length_pos_of_ne_nil hextra
          rw [← hall,List.length_append] at hlen
          omega
        · rintro ⟨hclean,-⟩
          exact absurd (hclean haddrs) hfull

theorem getIfiInfo_walk (doaliases : Bool) (gs : List (Group abi)) {fuel : Nat}
    (hfuel : (gs.flatMap Group.msgs).length ≤ fuel) :
    getIfiInfo abi doaliases fuel (buffer gs) =
      .ofExcept (fold Msg.bytes (ifiStep doaliases) [] (gs.flatMap Group.msgs) ⟨[],none,0⟩) := by
  have hrecords := walk_records (fun m _ => ifiBody_takes doaliases m) (fun m _ => m.bytes_ne_nil)
    [] ⟨[],none,0⟩ hfuel
  rwa [List.append_nil] at hrecords

/-- For a buffer of any interfaces, `get_ifi_info` returns a list in which the addresses of the
interfaces that are up stand in order, each one with its interface, if and only if the buffer is
clean. -/
theorem getIfiInfo_iff (doaliases : Bool) (gs : List (Group abi)) {fuel : Nat}
    (hfuel : (gs.flatMap Group.msgs).length ≤ fuel) :
    (∃ s, getIfiInfo abi doaliases fuel (buffer gs) = .done s 0 ∧
      s.list.filterMap IfiInfo.carried = gs.flatMap (Group.expected doaliases)) ↔
        Clean doaliases none gs := by
  have hstart : _ ↔ Clean doaliases none gs := groups_iff doaliases gs ⟨[],none,0⟩
  rw [← hstart,getIfiInfo_walk doaliases gs hfuel]
  cases fold Msg.bytes (ifiStep doaliases) [] (gs.flatMap Group.msgs) ⟨[],none,0⟩ with
  | error e => simp [Walk.ofExcept]
  | ok s => simp [Walk.ofExcept,IfiLoop.pairs,IfiLoop.list]

theorem getIfiInfo_iff_en0 : ∃ s,
    getIfiInfo bsd true 3 (buffer [⟨en0,[inet1]⟩,⟨en1,[]⟩]) = .done s 0 ∧
      s.list.filterMap IfiInfo.carried = [(en0.ident,inet1.address)] := by
  refine (getIfiInfo_iff true [⟨en0,[inet1]⟩,⟨en1,[]⟩] (by decide)).mpr ?_
  have hup : en0.up := by decide
  have hdown : ¬ en1.up := by decide
  simp only [Clean,hup,hdown,if_true,if_false]
  refine ⟨.inr ?_,fun _ => ⟨.inr (.inr rfl),by decide,by decide,by decide⟩,by simp⟩
  exact List.mem_cons_self

/-- The address of "en1", which is down, is listed as one of "en0". -/
theorem getIfiInfo_stray : ∃ s,
    getIfiInfo bsd true 3 (buffer [⟨en0,[]⟩,⟨en1,[inet1]⟩]) = .done s 0 ∧ ¬ en1.up ∧
      s.list.filterMap IfiInfo.carried = [(en0.ident,inet1.address)] ∧
      [⟨en0,[]⟩,⟨en1,[inet1]⟩].flatMap (Group.expected true) = [] :=
  ⟨⟨[],some ⟨en0.name,1,6,[0,27,99,122,4,9,0,0],0x8843,some inet1.address,none,none⟩,0x8802⟩,
    by decide +kernel,by decide,by decide +kernel,by decide +kernel⟩

end UnixNet.Route
