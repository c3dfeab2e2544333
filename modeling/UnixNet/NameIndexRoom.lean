import Mathlib.Data.List.TakeWhile
import UnixNet.InterfaceNames
set_option autoImplicit false

/-! The block of `if_nameindex` on any list of messages: when it is large enough. -/

namespace UnixNet.Route
open Memory Records Sa

/-- An RTM_IFINFO message with a link-layer address that holds a name of any length. -/
structure LinkMsg (abi : Abi) where
  bytes : List Byte
  ifm_addrs : Nat
  rti : List (Option (List Byte))
  sdl : List Byte
  sdl_index : Nat
  sdl_nlen : Nat
  msglen : loadBig bytes 0 2 = some bytes.length
  type : loadBig bytes 3 1 = some RTM_IFINFO
  addrs_eq : loadBig bytes 4 4 = some ifm_addrs
  header : abi.ifm ≤ bytes.length
  rti_eq : getRtaddrs ifm_addrs (bytes.drop abi.ifm) = some rti
  ifp : rti[RTAX_IFP]? = some (some sdl)
  family : loadBig sdl 1 1 = some AF_LINK
  index_eq : loadBig sdl 2 2 = some sdl_index
  nlen_eq : loadBig sdl 5 1 = some sdl_nlen
  room : 8 + sdl_nlen ≤ sdl.length

/-- The addresses of an RTM_IFINFO message that has no link-layer address among them. -/
structure Unnamed (abi : Abi) (bytes : List Byte) : Prop where
  header : abi.ifm ≤ bytes.length
  rti : ∃ ifm_addrs rti, loadBig bytes 4 4 = some ifm_addrs ∧
    getRtaddrs ifm_addrs (bytes.drop abi.ifm) = some rti ∧
    ∀ sa, rti[RTAX_IFP]? = some (some sa) →
      ∃ family, loadBig sa 1 1 = some family ∧ family ≠ AF_LINK

/-- A message of another type, or one without a link-layer address. -/
structure OtherMsg (abi : Abi) where
  bytes : List Byte
  ifm_type : Nat
  msglen : loadBig bytes 0 2 = some bytes.length
  type : loadBig bytes 3 1 = some ifm_type
  unnamed : ifm_type = RTM_IFINFO → Unnamed abi bytes

inductive ListMsg (abi : Abi) where
  | link (m : LinkMsg abi)
  | other (m : OtherMsg abi)

variable {abi : Abi}

def ListMsg.bytes : ListMsg abi → List Byte
  | .link m => m.bytes
  | .other m => m.bytes

/-- The name of the interface, which `sdl_nlen` bounds. -/
def LinkMsg.name (m : LinkMsg abi) : List Byte :=
  ((m.sdl.drop 8).take m.sdl_nlen).takeWhile fun c => c ≠ 0

def interfaces (ms : List (ListMsg abi)) : List (Nat × Option (List Byte)) :=
  ms.flatMap fun
    | .link m => [(m.sdl_index,some m.name)]
    | .other _ => []

/-- The bytes of the block that a message takes. -/
def ListMsg.taking : ListMsg abi → Nat
  | .link m => m.sdl_nlen + 1 + IF_NAMEINDEX
  | .other _ => 0

def listStep (t : NameIndex) : ListMsg abi → List Byte → Except (Found Unit) NameIndex
  | .link m, rest => listLink (m.sdl ++ rest) t
  | .other _, _ => .ok t

theorem link_takes (m : LinkMsg abi) :
    Takes (linkBody abi listLink) ListMsg.bytes listStep (.link m) := by
  intro rest t
  have hrti : getRtaddrs m.ifm_addrs ((m.bytes ++ rest).drop abi.ifm) =
      some (m.rti.map (Option.map (· ++ rest))) := by
    rw [List.drop_append_of_le_length m.header]
    exact rtaddrsFrom_append m.rti_eq rest
  have hifp : (m.rti.map (Option.map (· ++ rest)))[RTAX_IFP]? = some (some (m.sdl ++ rest)) := by
    rw [List.getElem?_map,m.ifp]
    rfl
  simp only [linkBody,listStep,ListMsg.bytes,loadBig_append m.type rest,
    loadBig_append m.msglen rest,loadBig_append m.addrs_eq rest,hrti,hifp,
    loadBig_append m.family rest,orFault_bind,Option.bind_eq_bind,Option.bind_some,
    Option.join_some,if_true]
  cases listLink (m.sdl ++ rest) t <;> rfl

theorem other_takes (m : OtherMsg abi) :
    Takes (linkBody abi listLink) ListMsg.bytes listStep (.other m) := by
  intro rest t
  simp only [linkBody,listStep,ListMsg.bytes,loadBig_append m.type rest,
    loadBig_append m.msglen rest,orFault_bind]
  by_cases htype : m.ifm_type = RTM_IFINFO
  · obtain ⟨ifm_addrs,rti,haddrs,hrti,hifp⟩ := (m.unnamed htype).rti
    have hrti' : getRtaddrs ifm_addrs ((m.bytes ++ rest).drop abi.ifm) =
        some (rti.map (Option.map (· ++ rest))) := by
      rw [List.drop_append_of_le_length (m.unnamed htype).header]
      exact rtaddrsFrom_append hrti rest
    rw [if_pos htype,loadBig_append haddrs rest]
    simp only [Option.bind_eq_bind,Option.bind_some,hrti',orFault_bind,List.getElem?_map]
    cases hsa : rti[RTAX_IFP]? with
    | none => rfl
    | some o =>
      cases o with
      | none => rfl
      | some sa =>
        obtain ⟨family,hfamily,hne⟩ := hifp sa hsa
        simp only [Option.map_some,Option.join_some,loadBig_append hfamily rest,orFault_bind,
          if_neg hne]
        rfl
  · rw [if_neg htype]
    rfl

theorem ListMsg.takes (m : ListMsg abi) :
    Takes (linkBody abi listLink) ListMsg.bytes listStep m := by
  cases m with
  | link m => exact link_takes m
  | other m => exact other_takes m

theorem ListMsg.bytes_ne_nil (m : ListMsg abi) : m.bytes ≠ [] := by
  have hlen : loadBig m.bytes 0 2 = some m.bytes.length := by
    cases m with
    | link m => exact m.msglen
    | other m => exact m.msglen
  intro h
  rw [h] at hlen
  simp [loadBig,load] at hlen

theorem LinkMsg.long (m : LinkMsg abi) :
    m.sdl_nlen + 1 + IF_NAMEINDEX + IF_NAMEINDEX ≤ m.bytes.length :=
  name_long m.header m.rti_eq m.ifp m.room

/-- The messages with a name are long enough for the element behind the last as well. -/
theorem taking_le (ms : List (ListMsg abi)) : (ms.map ListMsg.taking).sum = 0 ∨
    (ms.map ListMsg.taking).sum + IF_NAMEINDEX ≤ (ms.flatMap ListMsg.bytes).length := by
  induction ms with
  | nil => exact .inl rfl
  | cons m ms ih =>
    rw [List.map_cons,List.sum_cons,List.flatMap_cons,List.length_append]
    cases m with
    | link m =>
      have hlong := m.long
      dsimp only [ListMsg.taking,ListMsg.bytes]
      omega
    | other m =>
      dsimp only [ListMsg.taking]
      omega

/-- What `strncpy` and the NUL behind it leave is the name. -/
theorem strncpy_string {m : List Byte} {n : Nat} (h : n ≤ m.length) :
    ∃ l, strncpy m n = some l ∧ l.length = n ∧
      ∀ names, stringAt (l ++ [0] ++ names) 0 = some ((m.take n).takeWhile fun c => c ≠ 0) := by
  have hle : ((m.take n).takeWhile fun c => c ≠ 0).length ≤ n :=
    Nat.le_trans (List.takeWhile_prefix _).length_le (List.length_take_le n m)
  have hplain : 0 ∉ (m.take n).takeWhile fun c => c ≠ 0 := by
    intro hmem
    simpa using List.mem_takeWhile_imp hmem
  refine ⟨_,if_pos (.inl h),?_,fun names => ?_⟩
  · rw [List.length_append,List.length_replicate]
    omega
  · generalize (m.take n).takeWhile (fun c => c ≠ 0) = s at hle hplain
    have hnul : s ++ List.replicate (n - s.length) 0 ++ [0] ++ names =
        s ++ 0 :: (List.replicate (n - s.length) 0 ++ names) := by
      rw [List.append_assoc s,← List.replicate_succ',List.replicate_succ]
      simp
    rw [hnul]
    exact stringAt_nul hplain _

theorem listLink_string (m : LinkMsg abi) (rest : List Byte) {t : NameIndex}
    (hroom : m.sdl_nlen + 1 + IF_NAMEINDEX ≤ t.free) :
    ∃ l, l.length = m.sdl_nlen + 1 ∧ stringAt (l ++ t.names) 0 = some m.name ∧
      listLink (m.sdl ++ rest) t =
        .ok ⟨t.entries ++ [(m.sdl_index,m.sdl_nlen + 1 + t.names.length)],l ++ t.names,
          t.free - (m.sdl_nlen + 1 + IF_NAMEINDEX)⟩ := by
  have hlen := m.room
  obtain ⟨l,hcopy,hl,hstring⟩ := strncpy_string (m := (m.sdl ++ rest).drop 8) (n := m.sdl_nlen)
    (by rw [List.length_drop,List.length_append]; omega)
  have hname : ((m.sdl ++ rest).drop 8).take m.sdl_nlen = (m.sdl.drop 8).take m.sdl_nlen := by
    rw [List.drop_append_of_le_length (by omega),
      List.take_append_of_le_length (by rw [List.length_drop]; omega)]
  have hl' : (l ++ [0]).length = m.sdl_nlen + 1 := by simp [hl]
  have hput : t.putName (l ++ [0]) =
      some ⟨t.entries,(l ++ [0]) ++ t.names,t.free - (l ++ [0]).length⟩ := if_pos (by omega)
  refine ⟨l ++ [0],hl',?_,?_⟩
  · rw [hstring,hname,LinkMsg.name]
  · simp only [listLink,loadBig_append m.nlen_eq rest,loadBig_append m.index_eq rest,orFault_bind,
      hcopy,hput,NameIndex.put,hl',Option.bind_eq_bind,Option.bind_some]
    rw [if_pos (by omega),orFault,Nat.sub_sub,List.length_append,hl']

/-- The names of the array are in the block. -/
def Placed (t : NameIndex) : Prop := ∀ e ∈ t.entries, e.2 ≤ t.names.length

/-- A turn appends its interface to the array, and each name that is there stays. -/
theorem listStep_adds (m : ListMsg abi) (rest : List Byte) {t : NameIndex}
    (hroom : m.taking ≤ t.free) (hin : Placed t) :
    ∃ t', listStep t m rest = .ok t' ∧ Placed t' ∧ t'.free = t.free - m.taking ∧
      t'.table = t.table ++ interfaces [m] := by
  cases m with
  | other m => exact ⟨t,rfl,hin,rfl,(List.append_nil _).symm⟩
  | link m =>
    obtain ⟨l,hl,hstring,hstep⟩ := listLink_string m rest hroom
    refine ⟨_,hstep,fun e he => ?_,rfl,?_⟩
    · dsimp only
      rw [List.length_append,hl]
      rcases List.mem_append.mp he with he | he
      · have hold := hin e he
        omega
      · rw [List.mem_singleton.mp he]
    · have hkept : t.entries.map (fun e => (e.1,stringAt (l ++ t.names)
          ((l ++ t.names).length - e.2))) = t.table :=
        List.map_congr_left fun e he => by rw [name_kept (hin e he),NameIndex.name]
      have hnew : stringAt (l ++ t.names)
          ((l ++ t.names).length - (m.sdl_nlen + 1 + t.names.length)) = some m.name := by
        rw [List.length_append,hl,Nat.sub_self]
        exact hstring
      rw [NameIndex.table,List.map_append]
      simp only [NameIndex.name]
      rw [hkept,List.map_singleton,hnew]
      rfl

theorem fold_list (ms : List (ListMsg abi)) {t : NameIndex}
    (hroom : (ms.map ListMsg.taking).sum ≤ t.free) (hin : Placed t) :
    ∃ t', fold ListMsg.bytes listStep [] ms t = .ok t' ∧
      t'.free = t.free - (ms.map ListMsg.taking).sum ∧ t'.table = t.table ++ interfaces ms := by
  induction ms generalizing t with
  | nil => exact ⟨t,rfl,rfl,(List.append_nil _).symm⟩
  | cons m ms ih =>
    rw [List.map_cons,List.sum_cons] at hroom
    obtain ⟨t₁,hstep,hin₁,hfree₁,htable₁⟩ := listStep_adds m (ms.flatMap ListMsg.bytes ++ [])
      (Nat.le_trans (Nat.le_add_right _ _) hroom) hin
    obtain ⟨t',hfold,hfree,htable⟩ := ih (by omega) hin₁
    refine ⟨t',?_,?_,?_⟩
    · rw [fold,hstep]
      exact hfold
    · rw [hfree,hfree₁,List.map_cons,List.sum_cons,Nat.sub_sub]
    · rw [htable,htable₁,List.append_assoc,interfaces,interfaces,← List.flatMap_append]
      rfl

/-- The array and the names keep apart, and all is in the block, exactly when the list is long
enough for the element that ends the array. -/
theorem ifNameindex_apart_iff (ms : List (ListMsg abi)) {fuel : Nat} (hfuel : ms.length ≤ fuel) :
    (∃ t, ifNameindex abi fuel (ms.flatMap ListMsg.bytes) = some t ∧
      t.table = interfaces ms ++ [(0,none)]) ↔
        IF_NAMEINDEX ≤ (ms.flatMap ListMsg.bytes).length := by
  have htaking := taking_le ms
  obtain ⟨t,hfold,hfree,htable⟩ := fold_list ms (t := ⟨[],[],(ms.flatMap ListMsg.bytes).length⟩)
    (by dsimp only; omega) (by simp [Placed])
  have hwalk := walk_records (fun m _ => m.takes) (fun m _ => m.bytes_ne_nil) []
    (⟨[],[],(ms.flatMap ListMsg.bytes).length⟩ : NameIndex) hfuel
  rw [List.append_nil,hfold] at hwalk
  have hrun : ifNameindex abi fuel (ms.flatMap ListMsg.bytes) = t.put 0 0 := by
    simp only [ifNameindex,hwalk,Walk.ofExcept]
  have hfits : IF_NAMEINDEX ≤ t.free ↔ IF_NAMEINDEX ≤ (ms.flatMap ListMsg.bytes).length := by
    rw [hfree]
    dsimp only
    omega
  rw [hrun,NameIndex.put,← hfits]
  constructor
  · rintro ⟨t',ht',_⟩
    by_contra hshort
    rw [if_neg hshort] at ht'
    cases ht'
  · intro hlong
    refine ⟨_,if_pos hlong,?_⟩
    have hnull : stringAt t.names (t.names.length - 0) = none := by
      rw [Nat.sub_zero,stringAt,List.drop_length]
      rfl
    rw [NameIndex.table,List.map_append]
    simp only [NameIndex.name,List.map_singleton,hnull]
    exact congrArg (· ++ [(0,none)]) htable

def en0Link : LinkMsg bsd where
  bytes := en0.bytes
  ifm_addrs := en0.ifm_addrs
  rti := en0.rti
  sdl := en0.sdl
  sdl_index := en0.sdl_index
  sdl_nlen := en0.sdl_nlen
  msglen := en0.msglen
  type := en0.type
  addrs_eq := en0.addrs_eq
  header := en0.header
  rti_eq := en0.rti_eq
  ifp := en0.ifp
  family := en0.family
  index_eq := en0.index_eq
  nlen_eq := en0.nlen_eq
  room := by decide

/-- The message with the address of `en0`, which the loop steps over. -/
def inet1Other : OtherMsg bsd where
  bytes := inet1.bytes
  ifm_type := RTM_NEWADDR
  msglen := inet1.msglen
  type := inet1.type
  unnamed h := absurd h (by decide)

theorem ifNameindex_apart_iff_en0 :
    (∃ t, ifNameindex bsd 2 ([.link en0Link,.other inet1Other].flatMap ListMsg.bytes) = some t ∧
      t.table = interfaces [.link en0Link,.other inet1Other] ++ [(0,none)]) ↔
        IF_NAMEINDEX ≤ ([.link en0Link,.other inet1Other].flatMap (@ListMsg.bytes bsd)).length :=
  ifNameindex_apart_iff [.link en0Link,.other inet1Other] (by decide)

/-- Without messages the block is empty, and the last element is behind it. -/
theorem ifNameindex_empty :
    ¬ ∀ (abi : Abi) (ms : List (ListMsg abi)) (fuel : Nat), ms.length ≤ fuel →
      ∃ t, ifNameindex abi fuel (ms.flatMap ListMsg.bytes) = some t ∧
        t.table = interfaces ms ++ [(0,none)] := by
  intro h
  obtain ⟨t,ht,_⟩ := h bsd [] 0 (Nat.le_refl 0)
  cases ht

end UnixNet.Route
