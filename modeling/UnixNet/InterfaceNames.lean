import Mathlib.Data.List.Nodup
import Mathlib.Data.List.Flatten
import Mathlib.Data.List.TakeWhile
import UnixNet.Library.Records
import UnixNet.RoutingMessage
import UnixNet.InterfaceList
set_option autoImplicit false

/-! `if_nametoindex`, `if_indextoname` and `if_nameindex`, which read the interface list each in its
own way, and the entries of `get_ifi_info` beside them. -/

namespace UnixNet.Route
open Memory Records Sa
variable {abi : Abi} {α β σ : Type}

/-- How a loop is left from within: by an invalid access, or with the result. -/
inductive Found (α : Type) where
  | fault : Found α
  | found (a : α) : Found α
  deriving DecidableEq, Repr

def orFault : Option β → Except (Found α) β
  | none => .error .fault
  | some b => .ok b

@[simp] theorem orFault_bind (b : β) (f : β → Except (Found α) σ) :
    (orFault (some b) >>= f) = f b := rfl

/-- The turn that the three loops have in common; `onLink` is for an address of AF_LINK. -/
def linkBody (abi : Abi) (onLink : List Byte → σ → Except (Found α) σ) (next : List Byte) (s : σ) :
    Except (Found α) (σ × Nat) := do
  let s ← if (← orFault (loadBig next 3 1)) = RTM_IFINFO then do
      let rti_info ← orFault do getRtaddrs (← loadBig next 4 4) (next.drop abi.ifm)
      match rti_info[RTAX_IFP]?.join with
      | none => pure s
      | some sa => if (← orFault (loadBig sa 1 1)) = AF_LINK then onLink sa s else pure s
    else pure s
  return (s,← orFault (loadBig next 0 2))

/-! ## From a name to its index -/

/-- Whether `strncmp` returns 0. -/
def strncmp : List Byte → List Byte → Nat → Option Bool
  | _, _, 0 => some true
  | c :: m, c' :: m', n+1 =>
    if c ≠ c' then some false else if c = 0 then some true else strncmp m m' n
  | _, _, _ => none

def nameLink (namelen : Nat) (name sdl : List Byte) (_ : Unit) : Except (Found Nat) Unit := do
  let sdl_nlen ← orFault (loadBig sdl 5 1)
  if sdl_nlen = namelen then
    if (← orFault (strncmp (sdl.drop 8) name sdl_nlen)) then
      throw (.found (← orFault (loadBig sdl 2 2)))

def ifNametoindex (abi : Abi) (name : List Byte) (fuel : Nat) (buf : List Byte) :
    Walk (Found Nat) Unit :=
  match stringAt name 0 with
  | none => .left .fault
  | some s => walk (linkBody abi (nameLink s.length name)) fuel buf.length buf ()

/-! ## From an index to its name -/

/-- What `strncpy` writes. -/
def strncpy (m : List Byte) (n : Nat) : Option (List Byte) :=
  let s := (m.take n).takeWhile fun c => c ≠ 0
  if n ≤ m.length ∨ 0 ∈ m then some (s ++ List.replicate (n - s.length) 0) else none

/-- `name` is the memory of the caller. -/
def indexLink (idx : Nat) (name sdl : List Byte) (_ : Unit) : Except (Found (List Byte)) Unit := do
  if (← orFault (loadBig sdl 2 2)) = idx then
    let slen := min (IFNAMSIZ - 1) (← orFault (loadBig sdl 5 1))
    let name ← orFault do store name 0 (← strncpy (sdl.drop 8) slen)
    throw (.found (← orFault (store name slen [0])))

def ifIndextoname (abi : Abi) (idx : Nat) (name : List Byte) (fuel : Nat) (buf : List Byte) :
    Walk (Found (List Byte)) Unit := walk (linkBody abi (indexLink idx name)) fuel buf.length buf ()

/-! ## All names -/

/-- `sizeof(struct if_nameindex)`. -/
def IF_NAMEINDEX : Nat := 16

/-- The block from `malloc`: the array from its front, the names from its end, and how much is free
between them. A pointer into it is told by the distance from the end, which is 0 for no name. -/
structure NameIndex where
  entries : List (Nat × Nat)
  names : List Byte
  free : Nat
  deriving DecidableEq, Repr

/-- The next element of the array, if it does not run into the names. -/
def NameIndex.put (t : NameIndex) (if_index if_name : Nat) : Option NameIndex :=
  if IF_NAMEINDEX ≤ t.free then
    some ⟨t.entries ++ [(if_index,if_name)],t.names,t.free - IF_NAMEINDEX⟩ else none

/-- The next name, if it does not run into the array. -/
def NameIndex.putName (t : NameIndex) (name : List Byte) : Option NameIndex :=
  if name.length ≤ t.free then
    some ⟨t.entries,name ++ t.names,t.free - name.length⟩ else none

def listLink (sdl : List Byte) (t : NameIndex) : Except (Found Unit) NameIndex := do
  let sdl_nlen ← orFault (loadBig sdl 5 1)
  let t ← orFault do t.putName ((← strncpy (sdl.drop 8) sdl_nlen) ++ [0])
  orFault (t.put (← orFault (loadBig sdl 2 2)) t.names.length)

def ifNameindex (abi : Abi) (fuel : Nat) (buf : List Byte) : Option NameIndex :=
  match walk (linkBody abi listLink) fuel buf.length buf ⟨[],[],buf.length⟩ with
  | .done t _ => t.put 0 0
  | _ => none

/-- The name to which an element points. -/
def NameIndex.name (t : NameIndex) (if_name : Nat) : Option (List Byte) :=
  stringAt t.names (t.names.length - if_name)

/-- What the loop of a caller sees, up to the element with the index 0. -/
def NameIndex.list (t : NameIndex) : List (Nat × Option (List Byte)) :=
  (t.entries.takeWhile fun e => 0 < e.1).map fun e => (e.1,t.name e.2)

/-! ## The interfaces in the list -/

def linkStep (onLink : List Byte → σ → Except (Found α) σ) (s : σ) :
    Msg abi → List Byte → Except (Found α) σ
  | .info m, rest => onLink (m.sdl ++ rest) s
  | .addr _, _ => .ok s

theorem linkBody_takes (onLink : List Byte → σ → Except (Found α) σ) (m : Msg abi) :
    Takes (linkBody abi onLink) Msg.bytes (linkStep onLink) m := by
  intro rest s
  cases m with
  | info m =>
    obtain ⟨rti,hrti,hifp⟩ := m.rtaddrs rest
    have haddrs := loadBig_append m.addrs_eq rest
    have hfamily := loadBig_append m.family rest
    simp only [linkBody,linkStep,Msg.bytes,loadBig_append m.type rest,loadBig_append m.msglen rest,
      haddrs,hrti,hifp,hfamily,orFault_bind,Option.bind_eq_bind,Option.bind_some,Option.join_some,
      if_true]
    cases onLink (m.sdl ++ rest) s <;> rfl
  | addr a =>
    simp only [linkBody,linkStep,Msg.bytes,loadBig_append a.type rest,loadBig_append a.msglen rest,
      orFault_bind]
    rfl

/-- The links of the groups, one after the other. -/
def links (onLink : List Byte → σ → Except (Found α) σ) (gs : List (Group abi)) (s : σ) :
    Except (Found α) σ := fold Msg.bytes (linkStep onLink) [] (gs.flatMap Group.msgs) s

theorem links_cons (onLink : List Byte → σ → Except (Found α) σ) (g : Group abi)
    (gs : List (Group abi)) (s : σ) : links onLink (g :: gs) s =
      (onLink (g.info.sdl ++ g.after (buffer gs)) s).bind (links onLink gs) := by
  have hskip : ∀ (as : List (AddrMsg abi)) (t : σ),
      fold Msg.bytes (linkStep onLink) (buffer gs) (as.map .addr) t = .ok t := by
    intro as t
    induction as with
    | nil => rfl
    | cons a as ih => exact ih
  rw [links,groups_cons,Group.msgs,fold,linkStep]
  show Except.bind (Except.bind (onLink (g.info.sdl ++ g.after (buffer gs)) s) _) _ = _
  cases onLink (g.info.sdl ++ g.after (buffer gs)) s with
  | error e => rfl
  | ok t =>
    simp only [Except.bind,hskip]
    rfl

theorem walk_links (onLink : List Byte → σ → Except (Found α) σ) (gs : List (Group abi)) (s : σ)
    {fuel : Nat} (hfuel : (gs.flatMap Group.msgs).length ≤ fuel) :
    walk (linkBody abi onLink) fuel (buffer gs).length (buffer gs) s =
      .ofExcept (links onLink gs s) := by
  have hrecords := walk_records (fun m _ => linkBody_takes onLink m) (fun m _ => m.bytes_ne_nil)
    [] s hfuel
  rwa [List.append_nil] at hrecords

/-- The search ends at the one interface that is looked for. -/
theorem links_find {onLink : List Byte → Unit → Except (Found α) Unit} {p : Group abi → Prop}
    [DecidablePred p] {result : α} {g : Group abi} (gs : List (Group abi))
    (h : ∀ q ∈ gs, ∀ rest, onLink (q.info.sdl ++ rest) () =
      if p q then .error (.found result) else .ok ())
    (hg : g ∈ gs) (hp : p g) : links onLink gs () = .error (.found result) := by
  induction gs with
  | nil => cases hg
  | cons q gs ih =>
    obtain ⟨hq,hgs⟩ := List.forall_mem_cons.mp h
    rw [links_cons,hq]
    by_cases hpq : p q
    · rw [if_pos hpq]
      rfl
    · rw [if_neg hpq]
      refine ih hgs ((List.mem_cons.mp hg).resolve_left ?_)
      rintro rfl
      exact hpq hp

/-! ## Names with and without a NUL -/

theorem stringAt_nul {name : List Byte} (h : 0 ∉ name) (m : List Byte) :
    stringAt (name ++ 0 :: m) 0 = some name := by
  have hplain : ∀ c ∈ name, c ≠ 0 := fun c hc h0 => h (h0 ▸ hc)
  rw [stringAt,List.drop_zero,if_pos (by simp),
    List.takeWhile_append_of_pos (by simpa using hplain)]
  simp

theorem stringAt_split {m name : List Byte} (h : stringAt m 0 = some name) :
    0 ∉ name ∧ ∃ rest, m = name ++ 0 :: rest := by
  by_cases hnul : 0 ∈ m
  · obtain ⟨text,rest,rfl,htext⟩ := List.eq_append_cons_of_mem hnul
    rw [stringAt_nul htext] at h
    cases h
    exact ⟨htext,rest,rfl⟩
  · rw [stringAt,List.drop_zero,if_neg hnul] at h
    cases h

theorem strncpy_name {name : List Byte} (h : 0 ∉ name) (m : List Byte) :
    strncpy (name ++ m) name.length = some name := by
  have hplain : ∀ c ∈ name, c ≠ 0 := fun c hc h0 => h (h0 ▸ hc)
  have hall : name.takeWhile (fun c => c ≠ 0) = name :=
    List.takeWhile_eq_self_iff.mpr (by simpa using hplain)
  rw [strncpy,List.take_left,hall,if_pos (.inl (by simp)),Nat.sub_self]
  simp

theorem strncmp_name {name name' : List Byte} (h : 0 ∉ name) (hlen : name.length = name'.length)
    (m m' : List Byte) :
    strncmp (name ++ m) (name' ++ m') name.length = some (decide (name = name')) := by
  induction name generalizing name' with
  | nil =>
    rw [List.eq_nil_of_length_eq_zero hlen.symm]
    simp [strncmp]
  | cons c name ih =>
    cases name' with
    | nil => cases hlen
    | cons c' name' =>
      obtain ⟨hc,hname⟩ := not_or.mp (fun hor => h (List.mem_cons.mpr hor))
      have hnul : ¬ c = 0 := fun h0 => hc h0.symm
      by_cases hsame : c = c'
      · subst hsame
        simp [strncmp,hnul,ih hname (Nat.succ.inj hlen)]
      · simp [strncmp,hsame]

theorem nameLink_eq (m : IfMsg abi) {name text : List Byte} (htext : stringAt name 0 = some text)
    (rest : List Byte) : nameLink text.length name (m.sdl ++ rest) () =
      if m.name = text then .error (.found m.sdl_index) else .ok () := by
  obtain ⟨-,more,rfl⟩ := stringAt_split htext
  simp only [nameLink,loadBig_append m.nlen_eq rest,loadBig_append m.index_eq rest,orFault_bind,
    m.data_eq rest]
  by_cases hlen : m.sdl_nlen = text.length
  · have hcmp : strncmp (m.name ++ m.behind rest) (text ++ 0 :: more) m.sdl_nlen =
        some (decide (m.name = text)) := by
      rw [← m.name_length]
      exact strncmp_name m.plain (m.name_length.trans hlen) (m.behind rest) (0 :: more)
    rw [if_pos hlen,hcmp]
    by_cases hname : m.name = text
    · simp only [hname,decide_true,orFault_bind,if_true]
      rfl
    · simp only [hname,decide_false,orFault_bind,if_false]
      rfl
  · have hne : m.name ≠ text := by
      rintro rfl
      exact hlen m.name_length.symm
    rw [if_neg hlen,if_neg hne]
    rfl

theorem indexLink_eq (m : IfMsg abi) (idx : Nat) {name : List Byte}
    (hroom : IFNAMSIZ ≤ name.length) (rest : List Byte) :
    indexLink idx name (m.sdl ++ rest) () = if m.sdl_index = idx then
      .error (.found (m.name ++ 0 :: name.drop (m.sdl_nlen + 1))) else .ok () := by
  have hshort : m.sdl_nlen ≤ IFNAMSIZ - 1 := Nat.le_of_lt_succ m.short
  have hcopy : strncpy ((m.sdl ++ rest).drop 8) (min (IFNAMSIZ - 1) m.sdl_nlen) = some m.name := by
    rw [m.data_eq,Nat.min_eq_right hshort,← m.name_length]
    exact strncpy_name m.plain _
  have hfirst : store name 0 m.name = some (m.name ++ name.drop m.sdl_nlen) := by
    rw [store,if_pos (by rw [m.name_length]; omega),List.take_zero,Nat.zero_add,m.name_length]
    rfl
  have hnul : store (m.name ++ name.drop m.sdl_nlen) (min (IFNAMSIZ - 1) m.sdl_nlen) [0] =
      some (m.name ++ 0 :: name.drop (m.sdl_nlen + 1)) := by
    have hlt : m.sdl_nlen < name.length := by
      have hsize : IFNAMSIZ = 16 := rfl
      omega
    rw [Nat.min_eq_right hshort,List.drop_eq_getElem_cons hlt]
    have hstore := @store_middle _ m.name (name.drop (m.sdl_nlen + 1)) [name[m.sdl_nlen]] [0] rfl
    rwa [m.name_length] at hstore
  simp only [indexLink,loadBig_append m.nlen_eq rest,loadBig_append m.index_eq rest,orFault_bind,
    hcopy,hfirst,hnul,Option.bind_eq_bind,Option.bind_some]
  by_cases hidx : m.sdl_index = idx
  · rw [if_pos hidx,if_pos hidx]
    rfl
  · rw [if_neg hidx,if_neg hidx]
    rfl

/-! ## The block of `if_nameindex` -/

/-- The bytes of the block that an interface takes. -/
def Group.taking (g : Group abi) : Nat := g.info.sdl_nlen + 1 + IF_NAMEINDEX

/-- A message has a header and an address before the name in it. -/
theorem name_long {bytes sdl : List Byte} {addrs nlen : Nat} {rti : List (Option (List Byte))}
    (hheader : abi.ifm ≤ bytes.length) (hrti : getRtaddrs addrs (bytes.drop abi.ifm) = some rti)
    (hifp : rti[RTAX_IFP]? = some (some sdl)) (hroom : 8 + nlen ≤ sdl.length) :
    nlen + 1 + IF_NAMEINDEX + IF_NAMEINDEX ≤ bytes.length := by
  have hdata := abi.data
  have hlength := rtaddrsFrom_length hrti sdl (List.mem_of_getElem? hifp)
  have hsizes : 16 + 2 * ULONG = 32 ∧ IF_NAMEINDEX = 16 := ⟨rfl,rfl⟩
  rw [List.length_drop] at hlength
  omega

theorem IfMsg.long (m : IfMsg abi) :
    IF_NAMEINDEX + (m.sdl_nlen + 1 + IF_NAMEINDEX) ≤ m.bytes.length := by
  rw [Nat.add_comm]
  exact name_long m.header m.rti_eq m.ifp (Nat.le_of_add_right_le m.room)

/-- The messages are longer than what is made of them. -/
theorem buffer_long (gs : List (Group abi)) :
    IF_NAMEINDEX * gs.length + (gs.map Group.taking).sum ≤ (buffer gs).length := by
  induction gs with
  | nil => exact Nat.zero_le _
  | cons g gs ih =>
    have hlong := g.info.long
    have hsplit : buffer (g :: gs) = g.info.bytes ++ g.after (buffer gs) := by
      simp [buffer,Group.msgs,Group.after,Msg.bytes]
    have hafter : (buffer gs).length ≤ (g.after (buffer gs)).length := by
      rw [Group.after,List.length_append]
      exact Nat.le_add_left _ _
    rw [hsplit,List.length_append,List.map_cons,List.sum_cons,List.length_cons,Nat.mul_succ]
    unfold Group.taking at ih ⊢
    omega

/-- The array as it reads now. -/
def NameIndex.table (t : NameIndex) : List (Nat × Option (List Byte)) :=
  t.entries.map fun e => (e.1,t.name e.2)

theorem listLink_eq (m : IfMsg abi) (rest : List Byte) {t : NameIndex}
    (hroom : m.sdl_nlen + 1 + IF_NAMEINDEX ≤ t.free) :
    listLink (m.sdl ++ rest) t = .ok ⟨t.entries ++ [(m.sdl_index,m.sdl_nlen + 1 + t.names.length)],
      m.name ++ 0 :: t.names,t.free - (m.sdl_nlen + 1 + IF_NAMEINDEX)⟩ := by
  have hcopy : strncpy ((m.sdl ++ rest).drop 8) m.sdl_nlen = some m.name := by
    rw [m.data_eq,← m.name_length]
    exact strncpy_name m.plain _
  have hname : (m.name ++ [0]).length = m.sdl_nlen + 1 := by simp
  have hput : ∀ l : List Byte, l.length = m.sdl_nlen + 1 → t.putName l =
      some ⟨t.entries,l ++ t.names,t.free - l.length⟩ := fun l hl => if_pos (by omega)
  simp only [listLink,loadBig_append m.nlen_eq rest,loadBig_append m.index_eq rest,orFault_bind,
    hcopy,hput _ hname,NameIndex.put,hname,Option.bind_eq_bind,Option.bind_some,List.length_append]
  rw [if_pos (by omega),orFault,List.append_assoc,Nat.sub_sub]
  rfl

/-- Names in front do not move a name. -/
theorem name_kept {names : List Byte} {n : Nat} (h : n ≤ names.length) (more : List Byte) :
    stringAt (more ++ names) ((more ++ names).length - n) = stringAt names (names.length - n) := by
  have hdrop : (more ++ names).drop ((more ++ names).length - n) =
      names.drop (names.length - n) := by
    rw [List.length_append,Nat.add_sub_assoc h,← List.drop_drop,List.drop_left]
  simp only [stringAt,hdrop]

/-- The turns of `if_nameindex` append the interfaces to the array. -/
theorem links_list (gs : List (Group abi)) {t : NameIndex}
    (hroom : (gs.map Group.taking).sum ≤ t.free) (hin : ∀ e ∈ t.entries, e.2 ≤ t.names.length) :
    ∃ t', links listLink gs t = .ok t' ∧ t'.free = t.free - (gs.map Group.taking).sum ∧
      t'.table = t.table ++ gs.map fun g => (g.info.sdl_index,some g.info.name) := by
  induction gs generalizing t with
  | nil => exact ⟨t,rfl,rfl,(List.append_nil _).symm⟩
  | cons g gs ih =>
    rw [List.map_cons,List.sum_cons] at hroom
    let t₁ : NameIndex := ⟨t.entries ++ [(g.info.sdl_index,g.info.sdl_nlen + 1 + t.names.length)],
      g.info.name ++ 0 :: t.names,t.free - g.taking⟩
    have hstep : listLink (g.info.sdl ++ g.after (buffer gs)) t = .ok t₁ :=
      listLink_eq g.info _ (Nat.le_trans (Nat.le_add_right _ _) hroom)
    have hnames : t₁.names = (g.info.name ++ [0]) ++ t.names := by simp [t₁]
    have hlength : t₁.names.length = g.info.sdl_nlen + 1 + t.names.length := by
      rw [hnames,List.length_append,List.length_append,IfMsg.name_length]
      rfl
    have hfree₁ : (gs.map Group.taking).sum ≤ t₁.free := Nat.le_sub_of_add_le' hroom
    have hin₁ : ∀ e ∈ t₁.entries, e.2 ≤ t₁.names.length := by
      intro e he
      rcases List.mem_append.mp he with he | he
      · have hold := hin e he
        omega
      · rw [List.mem_singleton.mp he,hlength]
    obtain ⟨t',hlinks,hfree,htable⟩ := ih hfree₁ hin₁
    refine ⟨t',?_,?_,?_⟩
    · rw [links_cons,hstep]
      exact hlinks
    · rw [hfree,List.map_cons,List.sum_cons,← Nat.sub_sub]
    · have hkept : t.entries.map (fun e => (e.1,t₁.name e.2)) = t.table :=
        List.map_congr_left fun e he => by
          rw [NameIndex.name,NameIndex.name,hnames,name_kept (hin e he)]
      have hnew : t₁.name (g.info.sdl_nlen + 1 + t.names.length) = some g.info.name := by
        rw [NameIndex.name,hlength,Nat.sub_self]
        exact stringAt_nul g.info.plain t.names
      rw [htable,NameIndex.table,List.map_append,hkept,List.map_singleton,hnew,List.append_assoc]
      rfl

/-! ## The readers -/

/-- The interfaces of a list are told apart by their names, which are not empty, and by their
indices, which are not 0. -/
structure Interfaces (gs : List (Group abi)) : Prop where
  names : (gs.map fun g => g.info.name).Nodup
  named : ∀ g ∈ gs, 0 < g.info.sdl_nlen
  indices : (gs.map fun g => g.info.sdl_index).Nodup
  indexed : ∀ g ∈ gs, 0 < g.info.sdl_index

theorem ifNametoindex_eq {gs : List (Group abi)} (hgs : Interfaces gs) {g : Group abi}
    (hg : g ∈ gs) {name : List Byte} (hname : stringAt name 0 = some g.info.name) {fuel : Nat}
    (hfuel : (gs.flatMap Group.msgs).length ≤ fuel) :
    ifNametoindex abi name fuel (buffer gs) = .left (.found g.info.sdl_index) := by
  have hturn : ∀ q ∈ gs, ∀ rest, nameLink g.info.name.length name (q.info.sdl ++ rest) () =
      if q.info.name = g.info.name then .error (.found g.info.sdl_index) else .ok () := by
    intro q hq rest
    rw [nameLink_eq q.info hname]
    by_cases hsame : q.info.name = g.info.name
    · rw [if_pos hsame,if_pos hsame,List.inj_on_of_nodup_map hgs.names hq hg hsame]
    · rw [if_neg hsame,if_neg hsame]
  have hlinks := links_find gs hturn hg rfl
  simp only [ifNametoindex,hname,walk_links _ gs () hfuel,hlinks,Walk.ofExcept]

theorem ifIndextoname_eq {gs : List (Group abi)} (hgs : Interfaces gs) {g : Group abi}
    (hg : g ∈ gs) {name : List Byte} (hname : IFNAMSIZ ≤ name.length) {fuel : Nat}
    (hfuel : (gs.flatMap Group.msgs).length ≤ fuel) :
    ∃ m, ifIndextoname abi g.info.sdl_index name fuel (buffer gs) = .left (.found m) ∧
      stringAt m 0 = some g.info.name := by
  refine ⟨_,?_,stringAt_nul g.info.plain (name.drop (g.info.sdl_nlen + 1))⟩
  have hturn : ∀ q ∈ gs, ∀ rest, indexLink g.info.sdl_index name (q.info.sdl ++ rest) () =
      if q.info.sdl_index = g.info.sdl_index then
        .error (.found (g.info.name ++ 0 :: name.drop (g.info.sdl_nlen + 1))) else .ok () := by
    intro q hq rest
    rw [indexLink_eq q.info g.info.sdl_index hname]
    by_cases hsame : q.info.sdl_index = g.info.sdl_index
    · rw [if_pos hsame,if_pos hsame,List.inj_on_of_nodup_map hgs.indices hq hg hsame]
    · rw [if_neg hsame,if_neg hsame]
  have hlinks := links_find gs hturn hg rfl
  simp only [ifIndextoname,walk_links _ gs () hfuel,hlinks,Walk.ofExcept]
  rfl

theorem ifNameindex_list {gs : List (Group abi)} (hgs : Interfaces gs) (hne : gs ≠ []) {fuel : Nat}
    (hfuel : (gs.flatMap Group.msgs).length ≤ fuel) :
    ∃ t, ifNameindex abi fuel (buffer gs) = some t ∧
      t.list = gs.map fun g => (g.info.sdl_index,some g.info.name) := by
  have hlong := buffer_long gs
  have hlength : 0 < gs.length := List.length_pos_of_ne_nil hne
  have hsize : IF_NAMEINDEX = 16 := rfl
  obtain ⟨t,hlinks,hfree,htable⟩ := links_list (t := ⟨[],[],(buffer gs).length⟩) gs
    (Nat.le_trans (Nat.le_add_left _ _) hlong) (by simp)
  have hput : t.put 0 0 = some ⟨t.entries ++ [(0,0)],t.names,t.free - IF_NAMEINDEX⟩ := by
    refine if_pos ?_
    rw [hfree,hsize]
    rw [hsize] at hlong
    dsimp only
    omega
  have hrun : ifNameindex abi fuel (buffer gs) =
      some ⟨t.entries ++ [(0,0)],t.names,t.free - IF_NAMEINDEX⟩ := by
    simp only [ifNameindex,walk_links _ gs _ hfuel,hlinks,Walk.ofExcept,hput]
  refine ⟨_,hrun,?_⟩
  have hpos : ∀ e ∈ t.entries, 0 < e.1 := by
    intro e he
    have hmem : (e.1,t.name e.2) ∈ t.table := List.mem_map_of_mem he
    rw [htable] at hmem
    obtain ⟨g,hg,heq⟩ := List.mem_map.mp hmem
    rw [← (Prod.mk.inj heq).1]
    exact hgs.indexed g hg
  have hsame : ∀ n, NameIndex.name ⟨t.entries ++ [(0,0)],t.names,t.free - IF_NAMEINDEX⟩ n =
      t.name n := fun _ => rfl
  rw [NameIndex.list,List.takeWhile_append_of_pos (by simpa using hpos)]
  simp only [hsame,List.takeWhile_cons,Nat.lt_irrefl,decide_false,Bool.false_eq_true,if_false,
    List.append_nil]
  exact htable

/-! ## The entries of `get_ifi_info` -/

theorem toShort_inj {x y : Nat} (hx : x < 65536) (hy : y < 65536) (h : toShort x = y) : x = y := by
  have hsize : (2^16 : Nat) = 65536 := by decide
  unfold toShort at h
  rw [hsize,Int.bmod_def] at h
  split at h <;> omega

theorem IfMsg.index_lt (m : IfMsg abi) : m.sdl_index < 65536 := loadBig_lt m.index_eq

theorem Entry.tag_iff {m : IfMsg abi} {rest : List Byte} {ident : Ident} (h : Entry m rest ident) :
    m.ident.tag = ident.tag ↔ m.NameKept rest ∧ m.sdl_index < 32768 := by
  have hindex : m.ident.index = ident.index ↔ m.sdl_index < 32768 := by
    rw [h.index,← toShort_eq_iff m.index_lt]
    exact eq_comm
  have hname : m.ident.name = ident.name ↔ m.NameKept rest := eq_comm.trans h.name
  rw [Ident.tag,Ident.tag,Prod.mk.injEq,hindex,hname]
  exact and_comm

/-- The buffers for which the entries have the names and indices of the interfaces, by whether there
is a current entry: each name of an interface that is up ends where it should, and no address comes
before the first of these interfaces. -/
def Named : Bool → List (Group abi) → Prop
  | _, [] => True
  | current, g :: gs =>
    if g.info.up then
      (g.info.Readable (g.after (buffer gs)) ∧ g.info.NameKept (g.after (buffer gs)) ∧
        g.info.sdl_index < 32768) ∧ Named true gs
    else ((∃ q ∈ gs, q.info.up) → g.addrs ≠ [] → current = true) ∧ Named current gs

theorem named_down {current : Bool} {gs : List (Group abi)} (h : ¬ ∃ q ∈ gs, q.info.up) :
    Named current gs := by
  induction gs with
  | nil => trivial
  | cons g gs ih =>
    have hg : ¬ g.info.up := fun hup => h ⟨g,List.mem_cons_self,hup⟩
    have hgs : ¬ ∃ q ∈ gs, q.info.up :=
      fun ⟨q,hq,hup⟩ => h ⟨q,List.mem_cons_of_mem _ hq,hup⟩
    rw [Named,if_neg hg]
    exact ⟨fun hup => absurd hup hgs,ih hgs⟩

/-- The turns for a group, by what they do to the names and indices of the entries. -/
inductive TagRun (g : Group abi) (rest : List Byte) (s : IfiLoop) : Except Exit IfiLoop → Prop where
  | unreadable : g.info.up → ¬ g.info.Readable (g.after rest) → TagRun g rest s (.error .fault)
  | up {s' : IfiLoop} {ident : Ident} : g.info.up → g.info.Readable (g.after rest) →
      Entry g.info (g.after rest) ident → s'.last.isSome = true →
      (∀ x, x ∈ s'.tags ↔ x ∈ s.tags ∨ x = ident.tag) → TagRun g rest s (.ok s')
  | unset : ¬ g.info.up → g.addrs ≠ [] → s.last.isSome = false → TagRun g rest s (.error .fault)
  | down {s' : IfiLoop} : ¬ g.info.up → (g.addrs ≠ [] → s.last.isSome = true) →
      s'.last.isSome = s.last.isSome → (∀ x, x ∈ s'.tags ↔ x ∈ s.tags) → TagRun g rest s (.ok s')

theorem tag_run (doaliases : Bool) (g : Group abi) (rest : List Byte) (s : IfiLoop) :
    TagRun g rest s (fold Msg.bytes (ifiStep doaliases) rest g.msgs s) := by
  have hrun := group_run doaliases g rest s
  generalize fold Msg.bytes (ifiStep doaliases) rest g.msgs s = r at hrun ⊢
  cases hrun with
  | unreadable hup hread => exact .unreadable hup hread
  | unset hdown haddrs hlast => exact .unset hdown haddrs (by rw [hlast]; rfl)
  | up hup hread hentry hlast hpairs htags =>
    exact .up hup hread hentry (by rw [hlast]; rfl) htags
  | quiet hdown hpassed hlast hpairs htags =>
    exact .down hdown (fun h => by rw [(hpassed h).1]; rfl) (by rw [hlast]) htags
  | stray hdown haddrs hfull hextra hpairs hset hset' htags =>
    have hsome := Option.isSome_iff_ne_none.mpr hset
    exact .down hdown (fun _ => hsome) (by rw [hsome,Option.isSome_iff_ne_none.mpr hset']) htags

/-- A run keeps the entries that are there, and those it makes have the indices of interfaces. -/
theorem groups_tags (doaliases : Bool) (gs : List (Group abi)) {s s' : IfiLoop}
    (h : fold Msg.bytes (ifiStep doaliases) [] (gs.flatMap Group.msgs) s = .ok s') :
    (∀ x ∈ s.tags, x ∈ s'.tags) ∧
      ∀ x ∈ s'.tags, x ∈ s.tags ∨ ∃ g ∈ gs, x.1 = toShort g.info.sdl_index := by
  induction gs generalizing s with
  | nil =>
    cases h
    exact ⟨fun _ hx => hx,fun _ hx => .inl hx⟩
  | cons g gs ih =>
    have hrun := tag_run doaliases g (buffer gs) s
    obtain ⟨s₁,hfold,hrest⟩ := groups_ok h
    rw [hfold] at hrun
    obtain ⟨hkeep,hnew⟩ := ih hrest
    have hstep : (∀ x ∈ s.tags, x ∈ s₁.tags) ∧
        ∀ x ∈ s₁.tags, x ∈ s.tags ∨ x.1 = toShort g.info.sdl_index := by
      cases hrun with
      | up hup hread hentry hset htags =>
        refine ⟨fun x hx => (htags x).mpr (.inl hx),fun x hx => ?_⟩
        rcases (htags x).mp hx with hx | rfl
        · exact .inl hx
        · exact .inr hentry.index
      | down hdown haddrs hset htags =>
        exact ⟨fun x hx => (htags x).mpr hx,fun x hx => .inl ((htags x).mp hx)⟩
    refine ⟨fun x hx => hkeep x (hstep.1 x hx),fun x hx => ?_⟩
    rcases hnew x hx with hx | ⟨q,hq,hx⟩
    · rcases hstep.2 x hx with hx | hx
      · exact .inl hx
      · exact .inr ⟨g,List.mem_cons_self,hx⟩
    · exact .inr ⟨q,List.mem_cons_of_mem _ hq,hx⟩

/-- From a current entry on there is no fault. -/
theorem groups_total (doaliases : Bool) (gs : List (Group abi)) {s : IfiLoop}
    (hs : s.last.isSome = true) (h : Named true gs) :
    ∃ s', fold Msg.bytes (ifiStep doaliases) [] (gs.flatMap Group.msgs) s = .ok s' := by
  induction gs generalizing s with
  | nil => exact ⟨s,rfl⟩
  | cons g gs ih =>
    have hrun := tag_run doaliases g (buffer gs) s
    rw [groups_cons]
    rw [Named] at h
    generalize fold Msg.bytes (ifiStep doaliases) (buffer gs) g.msgs s = r at hrun ⊢
    cases hrun with
    | unreadable hup hread =>
      rw [if_pos hup] at h
      exact absurd h.1.1 hread
    | unset hdown haddrs hnone => simp [hs] at hnone
    | up hup hread hentry hset htags =>
      rw [if_pos hup] at h
      exact ih hset h.2
    | down hdown haddrs hset htags =>
      rw [if_neg hdown] at h
      exact ih (hset.trans hs) h.2

/-- Only the entry that an interface got can speak of it, whatever comes after it. -/
theorem tag_mem_iff {doaliases : Bool} {m : IfMsg abi} {rest : List Byte} {gs : List (Group abi)}
    (hne : ∀ q ∈ gs, m.sdl_index ≠ q.info.sdl_index) {s s₁ s' : IfiLoop} {ident : Ident}
    (hentry : Entry m rest ident) (hold : ∀ x ∈ s.tags, x.1 ≠ m.sdl_index)
    (htags : ∀ x, x ∈ s₁.tags ↔ x ∈ s.tags ∨ x = ident.tag)
    (h : fold Msg.bytes (ifiStep doaliases) [] (gs.flatMap Group.msgs) s₁ = .ok s') :
    m.ident.tag ∈ s'.tags ↔ m.NameKept rest ∧ m.sdl_index < 32768 := by
  obtain ⟨hkeep,hnew⟩ := groups_tags doaliases gs h
  rw [← hentry.tag_iff]
  constructor
  · intro hmem
    rcases hnew _ hmem with hmem | ⟨q,hq,heq⟩
    · rcases (htags _).mp hmem with hmem | heq
      · exact absurd rfl (hold _ hmem)
      · exact heq
    · exact absurd (toShort_inj q.info.index_lt m.index_lt heq.symm).symm (hne q hq)
  · intro heq
    exact hkeep _ ((htags _).mpr (.inr heq))

/-- The entry that an interface got speaks of none of the others. -/
theorem fresh_after {m : IfMsg abi} {rest : List Byte} {gs : List (Group abi)}
    (hne : ∀ q ∈ gs, m.sdl_index ≠ q.info.sdl_index) {s s₁ : IfiLoop} {ident : Ident}
    (hentry : Entry m rest ident) (hfresh : ∀ q ∈ gs, ∀ x ∈ s.tags, x.1 ≠ q.info.sdl_index)
    (htags : ∀ x, x ∈ s₁.tags ↔ x ∈ s.tags ∨ x = ident.tag) :
    ∀ q ∈ gs, ∀ x ∈ s₁.tags, x.1 ≠ q.info.sdl_index := by
  intro q hq x hx heq
  rcases (htags x).mp hx with hx | rfl
  · exact hfresh q hq x hx heq
  · exact hne q hq (toShort_inj m.index_lt q.info.index_lt (hentry.index.symm.trans heq))

/-- The entries have the names and indices of the interfaces that are up for the named buffers and
for no others. -/
theorem groups_named_iff (doaliases : Bool) {gs : List (Group abi)}
    (hgs : (gs.map fun g => g.info.sdl_index).Nodup) {s : IfiLoop}
    (hfresh : ∀ g ∈ gs, ∀ x ∈ s.tags, x.1 ≠ g.info.sdl_index) :
    (∀ g ∈ gs, g.info.up → ∃ s',
      fold Msg.bytes (ifiStep doaliases) [] (gs.flatMap Group.msgs) s = .ok s' ∧
        g.info.ident.tag ∈ s'.tags) ↔ Named s.last.isSome gs := by
  induction gs generalizing s with
  | nil => simp [Named]
  | cons g gs ih =>
    have hrun := tag_run doaliases g (buffer gs) s
    obtain ⟨hother,hgs⟩ := List.nodup_cons.mp hgs
    have hne : ∀ q ∈ gs, g.info.sdl_index ≠ q.info.sdl_index :=
      fun q hq heq => hother (List.mem_map.mpr ⟨q,hq,heq.symm⟩)
    obtain ⟨hold,hlater⟩ := List.forall_mem_cons.mp hfresh
    rw [groups_cons,Named]
    generalize fold Msg.bytes (ifiStep doaliases) (buffer gs) g.msgs s = r at hrun ⊢
    cases hrun with
    | unreadable hup hread =>
      rw [if_pos hup]
      constructor
      · intro h
        obtain ⟨s',hrest,-⟩ := h g List.mem_cons_self hup
        cases hrest
      · rintro ⟨⟨hread',-⟩,-⟩
        exact absurd hread' hread
    | unset hdown haddrs hnone =>
      rw [if_neg hdown,hnone]
      constructor
      · intro h
        have hall : ¬ ∃ q ∈ gs, q.info.up := by
          rintro ⟨q,hq,hup⟩
          obtain ⟨s',hrest,-⟩ := h q (List.mem_cons_of_mem _ hq) hup
          cases hrest
        exact ⟨fun hup => absurd hup hall,named_down hall⟩
      · rintro ⟨hfirst,-⟩ q hq hup
        rcases List.mem_cons.mp hq with rfl | hq
        · exact absurd hup hdown
        · cases hfirst ⟨q,hq,hup⟩ haddrs
    | @down s₁ hdown haddrs hset htags =>
      have hfresh₁ : ∀ q ∈ gs, ∀ x ∈ s₁.tags, x.1 ≠ q.info.sdl_index :=
        fun q hq x hx => hlater q hq x ((htags x).mp hx)
      rw [if_neg hdown,← hset,← ih hgs hfresh₁]
      constructor
      · intro h
        exact ⟨fun _ hne => hset.trans (haddrs hne),
          fun q hq hup => h q (List.mem_cons_of_mem _ hq) hup⟩
      · rintro ⟨-,h⟩ q hq hup
        rcases List.mem_cons.mp hq with rfl | hq
        · exact absurd hup hdown
        · exact h q hq hup
    | @up s₁ ident hup hread hentry hset htags =>
      have hnamed := ih hgs (fresh_after hne hentry hlater htags)
      rw [hset] at hnamed
      rw [if_pos hup,← hnamed]
      constructor
      · intro h
        obtain ⟨s',hrest,hmem⟩ := h g List.mem_cons_self hup
        exact ⟨⟨hread,(tag_mem_iff hne hentry hold htags hrest).mp hmem⟩,
          fun q hq hup => h q (List.mem_cons_of_mem _ hq) hup⟩
      · rintro ⟨⟨-,hkept⟩,h⟩ q hq hup'
        rcases List.mem_cons.mp hq with rfl | hq
        · obtain ⟨s',hrest⟩ := groups_total doaliases gs hset (hnamed.mp h)
          exact ⟨s',hrest,(tag_mem_iff hne hentry hold htags hrest).mpr hkept⟩
        · exact h q hq hup'

/-! ## The agreement of the readers -/

/-- The readers agree on an interface of a list. When it is asked for one index, the kernel may
leave out other interfaces. -/
structure Agree (doaliases : Bool) (fuel : Nat) (gs : List (Group abi)) (g : Group abi) : Prop where
  indextoname : ∀ only, only.Sublist gs → g ∈ only → ∀ name : List Byte, IFNAMSIZ ≤ name.length →
    ∃ m, ifIndextoname abi g.info.sdl_index name fuel (buffer only) = .left (.found m) ∧
      stringAt m 0 = some g.info.name
  nametoindex : ∀ name, stringAt name 0 = some g.info.name →
    ifNametoindex abi name fuel (buffer gs) = .left (.found g.info.sdl_index)
  nameindex : ∃ t, ifNameindex abi fuel (buffer gs) = some t ∧
    t.list.count (g.info.sdl_index,some g.info.name) = 1
  entry : g.info.up → ∃ s, getIfiInfo abi doaliases fuel (buffer gs) = .done s 0 ∧
    ∃ e ∈ s.list, e.ifi_index = g.info.sdl_index ∧ e.ifi_name = g.info.name

theorem Interfaces.sublist {gs only : List (Group abi)} (h : Interfaces gs)
    (honly : only.Sublist gs) : Interfaces only where
  names := h.names.sublist (honly.map _)
  named g hg := h.named g (honly.subset hg)
  indices := h.indices.sublist (honly.map _)
  indexed g hg := h.indexed g (honly.subset hg)

theorem ident_tag {m : IfMsg abi} (h : 0 < m.sdl_nlen) : m.ident.tag = (↑m.sdl_index,m.name) := by
  have hname : m.ident.name = m.name := if_neg (by omega)
  rw [Ident.tag,hname]
  rfl

theorem tag_mem {s : IfiLoop} {m : IfMsg abi} (h : 0 < m.sdl_nlen) :
    m.ident.tag ∈ s.tags ↔ ∃ e ∈ s.list, e.ifi_index = m.sdl_index ∧ e.ifi_name = m.name := by
  simp only [ident_tag h,IfiLoop.tags,List.mem_map]
  refine exists_congr fun e => and_congr_right fun _ => ?_
  exact Prod.ext_iff

/-- The readers of the interface list agree on all interfaces if and only if the buffer is named. -/
theorem interfaces_agree_iff (doaliases : Bool) {gs : List (Group abi)} (hgs : Interfaces gs)
    {fuel : Nat} (hfuel : (gs.flatMap Group.msgs).length ≤ fuel) :
    (∀ g ∈ gs, Agree doaliases fuel gs g) ↔ Named false gs := by
  have hrun := getIfiInfo_walk doaliases gs hfuel
  have hstart : (∀ g ∈ gs, g.info.up → ∃ s,
      fold Msg.bytes (ifiStep doaliases) [] (gs.flatMap Group.msgs) ⟨[],none,0⟩ = .ok s ∧
        g.info.ident.tag ∈ s.tags) ↔ Named false gs :=
    groups_named_iff doaliases hgs.indices fun g hg x hx => by cases hx
  rw [← hstart]
  constructor
  · intro h g hg hup
    obtain ⟨s,hdone,hmem⟩ := (h g hg).entry hup
    refine ⟨s,?_,(tag_mem (hgs.named g hg)).mpr hmem⟩
    rw [hrun] at hdone
    exact Walk.ofExcept_done hdone
  · intro h g hg
    obtain ⟨t,ht,hlist⟩ := ifNameindex_list hgs (List.ne_nil_of_mem hg) hfuel
    refine ⟨?_,?_,⟨t,ht,?_⟩,?_⟩
    · intro only honly hmem name hname
      exact ifIndextoname_eq (hgs.sublist honly) hmem hname
        (Nat.le_trans (honly.flatMap Group.msgs).length_le hfuel)
    · intro name hname
      exact ifNametoindex_eq hgs hg hname hfuel
    · rw [hlist]
      refine List.count_eq_one_of_mem ?_ (List.mem_map_of_mem hg)
      refine List.Nodup.of_map Prod.fst ?_
      rw [List.map_map]
      exact hgs.indices
    · intro hup
      obtain ⟨s,hfold,hmem⟩ := h g hg hup
      exact ⟨s,by rw [hrun,hfold]; rfl,(tag_mem (hgs.named g hg)).mp hmem⟩

theorem interfaces_agree_iff_en0 :
    Agree true 3 [⟨en0,[inet1]⟩,⟨en1,[]⟩] ⟨en0,[inet1]⟩ := by
  have hgs : Interfaces [⟨en0,[inet1]⟩,⟨en1,[]⟩] :=
    ⟨by decide,by decide,by decide,by decide⟩
  refine (interfaces_agree_iff true hgs (by decide)).mpr ?_ _ List.mem_cons_self
  have hup : en0.up := by decide
  have hdown : ¬ en1.up := by decide
  simp only [Named,hup,hdown,if_true,if_false]
  exact ⟨⟨.inr List.mem_cons_self,.inr (.inr rfl),by decide⟩,by simp⟩

/-- "vtnet0", up, with the hardware address 52:54:0:12:34:56. -/
def vtnet0 : IfMsg bsd where
  bytes := linkMessage 0x8843 [20,18,0,1,6,6,6,0,118,116,110,101,116,48,82,84,0,18,52,86]
  ifm_addrs := 16
  ifm_flags := 0x8843
  rti := linkRti [20,18,0,1,6,6,6,0,118,116,110,101,116,48,82,84,0,18,52,86]
  sdl := [20,18,0,1,6,6,6,0,118,116,110,101,116,48,82,84,0,18,52,86]
  sdl_index := 1
  sdl_nlen := 6
  sdl_alen := 6
  msglen := by decide +kernel
  type := by decide +kernel
  addrs_eq := by decide +kernel
  flags_eq := by decide +kernel
  header := by decide +kernel
  rti_eq := rfl
  ifp := rfl
  family := rfl
  index_eq := rfl
  nlen_eq := rfl
  alen_eq := rfl
  room := by decide
  short := by decide
  plain := by decide

/-- The entry for "vtnet0" has the name "vtnet0RT". -/
theorem interfaces_disagree : Interfaces [⟨vtnet0,[]⟩] ∧ vtnet0.up ∧
    (∃ s, getIfiInfo bsd true 1 (buffer [⟨vtnet0,[]⟩]) = .done s 0 ∧
      s.list.map IfiInfo.ifi_name = [vtnet0.name ++ [82,84]]) ∧
    ¬ ∀ g ∈ [⟨vtnet0,[]⟩], Agree true 1 [⟨vtnet0,[]⟩] g := by
  have hrun : getIfiInfo bsd true 1 (buffer [⟨vtnet0,[]⟩]) = .done ⟨[],some ⟨vtnet0.name ++ [82,84],
      1,6,[82,84,0,18,52,86,0,0],0x8843,none,none,none⟩,0x8843⟩ 0 := by decide +kernel
  have hup : vtnet0.up := by decide
  refine ⟨⟨by decide,by decide,by decide,by decide⟩,hup,⟨_,hrun,rfl⟩,fun h => ?_⟩
  obtain ⟨s,hdone,e,he,-,hname⟩ := (h _ List.mem_cons_self).entry hup
  rw [hrun] at hdone
  cases hdone
  rw [List.mem_singleton.mp he] at hname
  exact absurd hname (by decide)

end UnixNet.Route
