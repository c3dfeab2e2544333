import Mathlib.Data.List.Nodup
import Mathlib.Algebra.Ring.Nat
import UnixNet.Library.Arena
import UnixNet.WebChild
set_option autoImplicit false

/-! The addrinfo structures of `getaddrinfo` and the ports that `ga_serv` puts into them. -/

namespace UnixNet.Gai
open Units

def AI_PASSIVE : Nat := 1
def AI_CLONE : Nat := 4

def AF_LOCAL : Nat := 1
def AF_INET : Nat := 2
def AF_INET6 : Nat := 28

def SOCK_STREAM : Int := 1
def SOCK_DGRAM : Int := 2

/-- The EAI_xxx codes of the functions below. -/
inductive Eai where
  | EAI_MEMORY : Eai
  | EAI_NONAME : Eai
  | EAI_SERVICE : Eai
  deriving DecidableEq, Repr

/-- `sin_port` and `sin6_port` are at the same place. `addr` is `sin_addr`, `sin6_addr` or
`sun_path`. -/
structure SockAddr where
  sa_len : Nat
  sa_family : Nat
  port : Nat
  addr : List Byte
  deriving DecidableEq, Repr

inductive Obj where
  | addrinfo : Obj
  | sockaddr (sa : SockAddr) : Obj
  deriving DecidableEq, Repr

abbrev Memory := Arena Obj

/-- An `addrinfo{}` with the number of its object. The order of a list is that of `ai_next`. -/
structure AddrInfo where
  self : Nat
  ai_flags : Nat
  ai_family : Nat
  ai_socktype : Int
  ai_protocol : Int
  ai_addrlen : Nat
  ai_canonname : Option Nat
  ai_addr : Option Nat
  deriving DecidableEq, Repr

structure Hints where
  ai_flags : Nat
  ai_socktype : Int
  ai_protocol : Int
  deriving DecidableEq, Repr

def sockaddrIn (addr : List Byte) : SockAddr := ⟨16,AF_INET,0,addr.take 4⟩
def sockaddrIn6 (addr : List Byte) : SockAddr := ⟨28,AF_INET6,0,addr.take 16⟩

/-- `SUN_LEN` leaves the NUL out. -/
def sockaddrUn (path : List Byte) : SockAddr := ⟨2 + path.length,AF_LOCAL,0,path⟩

/-- `sizeof(unp->sun_path)`. -/
def SUN_PATH : Nat := 104

def cString (s : List Byte) : List Byte := s.takeWhile fun c => c ≠ 0

/-- The list under construction, the objects, and the paths removed so far. -/
structure Search where
  aihead : List AddrInfo
  mem : Memory
  unlinked : List (List Byte)

/-- `calloc` for the socket address of the entry linked in last. -/
def giveAddr (ai : AddrInfo) (sa : SockAddr) (addrlen : Nat) (s : Search) : Option Eai × Search :=
  match s.mem.alloc (.sockaddr sa) with
  | (none,mem) => (some .EAI_MEMORY,{ s with aihead := s.aihead ++ [ai], mem := mem })
  | (some p,mem) =>
    let ai := { ai with ai_addr := some p, ai_addrlen := addrlen }
    (none,{ s with aihead := s.aihead ++ [ai], mem := mem })

/-- `**paipnext` is the end of the list. -/
def gaAistruct (hintsp : Hints) (addr : List Byte) (family : Nat) (s : Search) :
    Option Eai × Search :=
  match s.mem.alloc .addrinfo with
  | (none,mem) => (some .EAI_MEMORY,{ s with mem := mem })
  | (some self,mem) =>
    let ai : AddrInfo :=
      { self := self
        ai_flags := if hintsp.ai_socktype = 0 then AI_CLONE else 0
        ai_family := family
        ai_socktype := hintsp.ai_socktype
        ai_protocol := hintsp.ai_protocol
        ai_addrlen := 0
        ai_canonname := none
        ai_addr := none }
    let s := { s with mem := mem }
    if family = AF_INET then giveAddr ai (sockaddrIn addr) 16 s
    else if family = AF_INET6 then giveAddr ai (sockaddrIn6 addr) 28 s
    else if family = AF_LOCAL then
      if SUN_PATH ≤ (cString addr).length then
        (some .EAI_SERVICE,{ s with aihead := s.aihead ++ [ai] })
      else
        match giveAddr ai (sockaddrUn (cString addr)) (SUN_PATH + 2) s with
        | (none,s) =>
          if hintsp.ai_flags &&& AI_PASSIVE ≠ 0 then
            (none,{ s with unlinked := s.unlinked ++ [cString addr] })
          else (none,s)
        | r => r
    else (none,{ s with aihead := s.aihead ++ [ai] })

/-- `ga_aistruct` for one address after the other, until one of them fails. -/
def gaAistructs (hintsp : Hints) : List (Nat × List Byte) → Search → Option Eai × Search
  | [], s => (none,s)
  | (family,addr) :: as, s =>
    match gaAistruct hintsp addr family s with
    | (none,s) => gaAistructs hintsp as s
    | r => r

/-- What `p` points to, if that is a socket address. -/
def sockaddr (mem : Memory) (p : Option Nat) : Option SockAddr :=
  match p.bind mem.obj with
  | some (.sockaddr sa) => some sa
  | _ => none

/-- `memcpy` of the socket address of `ai` to the object `p`. -/
def copyAddr (ai : AddrInfo) (p : Nat) (mem : Memory) : Option Memory :=
  match sockaddr mem ai.ai_addr with
  | some sa => some (mem.update p fun _ => .sockaddr sa)
  | none => if ai.ai_addrlen = 0 then some mem else none

/-- The clone, or what is linked in behind `ai` when an allocation has failed. The outer `none` is
a copy from an invalid address. -/
def gaClone (ai : AddrInfo) (mem : Memory) : Option (Except (List AddrInfo) AddrInfo × Memory) :=
  match mem.alloc .addrinfo with
  | (none,mem) => some (.error [],mem)
  | (some self,mem) =>
    let new := { ai with self := self, ai_flags := 0, ai_canonname := none, ai_addr := none }
    match mem.alloc (.sockaddr ⟨0,0,0,[]⟩) with
    | (none,mem) => some (.error [new],mem)
    | (some p,mem) => (copyAddr ai p mem).map fun mem => (.ok { new with ai_addr := some p },mem)

def SockAddr.setPort (port : Int) (sa : SockAddr) : SockAddr :=
  { sa with port := (port % 65536).toNat }

def Obj.setPort (port : Int) : Obj → Obj
  | .addrinfo => .addrinfo
  | .sockaddr sa => .sockaddr (sa.setPort port)

/-- The end of the loop body: how much `nfound` grows, and what is stored. The outer `none` is a
store through an invalid address. -/
def setEntry (port socktype : Int) (ai : AddrInfo) (mem : Memory) :
    Option (Nat × AddrInfo × Memory) :=
  let ai := { ai with ai_socktype := socktype }
  if ai.ai_family = AF_INET ∨ ai.ai_family = AF_INET6 then
    match ai.ai_addr with
    | none => none
    | some p =>
      if (sockaddr mem (some p)).isSome then some (1,ai,mem.update p (Obj.setPort port)) else none
  else some (0,ai,mem)

/-- A turn of the loop: what it adds to `nfound`, or `none` for the return of -1, and the entries
that stand in the place of `ai` after it. -/
def portEntry (port socktype : Int) (ai : AddrInfo) (mem : Memory) :
    Option (Option Nat × List AddrInfo × Memory) :=
  if ai.ai_flags &&& AI_CLONE ≠ 0 then
    if ai.ai_socktype ≠ 0 then do
      match ← gaClone ai mem with
      | (.error linked,mem) => return (none,ai :: linked,mem)
      | (.ok new,mem) =>
        let (n,new,mem) ← setEntry port socktype new mem
        return (some n,[ai,new],mem)
    else do
      let (n,ai,mem) ← setEntry port socktype ai mem
      return (some n,[ai],mem)
  else if ai.ai_socktype ≠ socktype then some (some 0,[ai],mem)
  else do
    let (n,ai,mem) ← setEntry port socktype ai mem
    return (some n,[ai],mem)

/-- The first component is `nfound`, or `none` for the return of -1. -/
def gaPort (port socktype : Int) :
    List AddrInfo → Memory → Option (Option Nat × List AddrInfo × Memory)
  | [], mem => some (some 0,[],mem)
  | ai :: ais, mem => do
    match ← portEntry port socktype ai mem with
    | (none,here,mem) => return (none,here ++ ais,mem)
    | (some n,here,mem) =>
      let (rc,rest,mem) ← gaPort port socktype ais mem
      return (rc.map (n + ·),here ++ rest,mem)

/-- One `ga_port` after the other, with the sum of what they have found. -/
def gaPorts : List (Int × Int) → List AddrInfo → Memory →
    Option (Option Nat × List AddrInfo × Memory)
  | [], ais, mem => some (some 0,ais,mem)
  | (port,socktype) :: ps, ais, mem => do
    match ← gaPort port socktype ais mem with
    | (none,ais,mem) => return (none,ais,mem)
    | (some rc,ais,mem) =>
      let (nfound,ais,mem) ← gaPorts ps ais mem
      return (nfound.map (rc + ·),ais,mem)

/-- `htons` on a big-endian host. -/
def htons (x : Int) : Int := x % 65536

def atoi (s : List Byte) : Int := toInt (atol s)

inductive Proto where
  | tcp : Proto
  | udp : Proto
  deriving DecidableEq, Repr

section
variable (getservbyname : List Byte → Proto → Option Int)

/-- The calls of `ga_port` in their order, with port and socket type. -/
def gaServPorts (hintsp : Hints) (serv : List Byte) : List (Int × Int) :=
  if isdigit (serv.headD 0) then
    let port := htons (atoi serv)
    if hintsp.ai_socktype ≠ 0 then [(port,hintsp.ai_socktype)]
    else [(port,SOCK_STREAM),(port,SOCK_DGRAM)]
  else
    (if hintsp.ai_socktype = 0 ∨ hintsp.ai_socktype = SOCK_STREAM then
      ((getservbyname serv .tcp).map fun s_port => (s_port,SOCK_STREAM)).toList else []) ++
    (if hintsp.ai_socktype = 0 ∨ hintsp.ai_socktype = SOCK_DGRAM then
      ((getservbyname serv .udp).map fun s_port => (s_port,SOCK_DGRAM)).toList else [])

def gaServ (hintsp : Hints) (serv : List Byte) (aihead : List AddrInfo) (mem : Memory) :
    Option (Option Eai × List AddrInfo × Memory) := do
  match ← gaPorts (gaServPorts getservbyname hintsp serv) aihead mem with
  | (none,ais,mem) => return (some .EAI_MEMORY,ais,mem)
  | (some nfound,ais,mem) =>
    if nfound = 0 then
      if hintsp.ai_socktype = 0 then return (some .EAI_NONAME,ais,mem)
      else return (some .EAI_SERVICE,ais,mem)
    else return (none,ais,mem)

end

/-! ## What an entry shows -/

structure Entry where
  ai_family : Nat
  ai_socktype : Int
  ai_protocol : Int
  ai_addrlen : Nat
  ai_addr : Option SockAddr
  deriving DecidableEq, Repr

def view (mem : Memory) (ai : AddrInfo) : Entry :=
  ⟨ai.ai_family,ai.ai_socktype,ai.ai_protocol,ai.ai_addrlen,sockaddr mem ai.ai_addr⟩

def slot (mem : Memory) (ai : AddrInfo) : Nat × Entry := (ai.ai_flags,view mem ai)

def Entry.serve (port socktype : Int) (e : Entry) : Entry :=
  { e with ai_socktype := socktype, ai_addr := e.ai_addr.map (SockAddr.setPort port) }

@[simp] theorem serve_serve (port port' socktype socktype' : Int) (e : Entry) :
    (e.serve port socktype).serve port' socktype' = e.serve port' socktype' := by
  cases h : e.ai_addr <;> simp [Entry.serve,SockAddr.setPort,h]

def addrs (ais : List AddrInfo) : List Nat := ais.filterMap AddrInfo.ai_addr

@[simp] theorem addrs_append (ais ais' : List AddrInfo) :
    addrs (ais ++ ais') = addrs ais ++ addrs ais' := List.filterMap_append

def IsSockaddr (x : Obj) : Prop := ∃ sa, x = .sockaddr sa

/-- An IPv4 or IPv6 entry with its socket address. -/
def Held (mem : Memory) (ai : AddrInfo) : Prop :=
  (ai.ai_family = AF_INET ∨ ai.ai_family = AF_INET6) ∧
    ∃ p, ai.ai_addr = some p ∧ mem.Has IsSockaddr p

theorem mem_addrs {ais : List AddrInfo} {ai : AddrInfo} {p : Nat} (h : ai ∈ ais)
    (hp : ai.ai_addr = some p) : p ∈ addrs ais := List.mem_filterMap.mpr ⟨ai,h,hp⟩

theorem has_addrs {mem : Memory} {ais : List AddrInfo} (h : ∀ ai ∈ ais, Held mem ai) {p : Nat}
    (hp : p ∈ addrs ais) : mem.Has IsSockaddr p := by
  obtain ⟨ai,hai,hp⟩ := List.mem_filterMap.mp hp
  obtain ⟨_,q,hq,hhas⟩ := h ai hai
  cases hp.symm.trans hq
  exact hhas

theorem sockaddr_eq {mem : Memory} {p : Nat} {sa : SockAddr} (h : mem.obj p = some (.sockaddr sa)) :
    sockaddr mem (some p) = some sa := by
  simp [sockaddr,h]

theorem sockaddr_frame {own : List Nat} {mem mem' : Memory} {p : Nat} (h : mem.Frame own mem')
    (hp : mem.Has IsSockaddr p) (hown : p ∉ own) :
    sockaddr mem' (some p) = sockaddr mem (some p) := by
  obtain ⟨_,hsa,sa,rfl⟩ := hp
  rw [sockaddr_eq hsa,sockaddr_eq (h.obj_eq hsa hown)]

theorem Held.frame {own : List Nat} {mem mem' : Memory} {ai : AddrInfo} (h : Held mem ai)
    (hf : mem.Frame own mem') (hown : ∀ p, ai.ai_addr = some p → p ∉ own) :
    Held mem' ai ∧ view mem' ai = view mem ai := by
  obtain ⟨hfam,p,hp,hsa⟩ := h
  refine ⟨⟨hfam,p,hp,hsa.frame hf (hown p hp)⟩,?_⟩
  rw [view,view,hp,sockaddr_frame hf hsa (hown p hp)]

/-! ## One turn -/

theorem setEntry_eq (port socktype : Int) {ai : AddrInfo} {mem : Memory} (h : Held mem ai) :
    ∃ ai' mem', setEntry port socktype ai mem = some (1,ai',mem') ∧
      mem.Grown IsSockaddr (addrs [ai]) (addrs [ai']) mem' ∧ Held mem' ai' ∧
      slot mem' ai' = (ai.ai_flags,(view mem ai).serve port socktype) := by
  obtain ⟨hfam,p,hp,_,hsa,sa,rfl⟩ := h
  have hgrow : mem.Grown IsSockaddr [p] [p] (mem.update p (Obj.setPort port)) := by
    refine .update ⟨_,hsa,sa,rfl⟩ ?_
    rintro _ ⟨sa,rfl⟩
    exact ⟨_,rfl⟩
  refine ⟨{ ai with ai_socktype := socktype },mem.update p (Obj.setPort port),?_,?_,?_,?_⟩
  · simp [setEntry,hfam,hp,sockaddr_eq hsa]
  · simpa [addrs,hp] using hgrow
  · exact ⟨hfam,p,hp,hgrow.has p (by simp)⟩
  · have hnew := sockaddr_eq (Arena.update_self (Obj.setPort port) hsa)
    simp [slot,view,Entry.serve,hp,sockaddr_eq hsa,hnew]

theorem gaClone_cases {ai : AddrInfo} {mem : Memory} (h : Held mem ai) :
    (∃ linked mem', gaClone ai mem = some (.error linked,mem') ∧ ∃ i, mem.grant i = false) ∨
    ∃ new mem', gaClone ai mem = some (.ok new,mem') ∧ new.ai_flags = 0 ∧
      mem.Grown IsSockaddr [] (addrs [new]) mem' ∧ Held mem' new ∧ view mem' new = view mem ai := by
  obtain ⟨hfam,q,hq,_,hsa,sa,rfl⟩ := h
  unfold gaClone
  rcases h₁ : mem.alloc .addrinfo with ⟨_ | self,mem₁⟩
  · exact .inl ⟨_,_,rfl,Arena.alloc_none h₁⟩
  have hgrow₁ : mem.Grown IsSockaddr [] [] mem₁ := .alloc_other h₁ (by simp [IsSockaddr])
  rcases h₂ : mem₁.alloc (.sockaddr ⟨0,0,0,[]⟩) with ⟨_ | p,mem₂⟩
  · exact .inl ⟨_,_,by simp only [h₂]; rfl,hgrow₁.frame.grant ▸ Arena.alloc_none h₂⟩
  have hgrow₂ : mem₁.Grown IsSockaddr [] [p] mem₂ := .alloc h₂ ⟨_,rfl⟩
  have hgrow : mem.Grown IsSockaddr [] [p] mem₂ := hgrow₁.trans hgrow₂
  have hsource : sockaddr mem₂ ai.ai_addr = some sa := by
    rw [hq]
    exact sockaddr_eq (hgrow.frame.obj_eq hsa (by simp))
  have hp : mem₂.Has IsSockaddr p := hgrow.has p (by simp)
  have hcopy := Arena.Grown.update (f := fun _ => Obj.sockaddr sa) hp fun _ _ => ⟨sa,rfl⟩
  obtain ⟨x,hx,-⟩ := hp
  refine .inr ⟨{ ai with self := self, ai_flags := 0, ai_canonname := none, ai_addr := some p },
    mem₂.update p fun _ => .sockaddr sa,?_,rfl,hgrow.trans hcopy,⟨hfam,p,rfl,?_⟩,?_⟩
  · simp [h₂,copyAddr,hsource]
  · exact hcopy.has p (by simp)
  · have hnew := sockaddr_eq (Arena.update_self (fun _ => Obj.sockaddr sa) hx)
    simp only [view,hnew,hq,sockaddr_eq hsa]

/-! ## The loop -/

/-- What a turn makes of an entry, as values. -/
def portSlot (port socktype : Int) (s : Nat × Entry) : List (Nat × Entry) :=
  if s.1 &&& AI_CLONE ≠ 0 then
    if s.2.ai_socktype ≠ 0 then [s,(0,s.2.serve port socktype)]
    else [(s.1,s.2.serve port socktype)]
  else if s.2.ai_socktype ≠ socktype then [s]
  else [(s.1,s.2.serve port socktype)]

def found (socktype : Int) (s : Nat × Entry) : Nat :=
  if s.1 &&& AI_CLONE ≠ 0 ∨ s.2.ai_socktype = socktype then 1 else 0

/-- A call of `ga_port` and the calls of `ga_serv`, as values. -/
def pass (port socktype : Int) (ss : List (Nat × Entry)) : Nat × List (Nat × Entry) :=
  ((ss.map (found socktype)).sum,ss.flatMap (portSlot port socktype))

def passes : List (Int × Int) → List (Nat × Entry) → Nat × List (Nat × Entry)
  | [], ss => (0,ss)
  | (port,socktype) :: ps, ss =>
    let (n,ss) := pass port socktype ss
    let (m,ss) := passes ps ss
    (n + m,ss)

/-- The calls for the list `ais` stop at a failed allocation or come to `values`. -/
inductive Ported (values : Nat × List (Nat × Entry)) (ais : List AddrInfo) (mem : Memory) :
    Option Nat × List AddrInfo × Memory → Prop where
  | nomem {ais' : List AddrInfo} {mem' : Memory} :
      (∃ i, mem.grant i = false) → Ported values ais mem (none,ais',mem')
  | done {ais' : List AddrInfo} {mem' : Memory} :
      mem.Grown IsSockaddr (addrs ais) (addrs ais') mem' → (∀ ai ∈ ais', Held mem' ai) →
      ais'.map (slot mem') = values.2 → Ported values ais mem (some values.1,ais',mem')

theorem portEntry_ported (port socktype : Int) {ai : AddrInfo} {mem : Memory} (h : Held mem ai) :
    ∃ r, portEntry port socktype ai mem = some r ∧
      Ported (pass port socktype [slot mem ai]) [ai] mem r := by
  have hself : mem.Grown IsSockaddr (addrs [ai]) (addrs [ai]) mem := by
    refine .refl (fun p hp => has_addrs (by simpa using h) hp) ?_
    obtain ⟨_,p,hp,-⟩ := h
    simp [addrs,hp]
  obtain ⟨ai',mem',heq,hgrow,hheld,hslot⟩ := setEntry_eq port socktype h
  have hserved : pass port socktype [slot mem ai] =
      (1,[(ai.ai_flags,(view mem ai).serve port socktype)]) →
      Ported (pass port socktype [slot mem ai]) [ai] mem (some 1,[ai'],mem') := by
    intro hp
    rw [hp]
    exact .done hgrow (by simpa using hheld) (by simpa using hslot)
  unfold portEntry
  by_cases hclone : ai.ai_flags &&& AI_CLONE ≠ 0
  · rw [if_pos hclone]
    by_cases htype : ai.ai_socktype ≠ 0
    · rw [if_pos htype]
      rcases gaClone_cases h with ⟨linked,mem₁,hc,hfail⟩ | ⟨new,mem₁,hc,hflags,hgrow₁,hnew,hview₁⟩
      · exact ⟨_,by rw [hc]; rfl,.nomem hfail⟩
      obtain ⟨new',mem₂,heq₂,hgrow₂,hheld₂,hslot₂⟩ := setEntry_eq port socktype hnew
      have hnewest := hgrow₁.trans hgrow₂
      obtain ⟨hkept,hview⟩ := h.frame hnewest.frame (by simp)
      have hpass : pass port socktype [slot mem ai] =
          (1,[slot mem ai,(0,(view mem ai).serve port socktype)]) := by
        simp [pass,portSlot,found,slot,view,hclone,htype]
      refine ⟨(some 1,[ai,new'],mem₂),by simp [hc,heq₂],?_⟩
      rw [hpass]
      refine .done ?_ ?_ ?_
      · have hboth := hself.append hnewest (by simp)
        rwa [List.append_nil,← addrs_append] at hboth
      · simp [hkept,hheld₂]
      · have hold : slot mem₂ ai = slot mem ai := by rw [slot,slot,hview]
        rw [hflags,hview₁] at hslot₂
        simp [hslot₂,hold]
    · rw [if_neg htype]
      refine ⟨_,by rw [heq]; rfl,hserved ?_⟩
      simp [pass,portSlot,found,slot,view,hclone,htype]
  · rw [if_neg hclone]
    by_cases htype : ai.ai_socktype ≠ socktype
    · rw [if_pos htype]
      have hpass : pass port socktype [slot mem ai] = (0,[slot mem ai]) := by
        simp [pass,portSlot,found,slot,view,hclone,htype]
      refine ⟨_,rfl,?_⟩
      rw [hpass]
      exact .done hself (by simpa using h) rfl
    · rw [if_neg htype]
      refine ⟨_,by rw [heq]; rfl,hserved ?_⟩
      simp only [ne_eq,not_not] at htype
      simp [pass,portSlot,found,slot,view,hclone,htype]

theorem slots_frame {own : List Nat} {mem mem' : Memory} {ais : List AddrInfo}
    (h : ∀ ai ∈ ais, Held mem ai) (hf : mem.Frame own mem') (hown : ∀ p ∈ addrs ais, p ∉ own) :
    (∀ ai ∈ ais, Held mem' ai) ∧ ais.map (slot mem') = ais.map (slot mem) := by
  have hall : ∀ ai ∈ ais, Held mem' ai ∧ view mem' ai = view mem ai := fun ai hai =>
    (h ai hai).frame hf fun p hp => hown p (mem_addrs hai hp)
  exact ⟨fun ai hai => (hall ai hai).1,
    List.map_congr_left fun ai hai => by rw [slot,slot,(hall ai hai).2]⟩

/-- Each turn changes what its own entry owns, so that the turns do not meet. -/
theorem gaPort_ported (port socktype : Int) {ais : List AddrInfo} {mem : Memory}
    (h : ∀ ai ∈ ais, Held mem ai) (hnd : (addrs ais).Nodup) :
    ∃ r, gaPort port socktype ais mem = some r ∧
      Ported (pass port socktype (ais.map (slot mem))) ais mem r := by
  induction ais generalizing mem with
  | nil => exact ⟨_,rfl,.done (.refl (by simp [addrs]) hnd) (by simp) rfl⟩
  | cons ai ais ih =>
    obtain ⟨hai,hais⟩ := List.forall_mem_cons.mp h
    have hsplit : addrs (ai :: ais) = addrs [ai] ++ addrs ais := addrs_append [ai] ais
    rw [hsplit,List.nodup_append] at hnd
    obtain ⟨-,hnd,hne⟩ := hnd
    have hapart : ∀ p ∈ addrs ais, p ∉ addrs [ai] := fun p hp hp' => hne p hp' p hp rfl
    obtain ⟨r,heq,hr⟩ := portEntry_ported port socktype hai
    cases hr with
    | nomem hfail => exact ⟨_,by rw [gaPort,heq]; rfl,.nomem hfail⟩
    | @done here mem₁ hgrow hheld hslots =>
      obtain ⟨hrest,hsame⟩ := slots_frame hais hgrow.frame hapart
      obtain ⟨r,heq₁,hr⟩ := ih hrest hnd
      rw [hsame] at hr
      cases hr with
      | @nomem ais' mem' hfail =>
        exact ⟨(none,here ++ ais',mem'),by simp [gaPort,heq,heq₁],
          .nomem (hgrow.frame.grant ▸ hfail)⟩
      | @done rest mem₂ hgrow₁ hheld₁ hslots₁ =>
        obtain ⟨hhere,hslots'⟩ := slots_frame hheld hgrow₁.frame fun p hp hp' => by
          rcases (hgrow.mem_iff p).mp hp with hp | ⟨hle,-⟩
          · exact hapart p hp' hp
          · exact absurd (has_addrs hais hp').lt (by omega)
        have hpass : pass port socktype ((ai :: ais).map (slot mem)) =
            ((pass port socktype [slot mem ai]).1 + (pass port socktype (ais.map (slot mem))).1,
              (here ++ rest).map (slot mem₂)) := by
          rw [List.map_append,hslots',hslots,hslots₁]
          simp [pass]
        refine ⟨(some _,here ++ rest,mem₂),by simp [gaPort,heq,heq₁]; rfl,?_⟩
        rw [hpass]
        refine .done ?_ (fun ai' hai' => ?_) rfl
        · rw [hsplit,addrs_append]
          exact hgrow.append hgrow₁ fun p hp => ⟨hapart p hp,(has_addrs hais hp).lt⟩
        · rcases List.mem_append.mp hai' with hai' | hai'
          · exact hhere ai' hai'
          · exact hheld₁ ai' hai'

theorem gaPorts_ported (ps : List (Int × Int)) {ais : List AddrInfo} {mem : Memory}
    (h : ∀ ai ∈ ais, Held mem ai) (hnd : (addrs ais).Nodup) :
    ∃ r, gaPorts ps ais mem = some r ∧ Ported (passes ps (ais.map (slot mem))) ais mem r := by
  induction ps generalizing ais mem with
  | nil => exact ⟨_,rfl,.done (.refl (fun p hp => has_addrs h hp) hnd) h rfl⟩
  | cons p ps ih =>
    obtain ⟨port,socktype⟩ := p
    obtain ⟨r,heq,hr⟩ := gaPort_ported port socktype h hnd
    cases hr with
    | nomem hfail => exact ⟨_,by rw [gaPorts,heq]; rfl,.nomem hfail⟩
    | @done ais' mem' hgrow hheld hslots =>
      obtain ⟨r,heq',hr⟩ := ih hheld hgrow.nodup
      rw [hslots] at hr
      cases hr with
      | @nomem ais₂ mem₂ hfail =>
        exact ⟨(none,ais₂,mem₂),by simp [gaPorts,heq,heq'],.nomem (hgrow.frame.grant ▸ hfail)⟩
      | @done ais₂ mem₂ hgrow₂ hheld₂ hslots₂ =>
        exact ⟨(some _,ais₂,mem₂),by simp [gaPorts,heq,heq']; rfl,
          .done (hgrow.trans hgrow₂) hheld₂ hslots₂⟩

/-! ## The list before the service -/

/-- The entry of an IPv4 or IPv6 address, without port. -/
def base (hintsp : Hints) (a : Nat × List Byte) : Entry where
  ai_family := a.1
  ai_socktype := hintsp.ai_socktype
  ai_protocol := hintsp.ai_protocol
  ai_addrlen := if a.1 = AF_INET then 16 else 28
  ai_addr := some (if a.1 = AF_INET then sockaddrIn a.2 else sockaddrIn6 a.2)

def cloneFlag (hintsp : Hints) : Nat := if hintsp.ai_socktype = 0 then AI_CLONE else 0

/-- The list of `s` has what was allocated since `mem`, and shows `slots`. -/
structure Built (mem : Memory) (slots : List (Nat × Entry)) (s : Search) : Prop where
  grown : mem.Grown IsSockaddr [] (addrs s.aihead) s.mem
  held : ∀ ai ∈ s.aihead, Held s.mem ai
  shows : s.aihead.map (slot s.mem) = slots

theorem giveAddr_built {mem : Memory} {slots : List (Nat × Entry)} {s s' : Search}
    (h : Built mem slots s) {ai : AddrInfo}
    (hfam : ai.ai_family = AF_INET ∨ ai.ai_family = AF_INET6) {sa : SockAddr} {addrlen : Nat}
    (hs : giveAddr ai sa addrlen s = (none,s')) : Built mem (slots ++
      [(ai.ai_flags,⟨ai.ai_family,ai.ai_socktype,ai.ai_protocol,addrlen,some sa⟩)]) s' := by
  unfold giveAddr at hs
  rcases halloc : s.mem.alloc (.sockaddr sa) with ⟨_ | p,mem'⟩
  · simp [halloc] at hs
  · simp only [halloc,Prod.mk.injEq,true_and] at hs
    subst hs
    have hgrow : s.mem.Grown IsSockaddr [] [p] mem' := .alloc halloc ⟨sa,rfl⟩
    obtain ⟨hkept,hsame⟩ := slots_frame h.held hgrow.frame (by simp)
    refine ⟨?_,?_,?_⟩
    · have hboth := h.grown.append hgrow (by simp)
      simpa [addrs] using hboth
    · intro ai' hai'
      rcases List.mem_append.mp hai' with hai' | hai'
      · exact hkept ai' hai'
      · rw [List.mem_singleton.mp hai']
        exact ⟨hfam,p,rfl,hgrow.has p (by simp)⟩
    · obtain ⟨-,hp,-⟩ := Arena.alloc_some halloc
      rw [List.map_append,hsame,h.shows]
      simp [slot,view,sockaddr_eq hp]

theorem gaAistruct_built {mem : Memory} {slots : List (Nat × Entry)} {s s' : Search}
    (h : Built mem slots s) {hintsp : Hints} {a : Nat × List Byte}
    (hfam : a.1 = AF_INET ∨ a.1 = AF_INET6) (hs : gaAistruct hintsp a.2 a.1 s = (none,s')) :
    Built mem (slots ++ [(cloneFlag hintsp,base hintsp a)]) s' := by
  unfold gaAistruct at hs
  rcases halloc : s.mem.alloc .addrinfo with ⟨_ | self,mem'⟩
  · simp [halloc] at hs
  have hgrow : s.mem.Grown IsSockaddr [] [] mem' := .alloc_other halloc (by simp [IsSockaddr])
  obtain ⟨hkept,hsame⟩ := slots_frame h.held hgrow.frame (by simp)
  have hnext : Built mem slots { s with mem := mem' } := by
    refine ⟨?_,hkept,hsame.trans h.shows⟩
    simpa using h.grown.append hgrow (by simp)
  simp only [halloc] at hs
  rcases hfam with hfam | hfam
  · rw [if_pos hfam] at hs
    simpa [base,hfam,cloneFlag] using giveAddr_built hnext (.inl hfam) hs
  · rw [if_neg (by rw [hfam]; decide),if_pos hfam] at hs
    have hne : AF_INET6 ≠ AF_INET := by decide
    simpa [base,hfam,hne,cloneFlag] using giveAddr_built hnext (.inr hfam) hs

theorem gaAistructs_built {mem : Memory} {slots : List (Nat × Entry)} {s s' : Search}
    (h : Built mem slots s) {hintsp : Hints} {as : List (Nat × List Byte)}
    (hfam : ∀ a ∈ as, a.1 = AF_INET ∨ a.1 = AF_INET6) (hs : gaAistructs hintsp as s = (none,s')) :
    Built mem (slots ++ as.map fun a => (cloneFlag hintsp,base hintsp a)) s' := by
  induction as generalizing slots s with
  | nil =>
    cases hs
    simpa using h
  | cons a as ih =>
    obtain ⟨ha,has⟩ := List.forall_mem_cons.mp hfam
    rcases hone : gaAistruct hintsp a.2 a.1 s with ⟨_ | e,s₁⟩
    · rw [gaAistructs,hone] at hs
      have hrest := ih (gaAistruct_built h ha hone) has hs
      simpa using hrest
    · rw [gaAistructs,hone] at hs
      cases hs

/-! ## The ports -/

section
variable (getservbyname : List Byte → Proto → Option Int)

/-- What is known about a service for a protocol. -/
def known (serv : List Byte) (proto : Proto) : Option Int :=
  if isdigit (serv.headD 0) then some (htons (atoi serv)) else getservbyname serv proto

/-- The port for a socket type that the caller has given. -/
def requested (serv : List Byte) (socktype : Int) : Option Int :=
  if isdigit (serv.headD 0) then some (htons (atoi serv))
  else if socktype = SOCK_STREAM then getservbyname serv .tcp
  else if socktype = SOCK_DGRAM then getservbyname serv .udp
  else none

theorem gaServPorts_any {hintsp : Hints} (h : hintsp.ai_socktype = 0) (serv : List Byte) :
    gaServPorts getservbyname hintsp serv =
      ((known getservbyname serv .tcp).map fun port => (port,SOCK_STREAM)).toList ++
      ((known getservbyname serv .udp).map fun port => (port,SOCK_DGRAM)).toList := by
  unfold gaServPorts known
  by_cases hd : isdigit (serv.headD 0)
  · rw [if_pos hd,if_neg (not_not.mpr h),if_pos hd,if_pos hd]
    rfl
  · rw [if_neg hd,if_pos (.inl h),if_pos (.inl h),if_neg hd,if_neg hd]

theorem gaServPorts_type {hintsp : Hints} (h : hintsp.ai_socktype ≠ 0) (serv : List Byte) :
    gaServPorts getservbyname hintsp serv =
      ((requested getservbyname serv hintsp.ai_socktype).map fun port =>
        (port,hintsp.ai_socktype)).toList := by
  unfold gaServPorts requested
  by_cases hd : isdigit (serv.headD 0)
  · rw [if_pos hd,if_pos h,if_pos hd]
    rfl
  · rw [if_neg hd,if_neg hd]
    by_cases hs : hintsp.ai_socktype = SOCK_STREAM
    · simp [hs,SOCK_STREAM,SOCK_DGRAM]
    · by_cases hg : hintsp.ai_socktype = SOCK_DGRAM
      · simp [hg,SOCK_STREAM,SOCK_DGRAM]
      · simp [h,hs,hg]

end

/-- A pass that finds every entry. -/
theorem pass_all {port socktype : Int} (as : List (Nat × List Byte))
    {e : Nat × List Byte → Nat × Entry} {f : Nat × List Byte → List (Nat × Entry)}
    (hfound : ∀ a, found socktype (e a) = 1) (hslot : ∀ a, portSlot port socktype (e a) = f a) :
    pass port socktype (as.map e) = (as.length,as.flatMap f) := by
  have hsum : ((as.map e).map (found socktype)).sum = as.length := by
    simp [Function.comp_def,hfound]
  have hall : (as.map e).flatMap (portSlot port socktype) = as.flatMap f := by
    simp [List.flatMap_map,hslot]
  rw [pass,hsum,hall]

/-- The entries for an address: a stream entry, then a datagram entry, without those whose port is
not known. -/
def expansion (hintsp : Hints) (tcp udp : Option Int) (a : Nat × List Byte) : List Entry :=
  (tcp.map fun port => (base hintsp a).serve port SOCK_STREAM).toList ++
  (udp.map fun port => (base hintsp a).serve port SOCK_DGRAM).toList

theorem passes_any {hintsp : Hints} (h : hintsp.ai_socktype = 0) (tcp udp : Option Int)
    (as : List (Nat × List Byte)) :
    let values := passes ((tcp.map fun port => (port,SOCK_STREAM)).toList ++
        (udp.map fun port => (port,SOCK_DGRAM)).toList)
      (as.map fun a => (cloneFlag hintsp,base hintsp a))
    values.1 =
        (if tcp.isSome then as.length else 0) + (if udp.isSome then as.length else 0) ∧
      (tcp.isSome ∨ udp.isSome →
        values.2.map Prod.snd = as.flatMap (expansion hintsp tcp udp)) := by
  have hflag : cloneFlag hintsp = AI_CLONE := if_pos h
  have hclone : AI_CLONE ≠ 0 := by decide
  have htype : ∀ a, (base hintsp a).ai_socktype = 0 := fun a => h
  have hfirst : ∀ port socktype, pass port socktype
      (as.map fun a => (cloneFlag hintsp,base hintsp a)) =
        (as.length,as.map fun a => (AI_CLONE,(base hintsp a).serve port socktype)) := by
    intro port socktype
    rw [pass_all (f := fun a => [(AI_CLONE,(base hintsp a).serve port socktype)]) as
      (fun a => by simp [found,hflag,hclone]) fun a => by simp [portSlot,hflag,hclone,htype],
      List.map_eq_flatMap]
  have hsecond : ∀ port port', pass port' SOCK_DGRAM
      (as.map fun a => (AI_CLONE,(base hintsp a).serve port SOCK_STREAM)) =
        (as.length,as.flatMap fun a => [(AI_CLONE,(base hintsp a).serve port SOCK_STREAM),
          (0,(base hintsp a).serve port' SOCK_DGRAM)]) := by
    intro port port'
    refine pass_all as (fun a => by simp [found,hclone]) fun a => ?_
    have hset : ((base hintsp a).serve port SOCK_STREAM).ai_socktype ≠ 0 :=
      show SOCK_STREAM ≠ 0 by decide
    simp [portSlot,hclone,hset]
  cases tcp with
  | none =>
    cases udp with
    | none => simp [passes]
    | some port' =>
      have hone : expansion hintsp none (some port') =
          fun a => [(base hintsp a).serve port' SOCK_DGRAM] := rfl
      rw [hone,← List.map_eq_flatMap]
      simp [passes,hfirst,Function.comp_def]
  | some port =>
    cases udp with
    | none =>
      have hone : expansion hintsp (some port) none =
          fun a => [(base hintsp a).serve port SOCK_STREAM] := rfl
      rw [hone,← List.map_eq_flatMap]
      simp [passes,hfirst,Function.comp_def]
    | some port' =>
      have htwo : expansion hintsp (some port) (some port') = fun a =>
          [(base hintsp a).serve port SOCK_STREAM,(base hintsp a).serve port' SOCK_DGRAM] := rfl
      simp [passes,hfirst,hsecond,htwo,List.map_flatMap]

theorem passes_type {hintsp : Hints} (h : hintsp.ai_socktype ≠ 0) (port : Option Int)
    (as : List (Nat × List Byte)) :
    passes (port.map fun port => (port,hintsp.ai_socktype)).toList
      (as.map fun a => (cloneFlag hintsp,base hintsp a)) =
        (if port.isSome then as.length else 0,
          as.map fun a => (cloneFlag hintsp,port.elim (base hintsp a) fun port =>
            (base hintsp a).serve port hintsp.ai_socktype)) := by
  have hflag : cloneFlag hintsp = 0 := if_neg h
  have htype : ∀ a, (base hintsp a).ai_socktype = hintsp.ai_socktype := fun _ => rfl
  cases port with
  | none => simp [passes]
  | some port =>
    have hpass : pass port hintsp.ai_socktype (as.map fun a => (cloneFlag hintsp,base hintsp a)) =
        (as.length,as.flatMap fun a =>
          [(cloneFlag hintsp,(base hintsp a).serve port hintsp.ai_socktype)]) :=
      pass_all as (fun a => by simp [found,htype]) fun a => by simp [portSlot,hflag,htype]
    rw [← List.map_eq_flatMap] at hpass
    simp [passes,hpass]

/-! ## In place -/

def Obj.noPort : Obj → Obj
  | .addrinfo => .addrinfo
  | .sockaddr sa => .sockaddr { sa with port := 0 }

/-- The same objects but for the ports. -/
def SamePlaces (mem mem' : Memory) : Prop :=
  ∀ p, (mem'.obj p).map Obj.noPort = (mem.obj p).map Obj.noPort

theorem setEntry_same {port socktype : Int} {ai ai' : AddrInfo} {mem mem' : Memory} {n : Nat}
    (htype : ai.ai_socktype = socktype) (h : setEntry port socktype ai mem = some (n,ai',mem')) :
    ai' = ai ∧ SamePlaces mem mem' := by
  subst htype
  unfold setEntry at h
  by_cases hfam : ai.ai_family = AF_INET ∨ ai.ai_family = AF_INET6
  · rw [if_pos hfam] at h
    cases haddr : ai.ai_addr with
    | none => simp [haddr] at h
    | some p =>
      by_cases hsa : (sockaddr mem (some p)).isSome
      · simp only [haddr,hsa,if_true,Option.some.injEq,Prod.mk.injEq] at h
        obtain ⟨-,rfl,rfl⟩ := h
        refine ⟨by rw [← haddr],fun q => ?_⟩
        by_cases hq : q = p
        · subst hq
          cases hobj : mem.obj q with
          | none => simp [Arena.update,hobj]
          | some x => cases x <;> simp [Arena.update,hobj,Obj.setPort,Obj.noPort,SockAddr.setPort]
        · rw [Arena.update_of_ne mem _ hq]
      · simp [haddr,hsa] at h
  · rw [if_neg hfam,Option.some.injEq,Prod.mk.injEq,Prod.mk.injEq] at h
    obtain ⟨-,rfl,rfl⟩ := h
    exact ⟨rfl,fun _ => rfl⟩

theorem gaPort_same {port socktype : Int} {ais ais' : List AddrInfo} {mem mem' : Memory}
    {n : Option Nat} (h : ∀ ai ∈ ais, ai.ai_flags = 0 ∧ ai.ai_socktype = socktype)
    (hr : gaPort port socktype ais mem = some (n,ais',mem')) :
    n ≠ none ∧ ais' = ais ∧ SamePlaces mem mem' := by
  induction ais generalizing mem n ais' mem' with
  | nil =>
    cases hr
    exact ⟨by simp,rfl,fun _ => rfl⟩
  | cons ai ais ih =>
    obtain ⟨⟨hflag,htype⟩,hais⟩ := List.forall_mem_cons.mp h
    have hentry : portEntry port socktype ai mem =
        (setEntry port socktype ai mem).map fun (n,ai,mem) => (some n,[ai],mem) := by
      cases hset : setEntry port socktype ai mem <;> simp [portEntry,hflag,htype,hset]
    cases hset : setEntry port socktype ai mem with
    | none => simp [gaPort,hentry,hset] at hr
    | some r =>
      obtain ⟨m,ai₁,mem₁⟩ := r
      obtain ⟨rfl,hsame⟩ := setEntry_same htype hset
      cases hrest : gaPort port socktype ais mem₁ with
      | none => simp [gaPort,hentry,hset,hrest] at hr
      | some r =>
        obtain ⟨k,ais₂,mem₂⟩ := r
        simp [gaPort,hentry,hset,hrest] at hr
        obtain ⟨rfl,rfl,rfl⟩ := hr
        obtain ⟨hk,rfl,hsame₂⟩ := ih hais hrest
        exact ⟨by simpa using hk,rfl,fun p => (hsame₂ p).trans (hsame p)⟩

theorem gaPorts_same {port : Option Int} {socktype : Int} {ais ais' : List AddrInfo}
    {mem mem' : Memory} {n : Option Nat}
    (h : ∀ ai ∈ ais, ai.ai_flags = 0 ∧ ai.ai_socktype = socktype)
    (hr : gaPorts (port.map fun port => (port,socktype)).toList ais mem = some (n,ais',mem')) :
    n ≠ none ∧ ais' = ais ∧ SamePlaces mem mem' := by
  cases port with
  | none =>
    cases hr
    exact ⟨by simp,rfl,fun _ => rfl⟩
  | some port =>
    cases hone : gaPort port socktype ais mem with
    | none => simp [gaPorts,hone] at hr
    | some r =>
      obtain ⟨m,ais₁,mem₁⟩ := r
      obtain ⟨hm,hsame⟩ := gaPort_same h hone
      obtain ⟨k,rfl⟩ := Option.ne_none_iff_exists'.mp hm
      simp [gaPorts,hone] at hr
      obtain ⟨rfl,rfl,rfl⟩ := hr
      exact ⟨by simp,hsame⟩

/-! ## The service -/

theorem gaServ_nomem {getservbyname : List Byte → Proto → Option Int} {hintsp : Hints}
    {serv : List Byte} {ais ais' : List AddrInfo} {mem mem' : Memory}
    (h : gaPorts (gaServPorts getservbyname hintsp serv) ais mem = some (none,ais',mem')) :
    gaServ getservbyname hintsp serv ais mem = some (some .EAI_MEMORY,ais',mem') := by
  simp [gaServ,h]

theorem gaServ_found {getservbyname : List Byte → Proto → Option Int} {hintsp : Hints}
    {serv : List Byte} {ais ais' : List AddrInfo} {mem mem' : Memory} {nfound : Nat}
    (h : gaPorts (gaServPorts getservbyname hintsp serv) ais mem = some (some nfound,ais',mem')) :
    ∃ rc, gaServ getservbyname hintsp serv ais mem = some (rc,ais',mem') ∧
      rc ≠ some .EAI_MEMORY ∧ (rc = none ↔ nfound ≠ 0) := by
  by_cases hn : nfound = 0
  · by_cases htype : hintsp.ai_socktype = 0
    · exact ⟨some .EAI_NONAME,by simp [gaServ,h,hn,htype],by simp,by simp [hn]⟩
    · exact ⟨some .EAI_SERVICE,by simp [gaServ,h,hn,htype],by simp,by simp [hn]⟩
  · exact ⟨none,by simp [gaServ,h,hn],by simp,by simp [hn]⟩

theorem view_snd (mem : Memory) (ais : List AddrInfo) :
    ais.map (view mem) = (ais.map (slot mem)).map Prod.snd := by
  simp [slot,Function.comp_def]

/-- Every socket address object from `first` on belongs to exactly one entry. -/
structure Owned (first : Nat) (ais : List AddrInfo) (mem : Memory) : Prop where
  held : ∀ ai ∈ ais, Held mem ai
  once : ∀ p, first ≤ p → mem.Has IsSockaddr p → (addrs ais).count p = 1

/-- With any socket type, an entry for each address and each protocol with a known port; with one
socket type, the list that there was. -/
theorem gaServ_expands (getservbyname : List Byte → Proto → Option Int) (hintsp : Hints)
    (as : List (Nat × List Byte)) (mem : Memory) (serv : List Byte) (s : Search) (hne : as ≠ [])
    (hfam : ∀ a ∈ as, a.1 = AF_INET ∨ a.1 = AF_INET6)
    (hbuilt : gaAistructs hintsp as ⟨[],mem,[]⟩ = (none,s)) :
    ∃ rc ais mem', gaServ getservbyname hintsp serv s.aihead s.mem = some (rc,ais,mem') ∧
      (rc = some .EAI_MEMORY → ∃ i, mem.grant i = false) ∧
      (hintsp.ai_socktype = 0 → rc ≠ some .EAI_MEMORY →
        let tcp := known getservbyname serv .tcp
        let udp := known getservbyname serv .udp
        (rc = none ↔ tcp.isSome ∨ udp.isSome) ∧
        (rc = none → ais.map (view mem') = as.flatMap (expansion hintsp tcp udp) ∧
          Owned mem.next ais mem')) ∧
      (hintsp.ai_socktype ≠ 0 →
        let port := requested getservbyname serv hintsp.ai_socktype
        (rc = none ↔ port.isSome) ∧ ais = s.aihead ∧ SamePlaces s.mem mem' ∧
        ais.map (view mem') = as.map fun a => port.elim (base hintsp a) fun port =>
          (base hintsp a).serve port hintsp.ai_socktype) := by
  have hlen : as.length ≠ 0 := by simpa using hne
  have hstart : Built mem [] ⟨[],mem,[]⟩ := ⟨.refl (by simp) (by simp),by simp,rfl⟩
  have hbuilt' := gaAistructs_built hstart hfam hbuilt
  obtain ⟨r,heq,hr⟩ := gaPorts_ported (gaServPorts getservbyname hintsp serv) hbuilt'.held
    hbuilt'.grown.nodup
  rw [hbuilt'.shows,List.nil_append] at hr
  have hsame : hintsp.ai_socktype ≠ 0 → r.1 ≠ none ∧ r.2.1 = s.aihead ∧ SamePlaces s.mem r.2.2 := by
    intro htype
    rw [gaServPorts_type getservbyname htype] at heq
    refine gaPorts_same (fun ai hai => ?_) heq
    have hmem := List.mem_map_of_mem (f := slot s.mem) hai
    rw [hbuilt'.shows,List.nil_append] at hmem
    obtain ⟨a,-,ha⟩ := List.mem_map.mp hmem
    exact ⟨(congrArg Prod.fst ha).symm.trans (if_neg htype),
      (congrArg (fun x => x.2.ai_socktype) ha).symm⟩
  cases hr with
  | nomem hfail =>
    exact ⟨_,_,_,gaServ_nomem heq,fun _ => hbuilt'.grown.frame.grant ▸ hfail,
      fun _ hrc => absurd rfl hrc,fun htype => absurd rfl (hsame htype).1⟩
  | @done ais mem' hgrow hheld hslots =>
    obtain ⟨rc,hrc,hok,hnone⟩ := gaServ_found heq
    refine ⟨rc,ais,mem',hrc,fun h => absurd h hok,fun htype _ => ?_,fun htype => ?_⟩
    · obtain ⟨hfound,hview⟩ := passes_any htype (known getservbyname serv .tcp)
        (known getservbyname serv .udp) as
      rw [gaServPorts_any getservbyname htype] at hnone hslots
      have hports : rc = none ↔ (known getservbyname serv .tcp).isSome ∨
          (known getservbyname serv .udp).isSome := by
        rw [hnone,hfound]
        split_ifs <;> simp_all
      refine ⟨hports,fun hrc => ⟨?_,hheld,fun p hle hp => ?_⟩⟩
      · rw [view_snd,hslots]
        exact hview (hports.mp hrc)
      · have hmem := ((hbuilt'.grown.trans hgrow).mem_iff p).mpr (.inr ⟨hle,hp⟩)
        exact List.count_eq_one_of_mem hgrow.nodup hmem
    · rw [gaServPorts_type getservbyname htype,passes_type htype] at hnone hslots
      obtain ⟨-,hais,hplaces⟩ := hsame htype
      refine ⟨?_,hais,hplaces,?_⟩
      · rw [hnone]
        split_ifs <;> simp_all
      · rw [view_snd,hslots]
        simp

/-- "daytime" at 127.0.0.1 and ::1, for both protocols. -/
theorem gaServ_expands_daytime :
    let hintsp : Hints := ⟨0,0,0⟩
    let as := [(AF_INET,[127,0,0,1]),(AF_INET6,[0,0,0,0,0,0,0,0,0,0,0,0,0,0,0,1])]
    let s := (gaAistructs hintsp as ⟨[],.empty fun _ => true,[]⟩).2
    ∃ ais mem, gaServ (fun _ _ => some 13) hintsp [100,97,121,116,105,109,101] s.aihead s.mem =
        some (none,ais,mem) ∧
      ais.map (view mem) = as.flatMap fun a =>
        [(base hintsp a).serve 13 SOCK_STREAM,(base hintsp a).serve 13 SOCK_DGRAM] := by
  intro hintsp as s
  have hok : (gaAistructs hintsp as ⟨[],.empty fun _ => true,[]⟩).1 = none := by decide
  obtain ⟨rc,ais,mem,heq,hmem,hany,-⟩ := gaServ_expands (fun _ _ => some 13) hintsp as
    (.empty fun _ => true) [100,97,121,116,105,109,101] s (by simp [as]) (by simp [as])
    (Prod.ext hok rfl)
  have hrc : rc ≠ some .EAI_MEMORY := fun h => by simp [Arena.empty] at hmem; exact hmem h
  obtain ⟨hiff,hlist⟩ := hany rfl hrc
  have hnone : rc = none := hiff.mpr (.inl rfl)
  subst hnone
  exact ⟨ais,mem,heq,(hlist rfl).1⟩

end UnixNet.Gai
