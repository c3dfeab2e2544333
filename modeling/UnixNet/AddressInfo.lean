import Mathlib.Data.Multiset.Basic
import UnixNet.Library.Owners
import UnixNet.ServiceExpansion
set_option autoImplicit false

/-! The `getaddrinfo` of the library, with the `addrinfo{}` structures, socket addresses and
canonical names that it allocates. -/

namespace UnixNet.Gai

def AF_UNSPEC : Nat := 0
def AI_CANONNAME : Nat := 2
def SOCK_RAW : Int := 3

/-- The codes of `getaddrinfo`; `ga` has those that its functions share. -/
inductive Code where
  | ga (e : Eai)
  | EAI_ADDRFAMILY
  | EAI_AGAIN
  | EAI_BADFLAGS
  | EAI_FAIL
  | EAI_FAMILY
  | EAI_NODATA
  | EAI_SOCKTYPE
  | EAI_SYSTEM
  deriving DecidableEq, Repr

inductive HErrno where
  | HOST_NOT_FOUND | TRY_AGAIN | NO_RECOVERY | NO_DATA
  | other (h_errno : Int)
  deriving DecidableEq, Repr

structure Hostent where
  h_name : List Byte
  h_addrtype : Nat
  h_addr_list : List (List Byte)
  inet : h_addrtype = AF_INET ∨ h_addrtype = AF_INET6

def Hostent.addresses (hptr : Hostent) : List (Nat × List Byte) :=
  hptr.h_addr_list.map fun ap => (hptr.h_addrtype,ap)

structure FamilyHints extends Hints where
  ai_family : Nat
  deriving DecidableEq, Repr

structure Query where
  hostname : Option (List Byte)
  servname : Option (List Byte)
  hintsp : Option FamilyHints
  deriving DecidableEq, Repr

/-- The answers of the C library. `gethostbyname` looks for the addresses that `RES_USE_INET6` asks
for, which is told by the family. -/
structure Resolver where
  inet_pton : Nat → List Byte → Option (List Byte)
  gethostbyname : List Byte → Nat → Except HErrno Hostent
  gethostbyname2 : List Byte → Nat → Option Hostent
  getservbyname : List Byte → Proto → Option Int
  uname : Option (List Byte)

abbrev Names := Arena (List Byte)

/-- NULL or the empty string. -/
def absent (s : Option (List Byte)) : Bool := s.getD [] == []

def Query.hints (q : Query) : FamilyHints := q.hintsp.getD ⟨⟨0,0,0⟩,AF_UNSPEC⟩

def gaEcheck (hostname servname : Option (List Byte)) (flags family : Nat) (socktype : Int) :
    Option Code :=
  if flags ||| (AI_PASSIVE ||| AI_CANONNAME) ≠ AI_PASSIVE ||| AI_CANONNAME then some .EAI_BADFLAGS
  else if absent hostname && absent servname then some (.ga .EAI_NONAME)
  else if family = AF_UNSPEC then none
  else if family = AF_INET ∨ family = AF_INET6 then
    if socktype ≠ 0 ∧ socktype ≠ SOCK_STREAM ∧ socktype ≠ SOCK_DGRAM ∧ socktype ≠ SOCK_RAW then
      some .EAI_SOCKTYPE
    else none
  else if family = AF_LOCAL then
    if socktype ≠ 0 ∧ socktype ≠ SOCK_STREAM ∧ socktype ≠ SOCK_DGRAM then some .EAI_SOCKTYPE
    else none
  else some .EAI_FAMILY

/-! ## The searches -/

structure HostSearch where
  host : List Byte
  family : Nat
  deriving DecidableEq, Repr

/-- One switch of `ga_nsearch`, with the strings for IPv6 and for IPv4. -/
def searches (host6 host4 : List Byte) (family : Nat) : List HostSearch :=
  if family = AF_INET then [⟨host4,AF_INET⟩]
  else if family = AF_INET6 then [⟨host6,AF_INET6⟩]
  else if family = AF_UNSPEC then [⟨host6,AF_INET6⟩,⟨host4,AF_INET⟩]
  else []

/-- "0::0", "0::1", "0.0.0.0" and "localhost". -/
def any6 : List Byte := [48,58,58,48]
def loop6 : List Byte := [48,58,58,49]
def any4 : List Byte := [48,46,48,46,48,46,48]
def localhost : List Byte := [108,111,99,97,108,104,111,115,116]

/-- The array `search` up to `nsearch`. -/
def gaNsearch (hostname : Option (List Byte)) (hintsp : FamilyHints) : List HostSearch :=
  if absent hostname then
    if hintsp.ai_flags &&& AI_PASSIVE ≠ 0 then searches any6 any4 hintsp.ai_family
    else searches loop6 localhost hintsp.ai_family
  else searches (hostname.getD []) (hostname.getD []) hintsp.ai_family

/-- What the lookup of one search comes to, before anything is allocated. -/
inductive Answer where
  | error (e : Code)
  | ignore
  | address (family : Nat) (addr : List Byte)
  | host (h : Hostent)

def HErrno.code : HErrno → Code
  | .HOST_NOT_FOUND => .ga .EAI_NONAME
  | .TRY_AGAIN => .EAI_AGAIN
  | .NO_RECOVERY => .EAI_FAIL
  | .NO_DATA => .EAI_NODATA
  | .other _ => .ga .EAI_NONAME

/-- The string is an address of `family`. -/
def literal (hints : FamilyHints) (sptr : HostSearch) (family : Nat) (addr : List Byte) : Answer :=
  if hints.ai_family ≠ AF_UNSPEC ∧ hints.ai_family ≠ family then .error .EAI_ADDRFAMILY
  else if sptr.family ≠ family then .ignore
  else .address family addr

def checkFamily (hints : FamilyHints) (hptr : Hostent) : Answer :=
  if hints.ai_family ≠ AF_UNSPEC ∧ hints.ai_family ≠ hptr.h_addrtype then .error .EAI_ADDRFAMILY
  else .host hptr

def lookup (r : Resolver) (hints : FamilyHints) (nsearch : Nat) (sptr : HostSearch) : Answer :=
  if nsearch = 2 then
    match r.gethostbyname2 sptr.host sptr.family with
    | none => .ignore
    | some hptr => checkFamily hints hptr
  else
    match r.gethostbyname sptr.host sptr.family with
    | .error h_errno => .error h_errno.code
    | .ok hptr => checkFamily hints hptr

def isxdigit (c : Byte) : Bool := isdigit c || (65 ≤ c && c ≤ 70) || (97 ≤ c && c ≤ 102)

def colon : Byte := 58

def literal4 (r : Resolver) (host : List Byte) : Option (List Byte) :=
  if isdigit (host.headD 0) then r.inet_pton AF_INET host else none

def literal6 (r : Resolver) (host : List Byte) : Option (List Byte) :=
  if (isxdigit (host.headD 0) || host.headD 0 == colon) && host.contains colon then
    r.inet_pton AF_INET6 host
  else none

def answer (r : Resolver) (hints : FamilyHints) (nsearch : Nat) (sptr : HostSearch) : Answer :=
  match literal4 r sptr.host with
  | some inaddr => literal hints sptr AF_INET inaddr
  | none =>
    match literal6 r sptr.host with
    | some in6addr => literal hints sptr AF_INET6 in6addr
    | none => lookup r hints nsearch sptr

/-- The list and its objects, the names, and `canon`. -/
structure Work where
  s : Search
  names : Names
  canon : Option Nat

def Work.aistructs (hints : FamilyHints) (as : List (Nat × List Byte)) (k : Work) :
    Option Code × Work :=
  let (rc,s) := gaAistructs hints.toHints as k.s
  (rc.map .ga,{ k with s := s })

/-- `strdup` of the canonical name, the first time. -/
def Work.saveCanon (wanted : Bool) (h_name : List Byte) (k : Work) : Option Code × Work :=
  if wanted && k.canon.isNone then
    match k.names.alloc h_name with
    | (none,names) => (some (.ga .EAI_MEMORY),{ k with names := names })
    | (some canon,names) => (none,{ k with names := names, canon := some canon })
  else (none,k)

/-- A turn of the loop; `wanted` is whether the caller asks for the canonical name of a host. -/
def Work.turn (r : Resolver) (hints : FamilyHints) (wanted : Bool) (nsearch : Nat)
    (sptr : HostSearch) (k : Work) : Option Code × Work :=
  match answer r hints nsearch sptr with
  | .error e => (some e,k)
  | .ignore => (none,k)
  | .address family addr => k.aistructs hints [(family,addr)]
  | .host hptr =>
    match k.saveCanon wanted hptr.h_name with
    | (none,k) => k.aistructs hints hptr.addresses
    | failed => failed

def Work.turns (r : Resolver) (hints : FamilyHints) (wanted : Bool) (nsearch : Nat) :
    List HostSearch → Work → Option Code × Work
  | [], k => (none,k)
  | sptr :: search, k =>
    match k.turn r hints wanted nsearch sptr with
    | (none,k) => k.turns r hints wanted nsearch search
    | failed => failed

/-! ## The result -/

def freeaddrinfo : List AddrInfo → Memory → Names → Option (Memory × Names)
  | [], mem, names => some (mem,names)
  | ai :: ais, mem, names => do
    let mem ← mem.freePtr ai.ai_addr
    let names ← names.freePtr ai.ai_canonname
    let mem ← mem.free ai.self
    freeaddrinfo ais mem names

/-- `quit` is the err_quit of `ga_nsearch`, `fault` an access to what is not live. -/
inductive GaEnd where
  | quit
  | fault
  | error (e : Code) (mem : Memory) (names : Names)
  | list (ais : List AddrInfo) (mem : Memory) (names : Names)

/-- The label `bad`. -/
def bad (e : Code) (aihead : List AddrInfo) (mem : Memory) (names : Names) : GaEnd :=
  match freeaddrinfo aihead mem names with
  | none => .fault
  | some (mem,names) => .error e mem names

/-- From the service name on. -/
def finish (r : Resolver) (hints : FamilyHints) (servname : Option (List Byte))
    (aihead : List AddrInfo) (mem : Memory) (names : Names) : GaEnd :=
  if absent servname then .list aihead mem names
  else
    match gaServ r.getservbyname hints.toHints (servname.getD []) aihead mem with
    | none => .fault
    | some (some e,aihead,mem) => bad (.ga e) aihead mem names
    | some (none,aihead,mem) => .list aihead mem names

/-- `ai_canonname` of the first entry. -/
def setCanon (canon : Nat) : List AddrInfo → List AddrInfo
  | [] => []
  | ai :: ais => { ai with ai_canonname := some canon } :: ais

/-- Behind the loop. -/
def Work.finish (r : Resolver) (hints : FamilyHints) (wanted : Bool) (host : List Byte)
    (servname : Option (List Byte)) (k : Work) : GaEnd :=
  if k.s.aihead = [] then bad (.ga .EAI_NONAME) k.s.aihead k.s.mem k.names
  else if wanted then
    match k.canon with
    | some canon => Gai.finish r hints servname (setCanon canon k.s.aihead) k.s.mem k.names
    | none =>
      match k.names.alloc host with
      | (none,names) => bad (.ga .EAI_MEMORY) k.s.aihead k.s.mem names
      | (some canon,names) =>
        Gai.finish r hints servname (setCanon canon k.s.aihead) k.s.mem names
  else Gai.finish r hints servname k.s.aihead k.s.mem k.names

/-- One `ga_aistruct` after the other, each with its own arguments. -/
def aistructs : List (Hints × Nat × List Byte) → Search → Option Eai × Search
  | [], s => (none,s)
  | (hintsp,family,addr) :: calls, s =>
    match gaAistruct hintsp addr family s with
    | (none,s) => aistructs calls s
    | failed => failed

/-- Stream, then dgram, when no socket type is specified. -/
def unixSocktypes (hintsp : FamilyHints) : List Int :=
  if hintsp.ai_socktype = 0 then [SOCK_STREAM,SOCK_DGRAM] else [hintsp.ai_socktype]

def unixCalls (hintsp : FamilyHints) (path : List Byte) : List (Hints × Nat × List Byte) :=
  (unixSocktypes hintsp).map fun socktype =>
    ({ hintsp.toHints with ai_socktype := socktype },AF_LOCAL,path)

/-- Behind the calls of `ga_aistruct`. -/
def unixCanon (r : Resolver) (hintsp : FamilyHints) (s : Search) (names : Names) : GaEnd :=
  if hintsp.ai_flags &&& AI_CANONNAME ≠ 0 then
    match r.uname with
    | none => .error .EAI_SYSTEM s.mem names
    | some nodename =>
      match names.alloc nodename with
      | (none,names) => .error (.ga .EAI_MEMORY) s.mem names
      | (some canon,names) => .list (setCanon canon s.aihead) s.mem names
  else .list s.aihead s.mem names

def gaUnix (r : Resolver) (path : List Byte) (hintsp : FamilyHints) (mem : Memory)
    (names : Names) : GaEnd :=
  if hintsp.ai_family ≠ AF_UNSPEC ∧ hintsp.ai_family ≠ AF_LOCAL then
    .error .EAI_ADDRFAMILY mem names
  else
    match aistructs (unixCalls hintsp path) ⟨[],mem,[]⟩ with
    | (some e,s) => .error (.ga e) s.mem names
    | (none,s) => unixCanon r hintsp s names

/-! ## The call -/

def Query.echeck (q : Query) : Option Code :=
  gaEcheck q.hostname q.servname q.hints.ai_flags q.hints.ai_family q.hints.ai_socktype

/-- "/local" or "/unix" with an absolute path as the service. -/
def Query.isUnix (q : Query) : Bool :=
  (q.hostname == some [47,108,111,99,97,108] || q.hostname == some [47,117,110,105,120]) &&
    (q.servname.getD []).headD 0 == 47

/-- Whether the name of the host is to be returned. -/
def Query.wanted (q : Query) : Bool :=
  !absent q.hostname && q.hints.ai_flags &&& AI_CANONNAME != 0

def Query.search (q : Query) : List HostSearch := gaNsearch q.hostname q.hints

def Query.turns (r : Resolver) (q : Query) (mem : Memory) (names : Names) : Option Code × Work :=
  Work.turns r q.hints q.wanted q.search.length q.search ⟨⟨[],mem,[]⟩,names,none⟩

def getaddrinfo (r : Resolver) (q : Query) (mem : Memory) (names : Names) : GaEnd :=
  match q.echeck with
  | some rc => bad rc [] mem names
  | none =>
    if q.isUnix then gaUnix r (q.servname.getD []) q.hints mem names
    else
      match q.search with
      | [] => .quit
      | sptr :: _ =>
        match q.turns r mem names with
        | (some rc,k) => bad rc k.s.aihead k.s.mem k.names
        | (none,k) => k.finish r q.hints q.wanted sptr.host q.servname

end UnixNet.Gai
