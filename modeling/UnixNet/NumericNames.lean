import UnixNet.AddressResult
import UnixNet.InetPton
import UnixNet.NumericService
set_option autoImplicit false

/-! libgai/getnameinfo.c and gn_ipv46.c, and the way back through `getaddrinfo`. -/

namespace UnixNet.Gai
open InetText (inetNtop inetPton IsAddress addressText quadText ntopText)

def NI_NOFQDN : Nat := 1
def NI_NUMERICHOST : Nat := 2
def NI_NAMEREQD : Nat := 4
def NI_NUMERICSERV : Nat := 8
def NI_DGRAM : Nat := 16

/-- The names that the C library knows, where it knows one. -/
structure NameServices where
  gethostbyaddr : List Byte → Nat → Option (List Byte)
  getservbyport : Nat → Bool → Option (List Byte)

/-- `ntohs` on a big-endian host. -/
def ntohs (port : Nat) : Nat := port % 65536

section
variable (ns : NameServices)

/-- The host part: the caller's `hostlen` bytes at `host`, or the return of 1. The outer `none` is
a store outside of them. -/
def gnHost (host : List Byte) (hostlen : Nat) (aptr : List Byte) (family flags : Nat) :
    Option (Option (List Byte)) :=
  let numeric := (inetNtop family aptr host hostlen).map Except.toOption
  if hostlen = 0 then some (some host)
  else if flags &&& NI_NUMERICHOST ≠ 0 then numeric
  else
    match ns.gethostbyaddr aptr family with
    | some h_name =>
      let name := if flags &&& NI_NOFQDN ≠ 0 then h_name.takeWhile (· ≠ InetText.dot) else h_name
      (CString.snprintf 0 host 0 hostlen name).map some
    | none => if flags &&& NI_NAMEREQD ≠ 0 then some none else numeric

def gnServ (serv : List Byte) (servlen port flags : Nat) : Option (List Byte) :=
  let numeric := CString.snprintf 0 serv 0 servlen (decimalText (ntohs port))
  if servlen = 0 then some serv
  else if flags &&& NI_NUMERICSERV ≠ 0 then numeric
  else
    match ns.getservbyport port (flags &&& NI_DGRAM ≠ 0) with
    | some s_name => CString.snprintf 0 serv 0 servlen s_name
    | none => numeric

def gnIpv46 (host : List Byte) (hostlen : Nat) (serv : List Byte) (servlen : Nat)
    (aptr : List Byte) (family port flags : Nat) : Option (Option (List Byte × List Byte)) := do
  match ← gnHost ns host hostlen aptr family flags with
  | none => return none
  | some host => return some (host,← gnServ ns serv servlen port flags)

/-- The strings of the caller, or `some none` for the return of 1. -/
def getnameinfo (sa : SockAddr) (host : List Byte) (hostlen : Nat) (serv : List Byte)
    (servlen flags : Nat) : Option (Option (List Byte × List Byte)) :=
  if sa.sa_family = AF_INET then
    gnIpv46 ns host hostlen serv servlen sa.addr AF_INET sa.port flags
  else if sa.sa_family = AF_INET6 then
    gnIpv46 ns host hostlen serv servlen sa.addr AF_INET6 sa.port flags
  else if sa.sa_family = AF_LOCAL then do
    let host ← CString.snprintf 0 host 0 hostlen [47,108,111,99,97,108]
    return some (host,← CString.snprintf 0 serv 0 servlen sa.addr)
  else some none

end

/-! ## The texts of an address -/

/-- An IPv4 or IPv6 address with a port. -/
structure InetName where
  family : Nat
  addr : List Byte
  port : Nat
  wf : IsAddress family addr
  port_lt : port < 65536

def InetName.sockaddr (n : InetName) : SockAddr :=
  ⟨if n.family = AF_INET then 16 else 28,n.family,n.port,n.addr⟩

theorem inetPton4_colon {s addr : List Byte} (h : InetText.inetPton4 s = some addr) :
    InetText.colon ∉ s := by
  obtain ⟨parts,rfl,-,hoctets,-⟩ := (InetText.inetPton4_iff s addr).mp h
  have hall : ∀ c ∈ [InetText.dot].intercalate parts, isdigit c = true ∨ c = InetText.dot := by
    clear h
    induction parts with
    | nil => simp
    | cons p ps ih =>
      obtain ⟨hp,hps⟩ := List.forall_mem_cons.mp hoctets
      rw [← InetText.dotted_eq]
      cases ps with
      | nil => exact fun c hc => .inl (hp.2.1 c hc)
      | cons q ps =>
        rw [← InetText.dotted_eq] at ih
        intro c hc
        rw [InetText.dotted] at hc
        rcases List.mem_append.mp hc with hc | hc
        · exact .inl (hp.2.1 c hc)
        · rcases List.mem_cons.mp hc with rfl | hc
          · exact .inr rfl
          · exact ih hps c hc
  intro hmem
  rcases hall _ hmem with hdigit | hdot
  · exact absurd hdigit (by decide)
  · exact absurd hdot (by decide)

theorem xdigitsL_isxdigit : ∀ d < 16, isxdigit (InetText.xdigitsL.getD d 0) = true := by decide

theorem hexText_start (w : Nat) (l : List Byte) :
    isxdigit ((InetText.hexText w ++ l).headD 0) = true := by
  obtain ⟨d,hd,t,ht⟩ := InetText.hexText_head w
  rw [ht]
  exact xdigitsL_isxdigit d hd

/-- How the text of an IPv6 address starts, and that it has a colon. -/
theorem ntopText_start (src : List Byte) :
    (isxdigit ((ntopText src).headD 0) || (ntopText src).headD 0 == colon) = true ∧
      (ntopText src).contains colon = true := by
  have h8 := InetText.words_length src
  have hcolon : ∀ l l' : List Byte, (l ++ InetText.colon :: l').contains colon = true :=
    fun l l' => by simp [InetText.colon,colon]
  have hfirst : ∀ l : List Byte, (isxdigit ((InetText.colon :: l).headD 0) ||
      (InetText.colon :: l).headD 0 == colon) = true := fun _ => by
    simp [InetText.colon,colon]
  rcases InetText.ntopText_cases src with ⟨-,htext⟩ | ⟨r,-,-,⟨-,htext⟩ | ⟨-,htext⟩⟩
  · rw [htext]
    cases hws : InetText.words src with
    | nil => simp [hws] at h8
    | cons w ws =>
      have hne : ws ≠ [] := by
        rintro rfl
        simp [hws] at h8
      rw [InetText.hexJoin,hexText_start,InetText.behind_eq hne]
      exact ⟨rfl,hcolon _ _⟩
  · rw [htext]
    exact ⟨hfirst _,hcolon [] _⟩
  · rw [htext,InetText.colonText]
    cases (InetText.words src).take r.base with
    | nil => exact ⟨hfirst _,hcolon [] _⟩
    | cons w ws =>
      rw [InetText.hexJoin,List.append_assoc,hexText_start]
      exact ⟨rfl,by rw [← List.append_assoc]; exact hcolon _ _⟩

theorem headD_append {l : List Byte} (h : l ≠ []) (l' : List Byte) (c : Byte) :
    (l ++ l').headD c ∈ l := by
  cases l with
  | nil => exact absurd rfl h
  | cons x l => exact List.mem_cons_self

theorem quadText_start (src : List Byte) : isdigit ((quadText src).headD 0) = true :=
  decimalText_isdigit (headD_append (decimalText_ne_nil _) _ 0)

/-! ## What `getaddrinfo` makes of them -/

/-- The resolver has the `inet_pton` of this library. -/
def Resolver.ReadsText (r : Resolver) : Prop :=
  ∀ af s, r.inet_pton af s = (inetPton af s).toOption.join

theorem answer_addressText {r : Resolver} (hr : r.ReadsText) (n : InetName) (hints : FamilyHints)
    (nsearch family : Nat) :
    answer r hints nsearch ⟨addressText n.family n.addr,family⟩ =
      literal hints ⟨addressText n.family n.addr,family⟩ n.family n.addr := by
  have hpton := InetText.inetPton_addressText n.wf
  have h64 : AF_INET6 ≠ AF_INET := by decide
  rcases n.wf with ⟨hfam,-⟩ | ⟨hfam,-⟩
  · have htext : addressText n.family n.addr = quadText n.addr := if_pos hfam
    have hfour : literal4 r (quadText n.addr) = some n.addr := by
      rw [literal4,if_pos (quadText_start _),hr]
      rw [hfam] at hpton htext
      rw [← htext]
      exact congrArg (fun x => Option.join (Except.toOption x)) hpton
    rw [htext,answer,hfour,hfam]
    rfl
  · have htext : addressText n.family n.addr = ntopText n.addr :=
      if_neg (by rw [hfam]; decide)
    obtain ⟨hstart,hcontains⟩ := ntopText_start n.addr
    have hfour : literal4 r (ntopText n.addr) = none := by
      unfold literal4
      split
      · rw [hr]
        cases hread : InetText.inetPton4 (ntopText n.addr) with
        | none =>
          have hnone : inetPton AF_INET (ntopText n.addr) = .ok none := by
            rw [← hread]
            rfl
          rw [hnone]
          rfl
        | some addr =>
          exact absurd (List.contains_iff_mem.mp hcontains) (inetPton4_colon hread)
      · rfl
    have hsix : literal6 r (ntopText n.addr) = some n.addr := by
      rw [literal6,if_pos (by rw [hstart,hcontains]; rfl),hr]
      rw [hfam] at hpton htext
      rw [← htext]
      exact congrArg (fun x => Option.join (Except.toOption x)) hpton
    rw [htext,answer,hfour,hsix,hfam]
    rfl

theorem InetName.known (n : InetName) : n.family = AF_INET ∨ n.family = AF_INET6 :=
  n.wf.imp And.left And.left

theorem addressText_start (n : InetName) :
    (isxdigit ((addressText n.family n.addr).headD 0) ||
      (addressText n.family n.addr).headD 0 == colon) = true := by
  rcases n.known with hfam | hfam
  · have hstart : isdigit ((quadText n.addr).headD 0) = true := quadText_start n.addr
    rw [show addressText n.family n.addr = quadText n.addr from if_pos hfam,isxdigit,hstart]
    rfl
  · rw [show addressText n.family n.addr = ntopText n.addr from if_neg (by rw [hfam]; decide)]
    exact (ntopText_start n.addr).1

/-- The text of an address is neither empty nor a path. -/
theorem addressText_cons (n : InetName) :
    ∃ c l, addressText n.family n.addr = c :: l ∧ c ≠ 47 := by
  have hstart := addressText_start n
  cases htext : addressText n.family n.addr with
  | nil =>
    rw [htext] at hstart
    exact absurd hstart (by decide)
  | cons c l =>
    refine ⟨c,l,rfl,?_⟩
    rintro rfl
    rw [htext] at hstart
    exact absurd hstart (by simp [isxdigit,isdigit,colon])

theorem turn_numeric {r : Resolver} (hr : r.ReadsText) (n : InetName) {hints : FamilyHints}
    (hfam : hints.ai_family = AF_UNSPEC ∨ hints.ai_family = n.family) (wanted : Bool)
    (nsearch family : Nat) (k : Work) :
    k.turn r hints wanted nsearch ⟨addressText n.family n.addr,family⟩ =
      if family = n.family then k.aistructs hints [(n.family,n.addr)] else (none,k) := by
  have hallowed : ¬ (hints.ai_family ≠ AF_UNSPEC ∧ hints.ai_family ≠ n.family) := fun h =>
    hfam.elim h.1 h.2
  rw [Work.turn,answer_addressText hr,literal,if_neg hallowed]
  by_cases hf : family = n.family
  · simp only [hf,ne_eq,not_true_eq_false,if_false,if_true]
  · simp only [hf,ne_eq,not_false_eq_true,if_true,if_false]

theorem turns_one (r : Resolver) (hints : FamilyHints) (wanted : Bool) (nsearch : Nat)
    (sptr : HostSearch) (k : Work) :
    k.turns r hints wanted nsearch [sptr] = k.turn r hints wanted nsearch sptr := by
  rw [Work.turns]
  rcases k.turn r hints wanted nsearch sptr with ⟨_ | e,k'⟩ <;> rfl

theorem turns_numeric {r : Resolver} (hr : r.ReadsText) (n : InetName) {q : Query}
    (hhost : q.hostname = some (addressText n.family n.addr))
    (hfam : q.hints.ai_family = AF_UNSPEC ∨ q.hints.ai_family = n.family)
    (mem : Memory) (names : Names) :
    (∃ family search, q.search = ⟨addressText n.family n.addr,family⟩ :: search) ∧
    q.turns r mem names =
      Work.aistructs q.hints [(n.family,n.addr)] ⟨⟨[],mem,[]⟩,names,none⟩ := by
  obtain ⟨c,l,htext,-⟩ := addressText_cons n
  have hsearch : q.search = searches (addressText n.family n.addr) (addressText n.family n.addr)
      q.hints.ai_family := by
    have habsent : absent q.hostname = false := by
      rw [hhost,htext]
      rfl
    rw [Query.search,gaNsearch,habsent,hhost]
    rfl
  have h64 : AF_INET6 ≠ AF_INET := by decide
  -- one search for the family that is asked for, or one for IPv6 and one for IPv4
  have hcases : q.search = [⟨addressText n.family n.addr,n.family⟩] ∨
      q.search =
        [⟨addressText n.family n.addr,AF_INET6⟩,⟨addressText n.family n.addr,AF_INET⟩] := by
    rw [hsearch]
    rcases hfam with h | h
    · exact .inr (by rw [h]; rfl)
    · rcases n.known with hn | hn
      · exact .inl (by rw [h,hn]; rfl)
      · exact .inl (by rw [h,hn]; rfl)
  rcases hcases with hone | htwo
  · refine ⟨⟨_,_,hone⟩,?_⟩
    rw [Query.turns,hone,turns_one,turn_numeric hr n hfam,if_pos rfl]
  · refine ⟨⟨_,_,htwo⟩,?_⟩
    rw [Query.turns,htwo,Work.turns,turn_numeric hr n hfam]
    rcases n.known with hn | hn
    · rw [hn,if_neg h64,← hn]
      change Work.turns r q.hints _ _ [_] _ = _
      rw [turns_one,turn_numeric hr n hfam,if_pos rfl]
    · rw [hn,if_pos rfl,← hn]
      rcases Work.aistructs q.hints [(n.family,n.addr)] ⟨⟨[],mem,[]⟩,names,none⟩ with ⟨_ | e,k⟩
      · simp only [Work.turns]
        rw [turn_numeric hr n hfam,if_neg (by rw [hn]; exact h64.symm)]
      · rfl

/-! ## The service -/

theorem decimalText_start (port : Nat) : isdigit ((decimalText port).headD 0) = true := by
  have hhead := headD_append (decimalText_ne_nil port) [] 0
  rw [List.append_nil] at hhead
  exact decimalText_isdigit hhead

theorem gaServPorts_decimalText (getservbyname : List Byte → Proto → Option Int) (hintsp : Hints)
    {port : Nat} (h : port < 65536) : gaServPorts getservbyname hintsp (decimalText port) =
      (socktypes hintsp).map fun t => ((port : Int),t) := by
  have hport : PortNumber (decimalText port) port :=
    ⟨fun _ => decimalText_isdigit,decimal_decimalText port,Nat.le_of_lt_succ h⟩
  rw [gaServPorts_numeric hintsp (decimalText_start port),
    atoi_port (decimalText_start port) hport]

/-- The calls of `ga_port` for the one entry of an address. -/
theorem passes_one (hintsp : Hints) (port : Int) (a : Nat × List Byte) :
    let values := passes ((socktypes hintsp).map fun t => (port,t))
      [(cloneFlag hintsp,base hintsp a)]
    values.1 ≠ 0 ∧ values.2.map Prod.snd =
      (socktypes hintsp).map fun t => (base hintsp a).serve port t := by
  intro values
  by_cases htype : hintsp.ai_socktype = 0
  · have htypes : socktypes hintsp = [SOCK_STREAM,SOCK_DGRAM] := if_neg (not_not.mpr htype)
    obtain ⟨hfound,hview⟩ := passes_any htype (some port) (some port) [a]
    have hvalues : values = passes (((some port).map fun port => (port,SOCK_STREAM)).toList ++
        ((some port).map fun port => (port,SOCK_DGRAM)).toList)
        ([a].map fun a => (cloneFlag hintsp,base hintsp a)) := by
      simp only [values,htypes]
      rfl
    rw [hvalues,hfound,hview (.inl rfl),htypes]
    exact ⟨by simp,rfl⟩
  · have htypes : socktypes hintsp = [hintsp.ai_socktype] := if_pos htype
    have hpasses := passes_type htype (some port) [a]
    have hvalues : values = passes ((some port).map fun port => (port,hintsp.ai_socktype)).toList
        ([a].map fun a => (cloneFlag hintsp,base hintsp a)) := by
      simp only [values,htypes]
      rfl
    rw [hvalues,hpasses,htypes]
    exact ⟨by simp,rfl⟩

theorem InetName.serve_base (n : InetName) (hintsp : Hints) (socktype : Int) :
    (base hintsp (n.family,n.addr)).serve n.port socktype =
      ⟨n.family,socktype,hintsp.ai_protocol,n.sockaddr.sa_len,some n.sockaddr⟩ := by
  have hport : ((n.port : Int) % 65536).toNat = n.port := by
    have hlt := n.port_lt
    omega
  have h64 : AF_INET6 ≠ AF_INET := by decide
  rcases n.wf with ⟨hfam,hlen⟩ | ⟨hfam,hlen⟩
  · have hfam : n.family = AF_INET := hfam
    have htake : n.addr.take 4 = n.addr := List.take_of_length_le (Nat.le_of_eq hlen)
    simp [base,Entry.serve,InetName.sockaddr,SockAddr.setPort,sockaddrIn,hfam,hport,htake]
  · have hfam : n.family = AF_INET6 := hfam
    have htake : n.addr.take 16 = n.addr := List.take_of_length_le (Nat.le_of_eq hlen)
    simp [base,Entry.serve,InetName.sockaddr,SockAddr.setPort,sockaddrIn6,hfam,hport,htake,h64]

/-- The list for the two texts of an address, when no allocation fails. -/
theorem getaddrinfo_texts {r : Resolver} (hr : r.ReadsText) (n : InetName) {q : Query}
    (hhost : q.hostname = some (addressText n.family n.addr))
    (hserv : q.servname = some (decimalText n.port)) (hcheck : q.echeck = none)
    (hfam : q.hints.ai_family = AF_UNSPEC ∨ q.hints.ai_family = n.family)
    (hwanted : q.wanted = false) {mem : Memory} (hgrant : ∀ i, mem.grant i = true)
    (names : Names) :
    ∃ ais mem', getaddrinfo r q mem names = .list ais mem' names ∧
      ais.map (view mem') = (socktypes q.hints.toHints).map fun t =>
        ⟨n.family,t,q.hints.ai_protocol,n.sockaddr.sa_len,some n.sockaddr⟩ := by
  obtain ⟨⟨family,search,hsearch⟩,hturns⟩ := turns_numeric hr n hhost hfam mem names
  obtain ⟨c,l,htext,hc⟩ := addressText_cons n
  have hunix : q.isUnix = false := by
    have hpath : q.hostname ≠ some [47,108,111,99,97,108] ∧
        q.hostname ≠ some [47,117,110,105,120] := by
      rw [hhost,htext]
      simp [hc]
    simp [Query.isUnix,hpath]
  rcases hbuild : gaAistructs q.hints.toHints [(n.family,n.addr)] ⟨[],mem,[]⟩ with ⟨rc,s⟩
  have hknown : Known n.family := n.known.imp_right .inl
  have hfits : Fits n.family n.addr := fun hlocal => by
    rcases n.known with h | h <;> rw [h] at hlocal <;> exact absurd hlocal (by decide)
  have hrc : rc = none := by
    rw [gaAistructs_eq] at hbuild
    have hout := (aistructs_outcome (by simpa using hknown) hbuild).1
    exact hout.mpr ⟨by simpa using hfits,fun i _ => hgrant _⟩
  subst hrc
  have hstart : Built mem [] ⟨[],mem,[]⟩ := ⟨.refl (by simp) (by simp),by simp,rfl⟩
  have hbuilt := gaAistructs_built hstart (by simpa using n.known) hbuild
  have hne : s.aihead ≠ [] := by
    intro hnil
    have hshows := hbuilt.shows
    rw [hnil] at hshows
    simp at hshows
  obtain ⟨t,heq,ht⟩ := gaPorts_ported (gaServPorts r.getservbyname q.hints.toHints
    (decimalText n.port)) hbuilt.held hbuilt.grown.nodup
  rw [hbuilt.shows,List.nil_append,List.map_singleton,
    gaServPorts_decimalText _ _ n.port_lt] at ht
  obtain ⟨hfound,hview⟩ := passes_one q.hints.toHints n.port (n.family,n.addr)
  cases ht with
  | nomem hfail =>
    obtain ⟨i,hi⟩ := hfail
    rw [hbuilt.grown.frame.grant,hgrant i] at hi
    cases hi
  | @done ais mem' hgrow hheld hslots =>
    obtain ⟨error,hga,-,hok⟩ := gaServ_found heq
    have herror : error = none := hok.mpr hfound
    subst herror
    refine ⟨ais,mem',?_,?_⟩
    · have hservne : absent (some (decimalText n.port)) = false := by
        have hdne := decimalText_ne_nil n.port
        simpa [absent] using hdne
      unfold getaddrinfo
      rw [hcheck,hunix,hsearch]
      simp only [Bool.false_eq_true,if_false]
      rw [hturns]
      simp only [Work.aistructs,hbuild,Option.map_none,Work.finish,if_neg hne,hwanted,
        Bool.false_eq_true,if_false,Gai.finish,hserv,hservne,Option.getD_some,hga]
    · rw [view_snd,hslots,hview]
      exact List.map_congr_left fun socktype _ => n.serve_base q.hints.toHints socktype

/-! ## There and back -/

theorem zero_notMem_decimalText (port : Nat) : (0 : Byte) ∉ decimalText port := fun h =>
  absurd (decimalText_isdigit h) (by decide)

theorem gnServ_numeric (ns : NameServices) {serv : List Byte} {servlen port flags : Nat}
    (hport : port < 65536) (hlow : 6 ≤ servlen) (hhigh : servlen ≤ serv.length)
    (hflags : flags &&& NI_NUMERICSERV ≠ 0) :
    ∃ serv', gnServ ns serv servlen port flags = some serv' ∧
      CString.text 0 serv' = decimalText port := by
  have hlen : (decimalText port).length ≤ 5 :=
    decimalText_length (by decide) (Nat.lt_trans hport (by decide))
  have hntohs : ntohs port = port := Nat.mod_eq_of_lt hport
  obtain ⟨serv',hstore,-,hholds⟩ :=
    CString.snprintf_front 0 (show 0 < servlen by omega) hhigh (decimalText port)
  refine ⟨serv',?_,?_⟩
  · rw [gnServ]
    simp only [if_neg (show servlen ≠ 0 by omega),if_pos hflags,hntohs]
    exact hstore
  · rw [hholds.text_eq,CString.text_eq_self (zero_notMem_decimalText port)]
    exact List.take_of_length_le (by omega)

theorem gnHost_numeric (ns : NameServices) (n : InetName) {host : List Byte} {hostlen flags : Nat}
    (hlow : 46 ≤ hostlen) (hhigh : hostlen ≤ host.length)
    (hflags : flags &&& NI_NUMERICHOST ≠ 0) :
    ∃ host', gnHost ns host hostlen n.addr n.family flags = some (some host') ∧
      CString.text 0 host' = addressText n.family n.addr := by
  obtain ⟨host',hstore⟩ := InetText.inetNtop_ok n.wf hlow hhigh
  refine ⟨host',?_,InetText.inetNtop_text n.wf hstore⟩
  rw [gnHost]
  simp only [if_neg (show hostlen ≠ 0 by omega),if_pos hflags,hstore]
  rfl

/-- A resolver that knows no name. -/
def textResolver : Resolver where
  inet_pton := fun af s => (inetPton af s).toOption.join
  gethostbyname := fun _ _ => .error .HOST_NOT_FOUND
  gethostbyname2 := fun _ _ => none
  getservbyname := fun _ _ => none
  uname := none

end UnixNet.Gai
