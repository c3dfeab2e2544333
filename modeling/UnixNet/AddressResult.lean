import UnixNet.AddressOwners
set_option autoImplicit false

/-! What a call of `getaddrinfo` comes to: an error, or a list that `freeaddrinfo` can free. -/

namespace UnixNet.Gai

/-- A call that does not end the program, with the objects and names that nothing can free. -/
inductive Ends (A : Memory) (N : Names) (lost lost' : Multiset Nat) : GaEnd → Prop where
  | error {e : Code} {mem : Memory} {names : Names} :
      A.Owns lost mem → N.Owns lost' names → Ends A N lost lost' (.error e mem names)
  | list {ais : List AddrInfo} {mem : Memory} {names : Names} :
      ais ≠ [] → A.Owns (blocks ais + lost) mem → N.Owns (canons ais + lost') names →
      Ends A N lost lost' (.list ais mem names)

theorem bad_ends {A mem : Memory} {N names : Names} {lost lost' : Multiset Nat}
    {aihead : List AddrInfo} (e : Code) (h : A.Owns (blocks aihead + lost) mem)
    (hn : N.Owns (canons aihead + lost') names) :
    Ends A N lost lost' (bad e aihead mem names) := by
  obtain ⟨mem',names',hfree,hmem,hnames⟩ := freeaddrinfo_owns h hn
  rw [bad,hfree]
  exact .error hmem hnames

/-! ## The service and the canonical name -/

/-- Every entry has its own socket address, so that the ports can be set. -/
def Settable (mem : Memory) (ais : List AddrInfo) : Prop :=
  (∀ ai ∈ ais, Held mem ai) ∧ (addrs ais).Nodup

theorem gaServ_total {ais : List AddrInfo} {mem : Memory} (h : Settable mem ais)
    (getservbyname : List Byte → Proto → Option Int) (hintsp : Hints) (serv : List Byte) :
    ∃ r, gaServ getservbyname hintsp serv ais mem = some r := by
  obtain ⟨⟨rc,ais',mem'⟩,hports,-⟩ :=
    gaPorts_ported (gaServPorts getservbyname hintsp serv) h.1 h.2
  cases rc with
  | none => exact ⟨_,gaServ_nomem hports⟩
  | some nfound =>
    obtain ⟨rc,hrc,-⟩ := gaServ_found hports
    exact ⟨_,hrc⟩

theorem Settable.setCanon {ais : List AddrInfo} {mem : Memory} (h : Settable mem ais)
    (canon : Nat) : Settable mem (setCanon canon ais) := by
  cases ais with
  | nil => exact h
  | cons ai ais =>
    refine ⟨?_,h.2⟩
    obtain ⟨hai,hais⟩ := List.forall_mem_cons.mp h.1
    exact List.forall_mem_cons.mpr ⟨hai,hais⟩

theorem finish_ends {A mem : Memory} {N names : Names} {aihead : List AddrInfo} (r : Resolver)
    (hints : FamilyHints) (servname : Option (List Byte)) (hne : aihead ≠ [])
    (hset : Settable mem aihead) (h : A.Owns (blocks aihead) mem)
    (hn : N.Owns (canons aihead) names) :
    Ends A N 0 0 (finish r hints servname aihead mem names) := by
  rw [← add_zero (blocks aihead)] at h
  rw [← add_zero (canons aihead)] at hn
  unfold finish
  split_ifs
  · exact .list hne h hn
  obtain ⟨⟨rc,ais,mem'⟩,hserv⟩ :=
    gaServ_total hset r.getservbyname hints.toHints (servname.getD [])
  obtain ⟨hown,hcanon,hne'⟩ := gaServ_owns h hserv
  rw [← hcanon] at hn
  rw [hserv]
  cases rc with
  | none => exact .list (hne' hne) hown hn
  | some e => exact bad_ends (.ga e) hown hn

theorem finish_setCanon_ends {A mem : Memory} {N names : Names} {aihead : List AddrInfo}
    (r : Resolver) (hints : FamilyHints) (servname : Option (List Byte)) (canon : Nat)
    (hne : aihead ≠ []) (hset : Settable mem aihead) (h : A.Owns (blocks aihead) mem)
    (hc : canons aihead = 0) (hn : N.Owns {canon} names) :
    Ends A N 0 0 (finish r hints servname (setCanon canon aihead) mem names) := by
  refine finish_ends r hints servname ?_ (hset.setCanon canon) ?_ ?_
  · simpa [setCanon_eq_nil] using hne
  · rwa [blocks_setCanon]
  · rwa [canons_setCanon canon hne hc]

/-- What the loop has, behind a turn and behind the last one. -/
structure Work.Holds (A : Memory) (N : Names) (k : Work) : Prop where
  search : k.s.Owns A
  names : N.Owns (k.canon.toList : Multiset Nat) k.names

/-- The name saved in `canon` that no entry has. -/
def Work.lost (rc : Option Code) (k : Work) : Multiset Nat :=
  if rc ≠ none ∨ k.s.aihead = [] then k.canon.toList else 0

theorem Work.finish_ends {A : Memory} {N : Names} {k : Work} (r : Resolver) (hints : FamilyHints)
    {wanted : Bool} (host : List Byte) (servname : Option (List Byte)) (h : k.Holds A N)
    (hset : Settable k.s.mem k.s.aihead) (hwanted : k.canon ≠ none → wanted = true) :
    Ends A N 0 (k.lost none) (k.finish r hints wanted host servname) := by
  have hmem : A.Owns (blocks k.s.aihead + 0) k.s.mem := by simpa using h.search.mem
  unfold Work.finish Work.lost
  by_cases hnil : k.s.aihead = []
  · rw [if_pos hnil,if_pos (.inr hnil)]
    refine bad_ends _ hmem ?_
    simpa [h.search.canons] using h.names
  · rw [if_neg hnil,if_neg (by simpa using hnil)]
    cases hcanon : k.canon with
    | some canon =>
      have hnames : N.Owns {canon} k.names := by simpa [hcanon] using h.names
      rw [if_pos (hwanted (by simp [hcanon]))]
      exact finish_setCanon_ends r hints servname canon hnil hset h.search.mem h.search.canons
        hnames
    | none =>
      have hnames : N.Owns 0 k.names := by simpa [hcanon] using h.names
      rw [← h.search.canons] at hnames
      cases wanted with
      | false => exact Gai.finish_ends r hints servname hnil hset h.search.mem hnames
      | true =>
        rw [if_pos rfl]
        rcases halloc : k.names.alloc host with ⟨_ | canon,names⟩
        · exact bad_ends _ hmem (by simpa using hnames.alloc_none halloc)
        · have hsaved := hnames.alloc_some halloc
          rw [h.search.canons] at hsaved
          exact finish_setCanon_ends r hints servname canon hnil hset h.search.mem
            h.search.canons hsaved

/-! ## The loop over the searches -/

/-- What an answer finds are IPv4 and IPv6 addresses. -/
def Answer.Inet : Answer → Prop
  | .address family _ => family = AF_INET ∨ family = AF_INET6
  | _ => True

theorem answer_inet (r : Resolver) (hints : FamilyHints) (nsearch : Nat) (sptr : HostSearch) :
    (answer r hints nsearch sptr).Inet := by
  have hliteral : ∀ {family : Nat} (addr : List Byte), family = AF_INET ∨ family = AF_INET6 →
      (literal hints sptr family addr).Inet := by
    intro family addr hfam
    unfold literal
    split_ifs
    · trivial
    · trivial
    · exact hfam
  have hhost : ∀ hptr, (checkFamily hints hptr).Inet := by
    intro hptr
    unfold checkFamily
    split_ifs <;> trivial
  unfold answer lookup
  split
  · exact hliteral _ (.inl rfl)
  · split
    · exact hliteral _ (.inr rfl)
    · split_ifs
      · split
        · trivial
        · exact hhost _
      · split
        · trivial
        · exact hhost _

theorem Hostent.addresses_inet (hptr : Hostent) :
    ∀ a ∈ hptr.addresses, a.1 = AF_INET ∨ a.1 = AF_INET6 := by
  intro a ha
  obtain ⟨ap,-,rfl⟩ := List.mem_map.mp ha
  exact hptr.inet

/-- What the loop has when it goes on. -/
structure Work.Going (mem : Memory) (names : Names) (wanted : Bool) (k : Work) : Prop where
  holds : k.Holds mem names
  built : ∃ slots, Built mem slots k.s
  wanted : k.canon ≠ none → wanted = true

theorem Work.aistructs_going {mem : Memory} {names : Names} {wanted : Bool} {hints : FamilyHints}
    {as : List (Nat × List Byte)} {k k' : Work} {rc : Option Code} (h : k.Going mem names wanted)
    (hfam : ∀ a ∈ as, a.1 = AF_INET ∨ a.1 = AF_INET6) (hs : k.aistructs hints as = (rc,k')) :
    k'.Holds mem names ∧ (rc = none → k'.Going mem names wanted) := by
  unfold Work.aistructs at hs
  rcases hlist : gaAistructs hints.toHints as k.s with ⟨rc₁,s₁⟩
  simp only [hlist] at hs
  cases hs
  have howns := hlist
  rw [gaAistructs_eq] at howns
  have hholds : Work.Holds mem names { k with s := s₁ } :=
    ⟨aistructs_owns h.holds.search howns,h.holds.names⟩
  refine ⟨hholds,fun hrc => ⟨hholds,?_,h.wanted⟩⟩
  obtain ⟨slots,hbuilt⟩ := h.built
  rw [Option.map_eq_none_iff] at hrc
  subst hrc
  exact ⟨_,gaAistructs_built hbuilt hfam hlist⟩

theorem Work.saveCanon_going {mem : Memory} {names : Names} {wanted : Bool} {h_name : List Byte}
    {k k' : Work} {rc : Option Code} (h : k.Going mem names wanted)
    (hs : k.saveCanon wanted h_name = (rc,k')) : k'.Going mem names wanted := by
  unfold Work.saveCanon at hs
  split_ifs at hs with hcond
  · rw [Bool.and_eq_true,Option.isNone_iff_eq_none] at hcond
    have hnames := h.holds.names
    rw [hcond.2] at hnames
    rcases halloc : k.names.alloc h_name with ⟨_ | canon,names'⟩
    · simp only [halloc] at hs
      cases hs
      refine ⟨⟨h.holds.search,?_⟩,h.built,h.wanted⟩
      simpa [hcond.2] using hnames.alloc_none halloc
    · simp only [halloc] at hs
      cases hs
      exact ⟨⟨h.holds.search,hnames.alloc_some halloc⟩,h.built,fun _ => hcond.1⟩
  · cases hs
    exact h

theorem Work.turn_going {mem : Memory} {names : Names} {wanted : Bool} {r : Resolver}
    {hints : FamilyHints} {nsearch : Nat} {sptr : HostSearch} {k k' : Work} {rc : Option Code}
    (h : k.Going mem names wanted) (hs : k.turn r hints wanted nsearch sptr = (rc,k')) :
    k'.Holds mem names ∧ (rc = none → k'.Going mem names wanted) := by
  have hinet := answer_inet r hints nsearch sptr
  unfold Work.turn at hs
  cases hans : answer r hints nsearch sptr with
  | error e =>
    simp only [hans] at hs
    cases hs
    exact ⟨h.holds,fun _ => h⟩
  | ignore =>
    simp only [hans] at hs
    cases hs
    exact ⟨h.holds,fun _ => h⟩
  | address family addr =>
    rw [hans] at hinet
    simp only [hans] at hs
    exact Work.aistructs_going h (by simpa [Answer.Inet] using hinet) hs
  | host hptr =>
    simp only [hans] at hs
    rcases hsave : k.saveCanon wanted hptr.h_name with ⟨_ | e,k₁⟩
    · simp only [hsave] at hs
      exact Work.aistructs_going (Work.saveCanon_going h hsave) hptr.addresses_inet hs
    · simp only [hsave] at hs
      cases hs
      exact ⟨(Work.saveCanon_going h hsave).holds,nofun⟩

theorem Work.turns_going {mem : Memory} {names : Names} {wanted : Bool} {r : Resolver}
    {hints : FamilyHints} {nsearch : Nat} {search : List HostSearch} {k k' : Work}
    {rc : Option Code} (h : k.Going mem names wanted)
    (hs : k.turns r hints wanted nsearch search = (rc,k')) :
    k'.Holds mem names ∧ (rc = none → k'.Going mem names wanted) := by
  induction search generalizing k with
  | nil =>
    cases hs
    exact ⟨h.holds,fun _ => h⟩
  | cons sptr search ih =>
    rcases hone : k.turn r hints wanted nsearch sptr with ⟨_ | e,k₁⟩
    · simp only [Work.turns,hone] at hs
      exact ih ((Work.turn_going h hone).2 rfl) hs
    · simp only [Work.turns,hone] at hs
      cases hs
      exact ⟨(Work.turn_going h hone).1,nofun⟩

theorem Work.start_going (mem : Memory) (names : Names) (wanted : Bool) :
    Work.Going mem names wanted ⟨⟨[],mem,[]⟩,names,none⟩ := by
  refine ⟨⟨.start mem,.refl names⟩,⟨[],?_⟩,nofun⟩
  exact ⟨.refl (by simp) (by simp),by simp,rfl⟩

/-! ## The call -/

theorem search_eq_nil (q : Query) : q.search = [] ↔ q.hints.ai_family ≠ AF_INET ∧
    q.hints.ai_family ≠ AF_INET6 ∧ q.hints.ai_family ≠ AF_UNSPEC := by
  have hone : ∀ host6 host4, searches host6 host4 q.hints.ai_family = [] ↔
      q.hints.ai_family ≠ AF_INET ∧ q.hints.ai_family ≠ AF_INET6 ∧
        q.hints.ai_family ≠ AF_UNSPEC := by
    intro host6 host4
    unfold searches
    split_ifs <;> simp_all
  unfold Query.search gaNsearch
  split_ifs
  · exact hone _ _
  · exact hone _ _
  · exact hone _ _

theorem echeck_family {q : Query} (h : q.echeck = none) :
    q.hints.ai_family = AF_UNSPEC ∨ q.hints.ai_family = AF_INET ∨
      q.hints.ai_family = AF_INET6 ∨ q.hints.ai_family = AF_LOCAL := by
  unfold Query.echeck gaEcheck at h
  split_ifs at h with h₁ h₂ h₃ h₄ h₅ h₆ h₇
  · exact .inl h₃
  · exact .inr (h₄.imp id .inl)
  · exact .inr (.inr (.inr h₆))

theorem search_nil_iff {q : Query} (h : q.echeck = none) :
    q.search = [] ↔ q.hints.ai_family = AF_LOCAL := by
  rw [search_eq_nil]
  constructor
  · rintro ⟨hinet,hinet6,hunspec⟩
    rcases echeck_family h with hf | hf | hf | hf
    · exact absurd hf hunspec
    · exact absurd hf hinet
    · exact absurd hf hinet6
    · exact hf
  · rintro hf
    rw [hf]
    decide

theorem getaddrinfo_quit {r : Resolver} {q : Query} (mem : Memory) (names : Names)
    (hcheck : q.echeck = none) (hunix : q.isUnix = false) (hfam : q.hints.ai_family = AF_LOCAL) :
    getaddrinfo r q mem names = .quit := by
  rw [getaddrinfo,hcheck,(search_nil_iff hcheck).mpr hfam]
  simp [hunix]

theorem getaddrinfo_unix {r : Resolver} {q : Query} (mem : Memory) (names : Names)
    (hcheck : q.echeck = none) (hunix : q.isUnix = true) :
    getaddrinfo r q mem names = gaUnix r (q.servname.getD []) q.hints mem names := by
  rw [getaddrinfo,hcheck]
  simp [hunix]

theorem echeck_ends {r : Resolver} {q : Query} {rc : Code} (mem : Memory) (names : Names)
    (h : q.echeck = some rc) : Ends mem names 0 0 (getaddrinfo r q mem names) := by
  rw [getaddrinfo,h]
  exact bad_ends rc (by simpa [blocks] using .refl mem) (by simpa [canons] using .refl names)

theorem inet_ends {r : Resolver} {q : Query} (mem : Memory) (names : Names)
    (hcheck : q.echeck = none) (hunix : q.isUnix = false) (hfam : q.hints.ai_family ≠ AF_LOCAL) :
    Ends mem names 0 ((q.turns r mem names).2.lost (q.turns r mem names).1)
      (getaddrinfo r q mem names) := by
  have hsearch : q.search ≠ [] := mt (search_nil_iff hcheck).mp hfam
  obtain ⟨sptr,search,hcons⟩ := List.exists_cons_of_ne_nil hsearch
  rcases hturns : q.turns r mem names with ⟨rc,k⟩
  obtain ⟨hholds,hgoing⟩ := Work.turns_going (Work.start_going mem names q.wanted) hturns
  rw [getaddrinfo,hcheck]
  simp only [hunix,Bool.false_eq_true,if_false,hcons,hturns]
  cases rc with
  | some e =>
    refine bad_ends e (by simpa using hholds.search.mem) ?_
    simpa [Work.lost,hholds.search.canons] using hholds.names
  | none =>
    obtain ⟨-,⟨slots,hbuilt⟩,hwanted⟩ := hgoing rfl
    exact Work.finish_ends r q.hints sptr.host q.servname hholds
      ⟨hbuilt.held,hbuilt.grown.nodup⟩ hwanted

/-- An entry is linked in, and behind that something fails: the path is too long, an allocation
fails, or the name of the host cannot be had. -/
def UnixLeaks (r : Resolver) (path : List Byte) (hintsp : FamilyHints) (mem : Memory)
    (names : Names) : Prop :=
  (hintsp.ai_family = AF_UNSPEC ∨ hintsp.ai_family = AF_LOCAL) ∧ mem.grant mem.next = true ∧
    (SUN_PATH ≤ (cString path).length ∨
      (∃ i < 2 * (unixSocktypes hintsp).length, mem.grant (mem.next + i) = false) ∨
      hintsp.ai_flags &&& AI_CANONNAME ≠ 0 ∧ (r.uname = none ∨ names.grant names.next = false))

theorem unixSocktypes_ne_nil (hintsp : FamilyHints) : unixSocktypes hintsp ≠ [] := by
  unfold unixSocktypes
  split_ifs <;> simp

theorem unixCalls_outcome {hintsp : FamilyHints} {path : List Byte} {mem : Memory} {s : Search}
    {rc : Option Eai} (hs : aistructs (unixCalls hintsp path) ⟨[],mem,[]⟩ = (rc,s)) :
    (rc = none ↔ ¬ SUN_PATH ≤ (cString path).length ∧
      ¬ ∃ i < 2 * (unixSocktypes hintsp).length, mem.grant (mem.next + i) = false) ∧
    (s.aihead = [] ↔ mem.grant mem.next = false) := by
  have hcalls := unixSocktypes_ne_nil hintsp
  obtain ⟨socktype,hmem⟩ := List.exists_mem_of_ne_nil _ hcalls
  have hfam : ∀ call ∈ unixCalls hintsp path, Known call.2.1 := by
    intro call hcall
    obtain ⟨socktype,-,rfl⟩ := List.mem_map.mp hcall
    exact .inr (.inr rfl)
  have hfits : (∀ call ∈ unixCalls hintsp path, Fits call.2.1 call.2.2) ↔
      ¬ SUN_PATH ≤ (cString path).length := by
    rw [Nat.not_le]
    constructor
    · exact fun h => h _ (List.mem_map_of_mem hmem) rfl
    · intro h call hcall
      obtain ⟨socktype,-,rfl⟩ := List.mem_map.mp hcall
      exact fun _ => h
  obtain ⟨hrc,hnil⟩ := aistructs_outcome hfam hs
  rw [hfits,unixCalls,List.length_map] at hrc
  refine ⟨?_,?_⟩
  · simpa using hrc
  · simpa [unixCalls,hcalls] using hnil

theorem unixCanon_ends (r : Resolver) (hintsp : FamilyHints) {s : Search} {A : Memory}
    {N names : Names} (hne : s.aihead ≠ []) (h : s.Owns A) (hn : N.Owns 0 names) :
    ∃ lost, Ends A N lost 0 (unixCanon r hintsp s names) ∧
      (lost = 0 ↔ ¬ (hintsp.ai_flags &&& AI_CANONNAME ≠ 0 ∧
        (r.uname = none ∨ names.grant names.next = false))) := by
  have hlost : blocks s.aihead ≠ 0 := fun h => hne (blocks_eq_zero.mp h)
  unfold unixCanon
  split_ifs with hflag
  · cases huname : r.uname with
    | none => exact ⟨_,.error h.mem hn,by simp [hflag,hlost]⟩
    | some nodename =>
      rcases halloc : names.alloc nodename with ⟨_ | canon,names'⟩
      · obtain ⟨-,-,hgrant⟩ := Arena.alloc_next halloc
        simp only [halloc]
        refine ⟨_,.error h.mem (hn.alloc_none halloc),?_⟩
        simpa [hflag,hlost] using hgrant
      · obtain ⟨-,-,hgrant⟩ := Arena.alloc_next halloc
        simp only [halloc]
        refine ⟨0,.list (by simpa using hne) ?_ ?_,?_⟩
        · rw [blocks_setCanon,add_zero]
          exact h.mem
        · rw [canons_setCanon canon hne h.canons]
          exact hn.alloc_some halloc
        · simpa [hflag] using hgrant
  · refine ⟨0,.list hne (by simpa using h.mem) ?_,by simp [hflag]⟩
    simpa [h.canons] using hn

theorem gaUnix_ends (r : Resolver) (path : List Byte) (hintsp : FamilyHints) (mem : Memory)
    (names : Names) : ∃ lost, Ends mem names lost 0 (gaUnix r path hintsp mem names) ∧
      (lost = 0 ↔ ¬ UnixLeaks r path hintsp mem names) := by
  unfold gaUnix UnixLeaks
  split_ifs with hfam
  · refine ⟨0,.error (.refl mem) (.refl names),?_⟩
    simp [hfam]
  rw [not_and_or,not_not,not_not] at hfam
  rcases hcalls : aistructs (unixCalls hintsp path) ⟨[],mem,[]⟩ with ⟨rc,s⟩
  obtain ⟨hrc,hnil⟩ := unixCalls_outcome hcalls
  have howns : s.Owns mem := aistructs_owns (.start mem) hcalls
  cases rc with
  | some e =>
    refine ⟨blocks s.aihead,.error howns.mem (.refl names),?_⟩
    simp only [reduceCtorEq,false_iff,not_and_or,not_not] at hrc
    rw [blocks_eq_zero,hnil,← Bool.not_eq_true,not_iff_not]
    exact ⟨fun h => ⟨hfam,h,hrc.imp id .inl⟩,fun h => h.2.1⟩
  | none =>
    obtain ⟨hfits,hgrants⟩ := hrc.mp rfl
    have hfirst : mem.grant mem.next = true := by
      by_contra h
      have hpos := List.length_pos_of_ne_nil (unixSocktypes_ne_nil hintsp)
      exact hgrants ⟨0,by omega,by simpa using h⟩
    have hne : s.aihead ≠ [] := by simp [hnil,hfirst]
    obtain ⟨lost,hends,hlost⟩ := unixCanon_ends r hintsp hne howns (.refl names)
    refine ⟨lost,hends,hlost.trans (not_congr ?_)⟩
    simp only [hfam,hfirst,hfits,hgrants,true_and,false_or]

/-- Success with a list that is not empty, or an error. -/
def GaEnd.Returns : GaEnd → Prop
  | .quit => False
  | .fault => False
  | .error _ _ _ => True
  | .list ais _ _ => ais ≠ []

theorem Ends.returns {A : Memory} {N : Names} {lost lost' : Multiset Nat} {g : GaEnd}
    (h : Ends A N lost lost' g) : g.Returns := by
  cases h with
  | error _ _ => trivial
  | list hne _ _ => exact hne

/-- `getaddrinfo` returns, but for the family of Unix domain sockets with a host that is not a
path: `ga_echeck` lets it pass and `ga_nsearch` has nothing to search. -/
theorem getaddrinfo_returns_iff (r : Resolver) (q : Query) (mem : Memory) (names : Names) :
    (getaddrinfo r q mem names).Returns ↔
      ¬ (q.echeck = none ∧ q.isUnix = false ∧ q.hints.ai_family = AF_LOCAL) := by
  constructor
  · rintro h ⟨hcheck,hunix,hfam⟩
    rw [getaddrinfo_quit mem names hcheck hunix hfam] at h
    exact h
  · intro hquits
    cases hcheck : q.echeck with
    | some rc => exact (echeck_ends mem names hcheck).returns
    | none =>
      cases hunix : q.isUnix with
      | true =>
        obtain ⟨lost,hends,-⟩ := gaUnix_ends r (q.servname.getD []) q.hints mem names
        rw [getaddrinfo_unix mem names hcheck hunix]
        exact hends.returns
      | false =>
        exact (inet_ends mem names hcheck hunix fun hfam => hquits ⟨hcheck,hunix,hfam⟩).returns

/-- The host "x" with the family of Unix domain sockets, when nothing else would fail. -/
theorem getaddrinfo_quits :
    let r : Resolver :=
      { inet_pton := fun _ _ => none
        gethostbyname := fun _ _ => .ok ⟨[120],AF_INET,[[127,0,0,1]],.inl rfl⟩
        gethostbyname2 := fun _ _ => some ⟨[120],AF_INET,[[127,0,0,1]],.inl rfl⟩
        getservbyname := fun _ _ => none
        uname := some [120] }
    let q : Query := ⟨some [120],none,some ⟨⟨0,0,0⟩,AF_LOCAL⟩⟩
    ¬ (getaddrinfo r q (.empty fun _ => true) (.empty fun _ => true)).Returns :=
  id

/-! ## What is released -/

/-- An error leaves nothing that was allocated, and `freeaddrinfo` leaves nothing of a list. -/
def GaEnd.Releases (mem : Memory) (names : Names) : GaEnd → Prop
  | .quit => True
  | .fault => False
  | .error _ mem' names' => mem.Freed mem' ∧ names.Freed names'
  | .list ais mem' names' => ∃ mem'' names'', freeaddrinfo ais mem' names' = some (mem'',names'') ∧
      mem.Freed mem'' ∧ names.Freed names''

theorem Ends.releases_iff {A : Memory} {N : Names} {lost lost' : Multiset Nat} {g : GaEnd}
    (h : Ends A N lost lost' g) : g.Releases A N ↔ lost = 0 ∧ lost' = 0 := by
  cases h with
  | error hmem hnames => exact and_congr hmem.freed_iff hnames.freed_iff
  | list _ hmem hnames =>
    obtain ⟨mem,names,hfree,hmem',hnames'⟩ := freeaddrinfo_owns hmem hnames
    rw [← hmem'.freed_iff,← hnames'.freed_iff]
    constructor
    · rintro ⟨mem₁,names₁,hfree₁,hfreed⟩
      cases hfree.symm.trans hfree₁
      exact hfreed
    · exact fun hfreed => ⟨mem,names,hfree,hfreed⟩

/-! ## The canonical name -/

def Answer.hostent : Answer → Option Hostent
  | .host hptr => some hptr
  | _ => none

theorem hostent_eq_some {a : Answer} {hptr : Hostent} :
    a.hostent = some hptr ↔ a = .host hptr := by
  cases a <;> simp [Answer.hostent]

def hosts (r : Resolver) (hints : FamilyHints) (nsearch : Nat) (search : List HostSearch) :
    List Hostent :=
  search.filterMap fun sptr => (answer r hints nsearch sptr).hostent

section
variable {r : Resolver} {hints : FamilyHints} {wanted : Bool} {nsearch : Nat}

/-- Only a host whose name is wanted has `canon` set. -/
theorem Work.turn_canon {sptr : HostSearch} {k : Work}
    (h : wanted = false ∨ (answer r hints nsearch sptr).hostent = none) :
    (k.turn r hints wanted nsearch sptr).2.canon = k.canon := by
  unfold Work.turn
  cases hans : answer r hints nsearch sptr with
  | error e => rfl
  | ignore => rfl
  | address family addr => rfl
  | host hptr =>
    rw [hans] at h
    have hwanted : wanted = false := h.resolve_right (by simp [Answer.hostent])
    simp [Work.saveCanon,hwanted,Work.aistructs]

theorem Work.turns_canon {search : List HostSearch} {k : Work}
    (h : wanted = false ∨ hosts r hints nsearch search = []) :
    (k.turns r hints wanted nsearch search).2.canon = k.canon := by
  induction search generalizing k with
  | nil => rfl
  | cons sptr search ih =>
    have hone : wanted = false ∨ (answer r hints nsearch sptr).hostent = none :=
      h.imp id fun h => List.filterMap_eq_nil_iff.mp h sptr (by simp)
    have hrest : wanted = false ∨ hosts r hints nsearch search = [] :=
      h.imp id fun h => List.filterMap_eq_nil_iff.mpr fun x hx =>
        List.filterMap_eq_nil_iff.mp h x (List.mem_cons_of_mem _ hx)
    have hturn := Work.turn_canon (k := k) hone
    rcases hk : k.turn r hints wanted nsearch sptr with ⟨_ | e,k₁⟩
    · rw [hk] at hturn
      rw [Work.turns,hk]
      exact (ih hrest).trans hturn
    · rw [hk] at hturn
      rw [Work.turns,hk]
      exact hturn

/-- The answers are hosts, or there is none. -/
def Alike (r : Resolver) (hints : FamilyHints) (nsearch : Nat) (search : List HostSearch) : Prop :=
  ∀ sptr ∈ search, answer r hints nsearch sptr = .ignore ∨
    ∃ hptr, answer r hints nsearch sptr = .host hptr

theorem gaAistructs_append (hintsp : Hints) (as as' : List (Nat × List Byte)) (s : Search) :
    gaAistructs hintsp (as ++ as') s = match gaAistructs hintsp as s with
      | (none,s) => gaAistructs hintsp as' s
      | failed => failed := by
  induction as generalizing s with
  | nil => rfl
  | cons a as ih =>
    rw [List.cons_append,gaAistructs,gaAistructs]
    rcases gaAistruct hintsp a.2 a.1 s with ⟨_ | e,s₁⟩
    · exact ih s₁
    · rfl

theorem Work.aistructs_append (as as' : List (Nat × List Byte)) (k : Work) :
    k.aistructs hints (as ++ as') = match k.aistructs hints as with
      | (none,k) => k.aistructs hints as'
      | failed => failed := by
  unfold Work.aistructs
  rw [gaAistructs_append]
  rcases gaAistructs hints.toHints as k.s with ⟨_ | e,s₁⟩ <;> rfl

theorem hosts_ignore {sptr : HostSearch} {search : List HostSearch}
    (h : answer r hints nsearch sptr = .ignore) :
    hosts r hints nsearch (sptr :: search) = hosts r hints nsearch search := by
  simp [hosts,h,Answer.hostent]

theorem hosts_host {sptr : HostSearch} {search : List HostSearch} {hptr : Hostent}
    (h : answer r hints nsearch sptr = .host hptr) :
    hosts r hints nsearch (sptr :: search) = hptr :: hosts r hints nsearch search := by
  simp [hosts,h,Answer.hostent]

theorem Work.saveCanon_saved {k : Work} (hcanon : k.canon.isSome) (h_name : List Byte) :
    k.saveCanon wanted h_name = (none,k) := by
  simp [Work.saveCanon,Option.isNone_eq_false_iff.mpr hcanon]

/-- With `canon` set the loop makes entries of all addresses. -/
theorem Work.turns_saved {search : List HostSearch} {k : Work} (hcanon : k.canon.isSome)
    (h : Alike r hints nsearch search) : k.turns r hints wanted nsearch search =
      k.aistructs hints ((hosts r hints nsearch search).flatMap Hostent.addresses) := by
  induction search generalizing k with
  | nil => rfl
  | cons sptr search ih =>
    obtain ⟨hone,hrest⟩ := List.forall_mem_cons.mp h
    rcases hone with hans | ⟨hptr,hans⟩
    · rw [hosts_ignore hans,← ih hcanon hrest]
      simp only [Work.turns,Work.turn,hans]
    · rw [hosts_host hans,List.flatMap_cons,Work.aistructs_append]
      simp only [Work.turns,Work.turn,hans,Work.saveCanon_saved hcanon]
      rcases hcall : k.aistructs hints hptr.addresses with ⟨_ | e,k₁⟩
      · have hcanon₁ : k₁.canon = k.canon := by
          obtain ⟨-,rfl⟩ := Prod.mk.inj hcall
          rfl
        exact ih (hcanon₁ ▸ hcanon) hrest
      · rfl

/-- The first host gives the name, then all addresses their entries. -/
theorem Work.turns_hosts {search : List HostSearch} {k : Work} (hcanon : k.canon = none)
    (h : Alike r hints nsearch search) (hne : hosts r hints nsearch search ≠ []) :
    ∃ h_name, k.turns r hints true nsearch search =
      match k.names.alloc h_name with
      | (none,names) => (some (.ga .EAI_MEMORY),{ k with names := names })
      | (some canon,names) => { k with names := names, canon := some canon }.aistructs hints
          ((hosts r hints nsearch search).flatMap Hostent.addresses) := by
  induction search with
  | nil => exact absurd rfl hne
  | cons sptr search ih =>
    rcases (List.forall_mem_cons.mp h).1 with hans | ⟨hptr,hans⟩
    · rw [hosts_ignore hans] at hne ⊢
      simp only [Work.turns,Work.turn,hans]
      exact ih (List.forall_mem_cons.mp h).2 hne
    · refine ⟨hptr.h_name,?_⟩
      rcases halloc : k.names.alloc hptr.h_name with ⟨_ | canon,names⟩
      · have hsave : k.saveCanon true hptr.h_name =
            (some (.ga .EAI_MEMORY),{ k with names := names }) := by
          simp [Work.saveCanon,hcanon,halloc]
        simp only [Work.turns,Work.turn,hans,hsave]
      · have hsave : k.saveCanon true hptr.h_name =
            (none,{ k with names := names, canon := some canon }) := by
          simp [Work.saveCanon,hcanon,halloc]
        -- the turn is the one of a loop that has the name already
        have hturn : k.turns r hints true nsearch (sptr :: search) =
            Work.turns r hints true nsearch (sptr :: search)
              { k with names := names, canon := some canon } := by
          simp only [Work.turns,Work.turn,hans,hsave]
          rw [Work.saveCanon_saved rfl]
        rw [hturn]
        exact Work.turns_saved rfl h

end

/-- Searches for the host of the caller all ask for the same string. -/
theorem search_wanted {q : Query} (h : q.wanted = true) :
    (∃ sptr, q.search = [sptr]) ∨ q.search = [] ∨
      q.hints.ai_family = AF_UNSPEC ∧
        ∃ host, q.search = [⟨host,AF_INET6⟩,⟨host,AF_INET⟩] := by
  have habsent : absent q.hostname = false := by
    rw [Query.wanted,Bool.and_eq_true,Bool.not_eq_true'] at h
    exact h.1
  rw [Query.search,gaNsearch,habsent]
  simp only [Bool.false_eq_true,if_false]
  unfold searches
  split_ifs with h₁ h₂ h₃
  · exact .inl ⟨_,rfl⟩
  · exact .inl ⟨_,rfl⟩
  · exact .inr (.inr ⟨h₃,_,rfl⟩)
  · exact .inr (.inl rfl)

theorem answer_host {r : Resolver} {hints : FamilyHints} {nsearch : Nat} {sptr : HostSearch}
    {hptr : Hostent} (h : answer r hints nsearch sptr = .host hptr) :
    literal4 r sptr.host = none ∧ literal6 r sptr.host = none := by
  have hliteral : ∀ family addr, literal hints sptr family addr ≠ .host hptr := by
    intro family addr
    unfold literal
    split_ifs <;> nofun
  unfold answer at h
  cases h₄ : literal4 r sptr.host with
  | some inaddr =>
    rw [h₄] at h
    exact absurd h (hliteral _ _)
  | none =>
    cases h₆ : literal6 r sptr.host with
    | some in6addr =>
      rw [h₄,h₆] at h
      exact absurd h (hliteral _ _)
    | none => exact ⟨rfl,rfl⟩

theorem lookup_two (r : Resolver) {hints : FamilyHints} (hfam : hints.ai_family = AF_UNSPEC)
    (sptr : HostSearch) :
    lookup r hints 2 sptr = .ignore ∨ ∃ hptr, lookup r hints 2 sptr = .host hptr := by
  rw [lookup,if_pos rfl]
  cases r.gethostbyname2 sptr.host sptr.family with
  | none => exact .inl rfl
  | some hptr => exact .inr ⟨hptr,by simp [checkFamily,hfam]⟩

theorem search_alike {r : Resolver} {q : Query} (hwanted : q.wanted = true)
    (hne : hosts r q.hints q.search.length q.search ≠ []) :
    Alike r q.hints q.search.length q.search := by
  obtain ⟨hptr,hmem⟩ := List.exists_mem_of_ne_nil _ hne
  obtain ⟨sptr,hsptr,hhost⟩ := List.mem_filterMap.mp hmem
  have hans := hostent_eq_some.mp hhost
  rcases search_wanted hwanted with ⟨sptr₁,hone⟩ | hnil | ⟨hfam,host,htwo⟩
  · intro sptr' hsptr'
    rw [hone,List.mem_singleton] at hsptr hsptr'
    rw [hsptr',← hsptr]
    exact .inr ⟨hptr,hans⟩
  · simp [hnil] at hsptr
  · obtain ⟨h₄,h₆⟩ := answer_host hans
    have hlen : q.search.length = 2 := by simp [htwo]
    have hstring : ∀ sptr' ∈ q.search, sptr'.host = host := by simp [htwo]
    intro sptr' hsptr'
    rw [hlen,answer,hstring sptr' hsptr',← hstring sptr hsptr,h₄,h₆]
    exact lookup_two r hfam sptr'

/-- The name of a host is saved and then no entry gets it: there is no address, or an allocation
fails. -/
def CanonLeaks (r : Resolver) (q : Query) (mem : Memory) (names : Names) : Prop :=
  let found := hosts r q.hints q.search.length q.search
  let addresses := found.flatMap Hostent.addresses
  q.wanted = true ∧ found ≠ [] ∧ names.grant names.next = true ∧
    (addresses = [] ∨ ∃ i < 2 * addresses.length, mem.grant (mem.next + i) = false)

/-- A saved name is lost when the list stays empty or a call of `ga_aistruct` fails. -/
theorem saved_lost {hints : FamilyHints} {as : List (Nat × List Byte)} {mem : Memory}
    {names : Names} {canon : Nat} {rc : Option Code} {k : Work}
    (hfam : ∀ a ∈ as, a.1 = AF_INET ∨ a.1 = AF_INET6)
    (hs : Work.aistructs hints as ⟨⟨[],mem,[]⟩,names,some canon⟩ = (rc,k)) :
    k.lost rc = 0 ↔ ¬ (as = [] ∨ ∃ i < 2 * as.length, mem.grant (mem.next + i) = false) := by
  unfold Work.aistructs at hs
  rcases hcalls : gaAistructs hints.toHints as ⟨[],mem,[]⟩ with ⟨rc₁,s⟩
  simp only [hcalls] at hs
  cases hs
  rw [gaAistructs_eq] at hcalls
  have hfam' : ∀ a ∈ as, Known a.1 ∧ Fits a.1 a.2 := by
    intro a ha
    rcases hfam a ha with h | h
    · exact ⟨.inl h,by rw [h]; nofun⟩
    · exact ⟨.inr (.inl h),by rw [h]; nofun⟩
  obtain ⟨hrc,hnil⟩ := aistructs_outcome (List.forall_mem_map.mpr fun a ha => (hfam' a ha).1) hcalls
  have hgrants : rc₁ = none ↔ ∀ i < 2 * as.length, mem.grant (mem.next + i) = true := by
    rw [hrc,List.length_map]
    exact and_iff_right (List.forall_mem_map.mpr fun a ha => (hfam' a ha).2)
  have hlost : Work.lost (rc₁.map .ga) ⟨s,names,some canon⟩ = 0 ↔ rc₁ = none ∧ s.aihead ≠ [] := by
    unfold Work.lost
    split_ifs with h
    · refine iff_of_false (by simp) fun hok => ?_
      rcases h with h | h
      · exact h (by rw [hok.1]; rfl)
      · exact hok.2 h
    · rw [not_or,not_not,Option.map_eq_none_iff] at h
      exact iff_of_true rfl h
  rw [hlost,hgrants,ne_eq,hnil]
  simp only [true_and,List.map_eq_nil_iff,not_or,not_exists,not_and,Bool.not_eq_false]
  constructor
  · exact fun ⟨hall,hne,_⟩ => ⟨hne,hall⟩
  · intro ⟨hne,hall⟩
    have hpos := List.length_pos_of_ne_nil hne
    exact ⟨hall,hne,by simpa using hall 0 (by omega)⟩

theorem lost_eq_zero (r : Resolver) (q : Query) (mem : Memory) (names : Names) :
    (q.turns r mem names).2.lost (q.turns r mem names).1 = 0 ↔ ¬ CanonLeaks r q mem names := by
  have hnone : (q.turns r mem names).2.canon = none →
      (q.turns r mem names).2.lost (q.turns r mem names).1 = 0 := by
    intro h
    simp [Work.lost,h]
  by_cases hcase : q.wanted = false ∨ hosts r q.hints q.search.length q.search = []
  · refine iff_of_true (hnone (Work.turns_canon hcase)) fun hleaks => ?_
    rcases hcase with h | h
    · exact absurd hleaks.1 (by simp [h])
    · exact hleaks.2.1 h
  · rw [not_or,Bool.not_eq_false] at hcase
    obtain ⟨hwanted,hne⟩ := hcase
    obtain ⟨h_name,hturns⟩ := Work.turns_hosts (k := ⟨⟨[],mem,[]⟩,names,none⟩) rfl
      (search_alike hwanted hne) hne
    rw [← hwanted] at hturns
    rcases halloc : names.alloc h_name with ⟨_ | canon,names'⟩
    · rw [halloc] at hturns
      obtain ⟨-,-,hgrant⟩ := Arena.alloc_next halloc
      have hcanon : (q.turns r mem names).2.canon = none := by rw [Query.turns,hturns]
      refine iff_of_true (hnone hcanon) fun hleaks => ?_
      simp [hleaks.2.2.1] at hgrant
    · rw [halloc] at hturns
      obtain ⟨-,-,hgrant⟩ := Arena.alloc_next halloc
      have hfam : ∀ a ∈ (hosts r q.hints q.search.length q.search).flatMap Hostent.addresses,
          a.1 = AF_INET ∨ a.1 = AF_INET6 := by
        intro a ha
        obtain ⟨hptr,-,ha⟩ := List.mem_flatMap.mp ha
        exact hptr.addresses_inet a ha
      rcases hend : q.turns r mem names with ⟨rc,k⟩
      rw [saved_lost hfam (hturns.symm.trans hend)]
      refine not_congr ⟨fun h => ⟨hwanted,hne,by simpa using hgrant,h⟩,fun h => h.2.2.2⟩

/-- Everything is released, but for what `ga_unix` has linked in when it fails, and for a canonical
name saved in `canon` when there are no entries for the addresses. -/
theorem getaddrinfo_releases_iff (r : Resolver) (q : Query) (mem : Memory) (names : Names) :
    (getaddrinfo r q mem names).Releases mem names ↔
      ¬ (q.echeck = none ∧
        (q.isUnix = true ∧ UnixLeaks r (q.servname.getD []) q.hints mem names ∨
          q.isUnix = false ∧ CanonLeaks r q mem names)) := by
  cases hcheck : q.echeck with
  | some rc =>
    rw [(echeck_ends mem names hcheck).releases_iff]
    simp
  | none =>
    cases hunix : q.isUnix with
    | true =>
      obtain ⟨lost,hends,hlost⟩ := gaUnix_ends r (q.servname.getD []) q.hints mem names
      rw [getaddrinfo_unix mem names hcheck hunix,hends.releases_iff,hlost]
      simp
    | false =>
      by_cases hfam : q.hints.ai_family = AF_LOCAL
      · have hleaks : ¬ CanonLeaks r q mem names := by
          intro h
          rw [CanonLeaks,(search_nil_iff hcheck).mpr hfam] at h
          exact h.2.1 rfl
        rw [getaddrinfo_quit mem names hcheck hunix hfam]
        simpa [GaEnd.Releases] using hleaks
      · rw [(inet_ends mem names hcheck hunix hfam).releases_iff,lost_eq_zero]
        simp

/-- A path of 104 characters for "/local", when no allocation fails. -/
theorem getaddrinfo_leaks :
    let r : Resolver :=
      { inet_pton := fun _ _ => none
        gethostbyname := fun _ _ => .error .HOST_NOT_FOUND
        gethostbyname2 := fun _ _ => none
        getservbyname := fun _ _ => none
        uname := some [120] }
    let q : Query := ⟨some [47,108,111,99,97,108],some (List.replicate 104 47),none⟩
    let mem : Memory := .empty fun _ => true
    let names : Names := .empty fun _ => true
    ¬ (getaddrinfo r q mem names).Releases mem names := by
  intro r q mem names h
  let s := (aistructs (unixCalls q.hints (q.servname.getD [])) ⟨[],mem,[]⟩).2
  have hcall : gaUnix r (q.servname.getD []) q.hints mem names =
      .error (.ga .EAI_SERVICE) s.mem names := rfl
  have hlive : s.mem.obj 0 = some .addrinfo := rfl
  have hcheck : q.echeck = none := by
    subst q
    rfl
  have hunix : q.isUnix = true := by
    subst q
    rfl
  rw [getaddrinfo_unix mem names hcheck hunix,hcall] at h
  cases hlive.symm.trans (h.1 0)

end UnixNet.Gai
