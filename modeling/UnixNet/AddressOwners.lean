import Mathlib.Data.Multiset.OrderedMonoid
import UnixNet.AddressInfo
set_option autoImplicit false

/-! Which objects the entries of an address list own, from the call that allocates them to
`freeaddrinfo`. -/

namespace UnixNet.Gai

def AddrInfo.blocks (ai : AddrInfo) : Multiset Nat := ai.self ::ₘ (ai.ai_addr.toList : Multiset Nat)

def blocks : List AddrInfo → Multiset Nat
  | [] => 0
  | ai :: ais => ai.blocks + blocks ais

def canons : List AddrInfo → Multiset Nat
  | [] => 0
  | ai :: ais => (ai.ai_canonname.toList : Multiset Nat) + canons ais

@[simp] theorem blocks_append (ais ais' : List AddrInfo) :
    blocks (ais ++ ais') = blocks ais + blocks ais' := by
  induction ais with
  | nil => simp [blocks]
  | cons ai ais ih => simp [blocks,ih,add_assoc]

@[simp] theorem canons_append (ais ais' : List AddrInfo) :
    canons (ais ++ ais') = canons ais + canons ais' := by
  induction ais with
  | nil => simp [canons]
  | cons ai ais ih => simp [canons,ih,add_assoc]

@[simp] theorem blocks_singleton (ai : AddrInfo) : blocks [ai] = ai.blocks := by
  simp [blocks]

@[simp] theorem canons_singleton (ai : AddrInfo) : canons [ai] = ai.ai_canonname.toList := by
  simp [canons]

theorem blocks_eq_zero {ais : List AddrInfo} : blocks ais = 0 ↔ ais = [] := by
  cases ais with
  | nil => exact ⟨fun _ => rfl,fun _ => rfl⟩
  | cons ai ais =>
    rw [blocks,AddrInfo.blocks,Multiset.cons_add]
    exact ⟨fun h => absurd h (Multiset.cons_ne_zero),nofun⟩

theorem blocks_setCanon (canon : Nat) (ais : List AddrInfo) :
    blocks (setCanon canon ais) = blocks ais := by
  cases ais <;> rfl

@[simp] theorem setCanon_eq_nil {canon : Nat} {ais : List AddrInfo} :
    setCanon canon ais = [] ↔ ais = [] := by
  cases ais <;> simp [setCanon]

theorem canons_setCanon (canon : Nat) {ais : List AddrInfo} (hne : ais ≠ [])
    (h : canons ais = 0) : canons (setCanon canon ais) = {canon} := by
  cases ais with
  | nil => exact absurd rfl hne
  | cons ai ais =>
    rw [canons,add_eq_zero] at h
    rw [setCanon,canons,h.2]
    rfl

/-! ## Freeing -/

theorem freeaddrinfo_owns {A : Memory} {N : Names} {ais : List AddrInfo} {keep keep' : Multiset Nat}
    {mem : Memory} {names : Names} (h : A.Owns (blocks ais + keep) mem)
    (hn : N.Owns (canons ais + keep') names) :
    ∃ mem' names', freeaddrinfo ais mem names = some (mem',names') ∧ A.Owns keep mem' ∧
      N.Owns keep' names' := by
  induction ais generalizing mem names with
  | nil => exact ⟨mem,names,rfl,by simpa [blocks] using h,by simpa [canons] using hn⟩
  | cons ai ais ih =>
    rw [blocks,AddrInfo.blocks,Multiset.cons_add,Multiset.cons_add,add_assoc,
      ← Multiset.add_cons] at h
    rw [canons,add_assoc] at hn
    obtain ⟨mem₁,haddr,h₁⟩ := h.freePtr
    obtain ⟨names₁,hname,hn₁⟩ := hn.freePtr
    obtain ⟨mem₂,hself,h₂⟩ := h₁.free
    obtain ⟨mem',names',hrest,hmem,hnames⟩ := ih h₂ hn₁
    exact ⟨mem',names',by simp [freeaddrinfo,haddr,hname,hself,hrest],hmem,hnames⟩

/-! ## Building the list -/

/-- The list under construction owns what was allocated since `A`; there are no names in it. -/
structure Search.Owns (A : Memory) (s : Search) : Prop where
  mem : A.Owns (blocks s.aihead) s.mem
  canons : canons s.aihead = 0

theorem Search.Owns.start (mem : Memory) : Search.Owns mem ⟨[],mem,[]⟩ := ⟨.refl mem,rfl⟩

theorem Search.Owns.link {A : Memory} {s s' : Search} {ai : AddrInfo}
    (hais : s'.aihead = s.aihead ++ [ai]) (h : A.Owns (ai.blocks + blocks s.aihead) s'.mem)
    (hc : Gai.canons s.aihead = 0) (hcanon : ai.ai_canonname = none) : s'.Owns A := by
  refine ⟨?_,by simp [hais,hc,hcanon]⟩
  rwa [hais,blocks_append,blocks_singleton,add_comm]

theorem AddrInfo.blocks_bare {ai : AddrInfo} (hai : ai.ai_addr = none) : ai.blocks = {ai.self} := by
  simp [AddrInfo.blocks,hai]

theorem AddrInfo.blocks_give {ai : AddrInfo} (hai : ai.ai_addr = none) (p addrlen : Nat) :
    { ai with ai_addr := some p, ai_addrlen := addrlen }.blocks = p ::ₘ ai.blocks := by
  rw [blocks_bare hai]
  exact Multiset.cons_swap ai.self p 0

theorem giveAddr_owns {A : Memory} {ai : AddrInfo} {sa : SockAddr} {addrlen : Nat} {s s' : Search}
    {rc : Option Eai} (h : A.Owns (ai.blocks + blocks s.aihead) s.mem) (hc : canons s.aihead = 0)
    (hai : ai.ai_addr = none) (hcanon : ai.ai_canonname = none)
    (hs : giveAddr ai sa addrlen s = (rc,s')) : s'.Owns A := by
  unfold giveAddr at hs
  rcases halloc : s.mem.alloc (.sockaddr sa) with ⟨_ | p,mem⟩
  · simp only [halloc,Prod.mk.injEq] at hs
    obtain ⟨-,rfl⟩ := hs
    exact .link rfl (h.alloc_none halloc) hc hcanon
  · simp only [halloc,Prod.mk.injEq] at hs
    obtain ⟨-,rfl⟩ := hs
    refine .link rfl ?_ hc hcanon
    rw [AddrInfo.blocks_give hai,Multiset.cons_add]
    exact h.alloc_some halloc

/-- A path must fit into a `sockaddr_un{}`. -/
def Fits (family : Nat) (addr : List Byte) : Prop :=
  family = AF_LOCAL → (cString addr).length < SUN_PATH

def Known (family : Nat) : Prop := family = AF_INET ∨ family = AF_INET6 ∨ family = AF_LOCAL

/-- What a call of `ga_aistruct` can do: nothing, link in an entry without socket address, or link
in an entry and try to give it one. -/
inductive Linked (family : Nat) (addr : List Byte) (s : Search) (rc : Option Eai) (s' : Search) :
    Prop where
  | refused : s.mem.alloc .addrinfo = (none,s'.mem) → s'.aihead = s.aihead → rc ≠ none →
      Linked family addr s rc s'
  | bare {ai : AddrInfo} : s.mem.alloc .addrinfo = (some ai.self,s'.mem) →
      ai.ai_addr = none → ai.ai_canonname = none → s'.aihead = s.aihead ++ [ai] →
      (Known family → ¬ Fits family addr ∧ rc ≠ none) → Linked family addr s rc s'
  | given {ai : AddrInfo} {sa : SockAddr} {addrlen : Nat} {mem : Memory} {s₁ : Search} :
      s.mem.alloc .addrinfo = (some ai.self,mem) → ai.ai_addr = none → ai.ai_canonname = none →
      giveAddr ai sa addrlen { s with mem := mem } = (rc,s₁) → s'.aihead = s₁.aihead →
      s'.mem = s₁.mem → Fits family addr → Linked family addr s rc s'

theorem gaAistruct_linked {hintsp : Hints} {addr : List Byte} {family : Nat} {s s' : Search}
    {rc : Option Eai} (hs : gaAistruct hintsp addr family s = (rc,s')) :
    Linked family addr s rc s' := by
  unfold gaAistruct at hs
  rcases halloc : s.mem.alloc .addrinfo with ⟨_ | self,mem⟩
  · simp only [halloc] at hs
    cases hs
    exact .refused halloc rfl nofun
  simp only [halloc] at hs
  generalize hai : AddrInfo.mk self _ _ _ _ _ none none = ai at hs
  have hself : s.mem.alloc .addrinfo = (some ai.self,mem) := by rw [halloc,← hai]
  have haddr : ai.ai_addr = none := by rw [← hai]
  have hcanon : ai.ai_canonname = none := by rw [← hai]
  by_cases h₁ : family = AF_INET
  · rw [if_pos h₁] at hs
    exact .given hself haddr hcanon hs rfl rfl (by rw [h₁]; nofun)
  rw [if_neg h₁] at hs
  by_cases h₂ : family = AF_INET6
  · rw [if_pos h₂] at hs
    exact .given hself haddr hcanon hs rfl rfl (by rw [h₂]; nofun)
  rw [if_neg h₂] at hs
  by_cases h₃ : family = AF_LOCAL
  · rw [if_pos h₃] at hs
    by_cases hlen : SUN_PATH ≤ (cString addr).length
    · rw [if_pos hlen] at hs
      cases hs
      exact .bare hself haddr hcanon rfl fun _ => ⟨fun hfits => absurd (hfits h₃) (by omega),nofun⟩
    · rw [if_neg hlen] at hs
      rcases hgive : giveAddr ai (sockaddrUn (cString addr)) (SUN_PATH + 2)
        { s with mem := mem } with ⟨_ | e,s₁⟩
      · simp only [hgive] at hs
        split at hs
        · cases hs
          exact .given hself haddr hcanon hgive rfl rfl fun _ => by omega
        · cases hs
          exact .given hself haddr hcanon hgive rfl rfl fun _ => by omega
      · simp only [hgive] at hs
        cases hs
        exact .given hself haddr hcanon hgive rfl rfl fun _ => by omega
  · rw [if_neg h₃] at hs
    cases hs
    refine .bare hself haddr hcanon rfl fun hknown => ?_
    rcases hknown with h | h | h
    · exact absurd h h₁
    · exact absurd h h₂
    · exact absurd h h₃

theorem gaAistruct_owns {A : Memory} {hintsp : Hints} {addr : List Byte} {family : Nat}
    {s s' : Search} {rc : Option Eai} (h : s.Owns A)
    (hs : gaAistruct hintsp addr family s = (rc,s')) : s'.Owns A := by
  cases gaAistruct_linked hs with
  | refused halloc hais hrc =>
    refine ⟨?_,by rw [hais,h.canons]⟩
    rw [hais]
    exact h.mem.alloc_none halloc
  | bare halloc haddr hcanon hais _ =>
    have hmem := h.mem.alloc_some halloc
    rw [← Multiset.singleton_add,← AddrInfo.blocks_bare haddr] at hmem
    exact .link hais hmem h.canons hcanon
  | @given ai sa addrlen mem s₁ halloc haddr hcanon hgive hais hmem' _ =>
    have hmem := h.mem.alloc_some halloc
    rw [← Multiset.singleton_add,← AddrInfo.blocks_bare haddr] at hmem
    have hgiven := giveAddr_owns (s := { s with mem := mem }) hmem h.canons haddr hcanon hgive
    exact ⟨by rw [hais,hmem']; exact hgiven.mem,by rw [hais]; exact hgiven.canons⟩

theorem gaAistructs_eq (hintsp : Hints) (as : List (Nat × List Byte)) (s : Search) :
    gaAistructs hintsp as s = aistructs (as.map fun a => (hintsp,a)) s := by
  induction as generalizing s with
  | nil => rfl
  | cons a as ih =>
    rw [gaAistructs,List.map_cons,aistructs]
    rcases gaAistruct hintsp a.2 a.1 s with ⟨_ | e,s₁⟩
    · exact ih s₁
    · rfl

theorem aistructs_owns {A : Memory} {calls : List (Hints × Nat × List Byte)} {s s' : Search}
    {rc : Option Eai} (h : s.Owns A) (hs : aistructs calls s = (rc,s')) : s'.Owns A := by
  induction calls generalizing s with
  | nil =>
    cases hs
    exact h
  | cons call calls ih =>
    obtain ⟨hintsp,family,addr⟩ := call
    rcases hone : gaAistruct hintsp addr family s with ⟨_ | e,s₁⟩
    · rw [aistructs,hone] at hs
      exact ih (gaAistruct_owns h hone) hs
    · rw [aistructs,hone] at hs
      cases hs
      exact gaAistruct_owns h hone

/-! ## Cloning -/

/-- What `ga_clone` has linked in. -/
def linked : Except (List AddrInfo) AddrInfo → List AddrInfo
  | .error ais => ais
  | .ok new => [new]

theorem gaClone_owns {A : Memory} {own : Multiset Nat} {ai : AddrInfo} {mem mem' : Memory}
    {r : Except (List AddrInfo) AddrInfo} (h : A.Owns own mem)
    (hs : gaClone ai mem = some (r,mem')) :
    A.Owns (blocks (linked r) + own) mem' ∧ canons (linked r) = 0 := by
  unfold gaClone at hs
  rcases h₁ : mem.alloc .addrinfo with ⟨_ | self,mem₁⟩
  · simp only [h₁] at hs
    cases hs
    exact ⟨by simpa [linked,blocks] using h.alloc_none h₁,rfl⟩
  have hown₁ := h.alloc_some h₁
  simp only [h₁] at hs
  rcases h₂ : mem₁.alloc (.sockaddr ⟨0,0,0,[]⟩) with ⟨_ | p,mem₂⟩
  · simp only [h₂] at hs
    cases hs
    refine ⟨?_,rfl⟩
    rw [linked,blocks_singleton,AddrInfo.blocks_bare rfl,Multiset.singleton_add]
    exact hown₁.alloc_none h₂
  have hown₂ := hown₁.alloc_some h₂
  simp only [h₂,Option.map_eq_some_iff] at hs
  obtain ⟨mem₃,hcopy,heq⟩ := hs
  cases heq
  refine ⟨?_,rfl⟩
  rw [linked,blocks_singleton,AddrInfo.blocks,Option.toList_some,Multiset.coe_singleton,
    Multiset.cons_add,Multiset.singleton_add,Multiset.cons_swap]
  unfold copyAddr at hcopy
  split at hcopy
  · cases hcopy
    exact hown₂.update (Multiset.mem_cons_self p _)
  · split_ifs at hcopy
    cases hcopy
    exact hown₂

theorem setEntry_owns {A : Memory} {own : Multiset Nat} {port socktype : Int} {ai ai' : AddrInfo}
    {mem mem' : Memory} {n : Nat} (h : A.Owns (ai.blocks + own) mem)
    (hs : setEntry port socktype ai mem = some (n,ai',mem')) :
    A.Owns (ai'.blocks + own) mem' ∧ ai'.ai_canonname = ai.ai_canonname := by
  unfold setEntry at hs
  dsimp only at hs
  split_ifs at hs with hfam
  · cases hp : ai.ai_addr with
    | none => simp [hp] at hs
    | some p =>
      simp only [hp] at hs
      split_ifs at hs
      cases hs
      have hmem : p ∈ ai.blocks + own := by simp [AddrInfo.blocks,hp]
      have hstore := h.update (f := Obj.setPort port) hmem
      rw [AddrInfo.blocks,hp] at hstore
      exact ⟨hstore,rfl⟩
  · cases hs
    exact ⟨h,rfl⟩

/-- The end of a turn, with the entries that stand before the one that is set. -/
theorem setLast_owns {A : Memory} {own : Multiset Nat} {port socktype : Int} {ai : AddrInfo}
    {b ais : List AddrInfo} {mem mem' : Memory} {rc : Option Nat}
    (h : A.Owns (blocks (b ++ [ai]) + own) mem)
    (hs : (do
      let (n,ai,mem) ← setEntry port socktype ai mem
      return (some n,b ++ [ai],mem)) = some (rc,ais,mem')) :
    A.Owns (blocks ais + own) mem' ∧ canons ais = canons (b ++ [ai]) ∧ ais ≠ [] := by
  rw [blocks_append,blocks_singleton,add_comm (blocks b),add_assoc] at h
  obtain ⟨⟨n,ai',mem₁⟩,hset,heq⟩ := Option.bind_eq_some_iff.mp hs
  cases heq
  obtain ⟨hown,hcanon⟩ := setEntry_owns h hset
  refine ⟨?_,by simp [hcanon],by simp⟩
  rwa [blocks_append,blocks_singleton,add_comm (blocks b),add_assoc]

/-- The entries in the place of one own what it has owned and what was allocated for them. -/
theorem portEntry_owns {A : Memory} {own : Multiset Nat} {port socktype : Int} {ai : AddrInfo}
    {ais : List AddrInfo} {mem mem' : Memory} {rc : Option Nat}
    (h : A.Owns (ai.blocks + own) mem)
    (hs : portEntry port socktype ai mem = some (rc,ais,mem')) :
    A.Owns (blocks ais + own) mem' ∧ canons ais = canons [ai] ∧ ais ≠ [] := by
  have hone : A.Owns (blocks ([] ++ [ai]) + own) mem := by simpa using h
  unfold portEntry at hs
  split_ifs at hs with hclone htype htype
  · obtain ⟨⟨r,mem₁⟩,hc,hs⟩ := Option.bind_eq_some_iff.mp hs
    obtain ⟨hown,hcanon⟩ := gaClone_owns h hc
    rw [← add_assoc,add_comm (blocks _)] at hown
    cases r with
    | error ais₁ =>
      cases hs
      refine ⟨hown,?_,by simp⟩
      rw [linked] at hcanon
      rw [← List.singleton_append,canons_append,hcanon,add_zero]
    | ok new =>
      rw [linked,← blocks_singleton,← blocks_append] at hown
      obtain ⟨hown',hcanon',hne⟩ := setLast_owns (b := [ai]) hown hs
      refine ⟨hown',?_,hne⟩
      rw [hcanon',canons_append]
      exact (congrArg _ hcanon).trans (add_zero _)
  · exact setLast_owns (b := []) hone hs
  · cases hs
    exact ⟨hone,rfl,by simp⟩
  · exact setLast_owns (b := []) hone hs

theorem gaPort_owns {A : Memory} {own : Multiset Nat} {port socktype : Int}
    {ais ais' : List AddrInfo} {mem mem' : Memory} {rc : Option Nat}
    (h : A.Owns (blocks ais + own) mem) (hs : gaPort port socktype ais mem = some (rc,ais',mem')) :
    A.Owns (blocks ais' + own) mem' ∧ canons ais' = canons ais ∧ (ais ≠ [] → ais' ≠ []) := by
  induction ais generalizing own mem ais' rc with
  | nil =>
    cases hs
    exact ⟨h,rfl,id⟩
  | cons ai ais ih =>
    rw [blocks,add_assoc] at h
    obtain ⟨⟨rc₁,here,mem₁⟩,hone,hs⟩ := Option.bind_eq_some_iff.mp hs
    obtain ⟨hown,hcanon,hne⟩ := portEntry_owns h hone
    cases rc₁ with
    | none =>
      cases hs
      refine ⟨?_,?_,fun _ => List.append_ne_nil_of_left_ne_nil hne _⟩
      · rwa [blocks_append,add_assoc]
      · rw [canons_append,hcanon,← canons_append,List.singleton_append]
    | some n =>
      obtain ⟨⟨rc₂,rest,mem₂⟩,hrest,heq⟩ := Option.bind_eq_some_iff.mp hs
      cases heq
      rw [← add_assoc,add_comm (blocks here),add_assoc] at hown
      obtain ⟨hown',hcanon',-⟩ := ih hown hrest
      refine ⟨?_,?_,fun _ => List.append_ne_nil_of_left_ne_nil hne _⟩
      · rwa [blocks_append,add_comm (blocks here),add_assoc]
      · rw [canons_append,hcanon,hcanon',← canons_append,List.singleton_append]

theorem gaPorts_owns {A : Memory} {own : Multiset Nat} {ps : List (Int × Int)}
    {ais ais' : List AddrInfo} {mem mem' : Memory} {rc : Option Nat}
    (h : A.Owns (blocks ais + own) mem) (hs : gaPorts ps ais mem = some (rc,ais',mem')) :
    A.Owns (blocks ais' + own) mem' ∧ canons ais' = canons ais ∧ (ais ≠ [] → ais' ≠ []) := by
  induction ps generalizing ais mem rc with
  | nil =>
    cases hs
    exact ⟨h,rfl,id⟩
  | cons p ps ih =>
    obtain ⟨port,socktype⟩ := p
    obtain ⟨⟨rc₁,ais₁,mem₁⟩,hone,hs⟩ := Option.bind_eq_some_iff.mp hs
    obtain ⟨hown,hcanon,hne⟩ := gaPort_owns h hone
    cases rc₁ with
    | none =>
      cases hs
      exact ⟨hown,hcanon,hne⟩
    | some n =>
      obtain ⟨⟨rc₂,ais₂,mem₂⟩,hrest,heq⟩ := Option.bind_eq_some_iff.mp hs
      cases heq
      obtain ⟨hown',hcanon',hne'⟩ := ih hown hrest
      exact ⟨hown',hcanon'.trans hcanon,fun h => hne' (hne h)⟩

theorem gaServ_owns {A : Memory} {own : Multiset Nat}
    {getservbyname : List Byte → Proto → Option Int} {hintsp : Hints} {serv : List Byte}
    {ais ais' : List AddrInfo} {mem mem' : Memory} {rc : Option Eai}
    (h : A.Owns (blocks ais + own) mem)
    (hs : gaServ getservbyname hintsp serv ais mem = some (rc,ais',mem')) :
    A.Owns (blocks ais' + own) mem' ∧ canons ais' = canons ais ∧ (ais ≠ [] → ais' ≠ []) := by
  obtain ⟨⟨rc₁,ais₁,mem₁⟩,hports,hs⟩ := Option.bind_eq_some_iff.mp hs
  have hown := gaPorts_owns h hports
  cases rc₁ with
  | none =>
    cases hs
    exact hown
  | some nfound =>
    dsimp only at hs
    split_ifs at hs
    · cases hs
      exact hown
    · cases hs
      exact hown
    · cases hs
      exact hown

/-! ## Which allocations a list needs -/

theorem giveAddr_outcome {ai : AddrInfo} {sa : SockAddr} {addrlen : Nat} {s s' : Search}
    {rc : Option Eai} (hs : giveAddr ai sa addrlen s = (rc,s')) :
    s'.mem.next = s.mem.next + 1 ∧ s'.mem.grant = s.mem.grant ∧
    (rc = none ↔ s.mem.grant s.mem.next = true) ∧ s'.aihead ≠ [] := by
  unfold giveAddr at hs
  rcases halloc : s.mem.alloc (.sockaddr sa) with ⟨p,mem⟩
  obtain ⟨hnext,hgrant,hiff⟩ := Arena.alloc_next halloc
  cases p with
  | none =>
    simp only [halloc] at hs
    cases hs
    exact ⟨hnext,hgrant,by simpa using hiff,by simp⟩
  | some p =>
    simp only [halloc] at hs
    cases hs
    exact ⟨hnext,hgrant,by simpa using hiff,by simp⟩

theorem gaAistruct_outcome {hintsp : Hints} {addr : List Byte} {family : Nat} {s s' : Search}
    {rc : Option Eai} (hfam : Known family) (hs : gaAistruct hintsp addr family s = (rc,s')) :
    s'.mem.grant = s.mem.grant ∧
    (rc = none ↔ Fits family addr ∧ s.mem.grant s.mem.next = true ∧
      s.mem.grant (s.mem.next + 1) = true) ∧
    (rc = none → s'.mem.next = s.mem.next + 2) ∧
    (s'.aihead = [] ↔ s.aihead = [] ∧ s.mem.grant s.mem.next = false) := by
  cases gaAistruct_linked hs with
  | refused halloc hais hrc =>
    obtain ⟨-,hgrant,hiff⟩ := Arena.alloc_next halloc
    simp only [Option.isSome_none,Bool.false_eq_true,false_iff] at hiff
    refine ⟨hgrant,?_,fun h => absurd h hrc,?_⟩
    · simp [hrc,hiff]
    · simp [hais,Bool.not_eq_true _ ▸ hiff]
  | bare halloc haddr hcanon hais hbare =>
    obtain ⟨-,hgrant,hiff⟩ := Arena.alloc_next halloc
    simp only [Option.isSome_some,true_iff] at hiff
    obtain ⟨hfits,hrc⟩ := hbare hfam
    refine ⟨hgrant,?_,fun h => absurd h hrc,?_⟩
    · simp [hrc,hfits]
    · simp [hais,hiff]
  | @given ai sa addrlen mem s₁ halloc haddr hcanon hgive hais hmem hfits =>
    obtain ⟨hnext,hgrant,hiff⟩ := Arena.alloc_next halloc
    simp only [Option.isSome_some,true_iff] at hiff
    obtain ⟨hnext₁,hgrant₁,hiff₁,hne⟩ := giveAddr_outcome hgive
    dsimp only at hnext₁ hgrant₁ hiff₁
    rw [hgrant,hnext] at hiff₁
    refine ⟨by rw [hmem,hgrant₁,hgrant],?_,fun _ => by rw [hmem,hnext₁,hnext],?_⟩
    · rw [hiff₁]
      simp [hfits,hiff]
    · simp [hais,hne,hiff]

theorem grants_succ (grant : Nat → Bool) (next n : Nat) :
    (∀ i < 2 * (n + 1), grant (next + i) = true) ↔
      (grant next = true ∧ grant (next + 1) = true) ∧
        ∀ i < 2 * n, grant (next + 2 + i) = true := by
  constructor
  · refine fun h => ⟨⟨h 0 (by omega),h 1 (by omega)⟩,fun i hi => ?_⟩
    rw [Nat.add_assoc]
    exact h (2 + i) (by omega)
  · rintro ⟨⟨h₀,h₁⟩,h⟩ (_ | _ | i) hi
    · exact h₀
    · exact h₁
    · rw [show i + 1 + 1 = 2 + i by omega,← Nat.add_assoc]
      exact h i (by omega)

/-- The calls succeed when every path fits and no allocation fails, and the list stays empty only
when the first allocation fails. -/
theorem aistructs_outcome {calls : List (Hints × Nat × List Byte)} {s s' : Search}
    {rc : Option Eai} (hfam : ∀ call ∈ calls, Known call.2.1)
    (hs : aistructs calls s = (rc,s')) :
    (rc = none ↔ (∀ call ∈ calls, Fits call.2.1 call.2.2) ∧
      ∀ i < 2 * calls.length, s.mem.grant (s.mem.next + i) = true) ∧
    (s'.aihead = [] ↔ s.aihead = [] ∧ (calls = [] ∨ s.mem.grant s.mem.next = false)) := by
  induction calls generalizing s with
  | nil =>
    cases hs
    simp
  | cons call calls ih =>
    obtain ⟨hintsp,family,addr⟩ := call
    obtain ⟨hone,hrest⟩ := List.forall_mem_cons.mp hfam
    rcases hcall : gaAistruct hintsp addr family s with ⟨rc₁,s₁⟩
    obtain ⟨hgrant,hrc,hnext,hnil⟩ := gaAistruct_outcome hone hcall
    have hfirst := grants_succ s.mem.grant s.mem.next calls.length
    cases rc₁ with
    | some e =>
      rw [aistructs,hcall] at hs
      cases hs
      simp only [reduceCtorEq,false_iff] at hrc
      refine ⟨?_,?_⟩
      · simp only [reduceCtorEq,false_iff,List.forall_mem_cons,List.length_cons,hfirst]
        exact fun h => hrc ⟨h.1.1,h.2.1⟩
      · simpa using hnil
    | none =>
      rw [aistructs,hcall] at hs
      obtain ⟨hfits,hg₀,hg₁⟩ := hrc.mp rfl
      obtain ⟨hiff,hnil'⟩ := ih hrest hs
      rw [hgrant,hnext rfl] at hiff
      refine ⟨?_,?_⟩
      · rw [hiff,List.forall_mem_cons,List.length_cons,hfirst]
        simp [hfits,hg₀,hg₁]
      · rw [hnil',hnil]
        simp [hg₀]

end UnixNet.Gai
