import UnixNet.Library.Fallible
import UnixNet.Library.Memory
import UnixNet.Library.Inspection
import UnixNet.PacketFields
set_option autoImplicit false

/-! IPv4 source routes: the option that sock builds, and the option that ipopts prints. -/

namespace UnixNet
open Fallible Memory Inspect

def IPOPT_NOP : Byte := 1
def IPOPT_LSRR : Byte := 131
def IPOPT_SSRR : Byte := 137

/-- A `struct in_addr` of 4 bytes, and what is behind it as far as a `u_long` of `w` bytes goes. -/
structure InAddr (w : Nat) where
  addr : List Byte
  behind : List Byte
  addr_length : addr.length = 4
  behind_length : 4 + behind.length = w

/-- `sroute_opt[44]`, `optr` as an offset into it, and `sroute_cnt`. -/
structure Sroute where
  opt : List Byte
  optr : Nat
  cnt : Nat

def Sroute.start : Sroute := ⟨List.replicate 44 0,0,0⟩

/-- How building the option ends otherwise; `outside` is a write behind `sroute_opt`. -/
inductive SrouteEnd where
  | tooMany : SrouteEnd
  | unknownHost : SrouteEnd
  | outside : SrouteEnd
  deriving DecidableEq, Repr

/-- `memcpy(optr, addr, sizeof(u_long))`, and the step of `optr`. -/
def Sroute.copy {w : Nat} (s : Sroute) (inaddr : InAddr w) : Except SrouteEnd Sroute :=
  match store s.opt s.optr (inaddr.addr ++ inaddr.behind) with
  | none => .error .outside
  | some opt => .ok { s with opt := opt, optr := s.optr + w }

/-- `inaddr` is what the argument has been resolved to. -/
def srouteDoopt {w : Nat} (s : Sroute) (strict : Bool) (inaddr : Option (InAddr w)) :
    Except SrouteEnd Sroute :=
  if 9 ≤ s.cnt then .error .tooMany
  else
    let s : Sroute :=
      if s.cnt = 0 then
        ⟨[if strict then IPOPT_SSRR else IPOPT_LSRR,0,4] ++ List.replicate 41 0,3,s.cnt⟩
      else s
    match inaddr with
    | none => .error .unknownHost
    | some inaddr => (s.copy inaddr).map fun s => { s with cnt := s.cnt + 1 }

/-- `while ((optr - sroute_opt) & 3) optr++`, in as many turns as that can take. -/
def alignOptr : Nat → Nat → Nat
  | 0, optr => optr
  | turns+1, optr => if optr % 4 ≠ 0 then alignOptr turns (optr + 1) else optr

/-- The option that is given to `setsockopt`, and its length. -/
structure SrouteSet where
  opt : List Byte
  optlen : Nat
  deriving DecidableEq, Repr

def srouteSet {w : Nat} (s : Sroute) (servaddr : InAddr w) : Except SrouteEnd SrouteSet :=
  let cnt := s.cnt + 1
  match store s.opt 1 [UInt8.ofNat (3 + cnt * 4)] with
  | none => .error .outside
  | some opt =>
    ({ s with opt := opt, cnt := cnt }.copy servaddr).map fun s : Sroute =>
      ⟨s.opt,alignOptr 3 s.optr⟩

/-- The command line: each hop with `-G` or `-g`, and then the destination. -/
def srouteOption {w : Nat} (hops : List (Bool × InAddr w)) (servaddr : InAddr w) :
    Except SrouteEnd SrouteSet := do
  let s ← hops.foldlM (fun s hop => srouteDoopt s hop.1 (some hop.2)) Sroute.start
  srouteSet s servaddr

def srouteLen (hops : Nat) : Nat := 3 + 4 * (hops + 1)

/-- The option as it should be, in all of `sroute_opt`. -/
def srouteBytes {w : Nat} (hops : List (Bool × InAddr w)) (servaddr : InAddr w) : List Byte :=
  let option := [if (hops.head?.map Prod.fst).getD false then IPOPT_SSRR else IPOPT_LSRR,
    UInt8.ofNat (srouteLen hops.length),4] ++
      ((hops.map fun hop => hop.2.addr).flatten ++ servaddr.addr)
  option ++ List.replicate (44 - option.length) 0

/-- Nothing is written outside, the option is as it should be, and its length is rounded up. -/
def SrouteEncoded {w : Nat} (hops : List (Bool × InAddr w)) (servaddr : InAddr w) : Prop :=
  srouteOption hops servaddr = .ok ⟨srouteBytes hops servaddr,(srouteLen hops.length + 3) / 4 * 4⟩

theorem alignOptr_eq (optr : Nat) : alignOptr 3 optr = (optr + 3) / 4 * 4 := by
  simp only [alignOptr]
  split
  · split
    · split <;> omega
    · omega
  · omega

section
variable {w : Nat} {s t : Sroute}

theorem copy_ok {inaddr : InAddr w} (h : s.copy inaddr = .ok t) :
    t.optr = s.optr + w ∧ t.cnt = s.cnt := by
  rw [Sroute.copy] at h
  split at h
  · cases h
  · cases h
    exact ⟨rfl,rfl⟩

theorem srouteDoopt_ok {strict : Bool} {inaddr : InAddr w}
    (h : srouteDoopt s strict (some inaddr) = .ok t) :
    t.optr = (if s.cnt = 0 then 3 else s.optr) + w ∧ t.cnt = s.cnt + 1 := by
  rw [srouteDoopt] at h
  split at h
  · cases h
  · simp only at h
    obtain ⟨u,hu,rfl⟩ := map_ok h
    obtain ⟨hoptr,hcnt⟩ := copy_ok hu
    simp only [hoptr,hcnt]
    split
    · exact ⟨rfl,rfl⟩
    · exact ⟨rfl,rfl⟩

/-- The pointer goes by the size of a `u_long` for each hop. -/
theorem srouteHops_ok (hops : List (Bool × InAddr w)) (hs : s.cnt ≠ 0 → s.optr = 3 + w * s.cnt)
    (h : hops.foldlM (fun s hop => srouteDoopt s hop.1 (some hop.2)) s = .ok t) :
    t.cnt = s.cnt + hops.length ∧ (t.cnt ≠ 0 → t.optr = 3 + w * t.cnt) := by
  induction hops generalizing s with
  | nil =>
    cases h
    exact ⟨rfl,hs⟩
  | cons hop hops ih =>
    rw [List.foldlM_cons] at h
    obtain ⟨u,hu,hrest⟩ := bind_ok h
    obtain ⟨hoptr,hcnt⟩ := srouteDoopt_ok hu
    have hu' : u.cnt ≠ 0 → u.optr = 3 + w * u.cnt := fun _ => by
      rw [hoptr,hcnt,Nat.mul_succ,← Nat.add_assoc]
      split
      · rename_i hzero
        rw [hzero,Nat.mul_zero,Nat.add_zero]
      · rename_i hne
        rw [hs hne]
    obtain ⟨htcnt,htoptr⟩ := ih hu' hrest
    rw [List.length_cons]
    exact ⟨by omega,htoptr⟩

theorem srouteOption_ok {hops : List (Bool × InAddr w)} (hne : hops ≠ []) {servaddr : InAddr w}
    {r : SrouteSet} (h : srouteOption hops servaddr = .ok r) :
    r.optlen = (3 + w * (hops.length + 1) + 3) / 4 * 4 := by
  obtain ⟨s,hs,hset⟩ := bind_ok h
  obtain ⟨hcnt,hoptr⟩ := srouteHops_ok hops (absurd rfl) hs
  rw [srouteSet] at hset
  split at hset
  · cases hset
  · obtain ⟨t,ht,rfl⟩ := map_ok hset
    have hpos := List.length_pos_iff.mpr hne
    have hstart : Sroute.start.cnt = 0 := rfl
    rw [hstart,Nat.zero_add] at hcnt
    simp only [alignOptr_eq,(copy_ok ht).1]
    have hmul : w * (hops.length + 1) = w * hops.length + w := Nat.mul_succ _ _
    rw [hoptr (by omega),hcnt,hmul,Nat.add_assoc 3]

end

/-- Where a `u_long` has 8 bytes, no source route is encoded as it should be. -/
theorem srouteOption_lp64 (hops : List (Bool × InAddr 8)) (hne : 1 ≤ hops.length)
    (hle : hops.length ≤ 9) (servaddr : InAddr 8) : ¬ SrouteEncoded hops servaddr := by
  intro hencoded
  have hlen := srouteOption_ok (List.length_pos_iff.mp hne) hencoded
  simp only [srouteLen] at hlen
  omega

def localhost64 : InAddr 8 := ⟨[127,0,0,1],[0,0,0,0],rfl,rfl⟩

theorem srouteOption_lp64_one : ¬ SrouteEncoded [(false,localhost64)] localhost64 :=
  srouteOption_lp64 [(false,localhost64)] (by decide) (by decide) localhost64

/-- With one hop the length is 20 and not 12; with five, the destination is written behind
`sroute_opt`. -/
theorem srouteOption_not_encoded :
    ¬ SrouteEncoded [(false,localhost64)] localhost64 ∧
      (srouteOption [(false,localhost64)] localhost64).toOption.map SrouteSet.optlen = some 20 ∧
      (srouteLen 1 + 3) / 4 * 4 = 12 ∧
      (srouteOption (List.replicate 5 (false,localhost64)) localhost64).toOption = none := by
  have hlen : (srouteOption [(false,localhost64)] localhost64).toOption.map SrouteSet.optlen =
      some 20 := by decide
  refine ⟨fun h => ?_,hlen,by decide,by decide⟩
  rw [SrouteEncoded] at h
  rw [h] at hlen
  revert hlen
  decide

/-! ## With a `u_long` of 4 bytes -/

theorem InAddr.memory (a : InAddr 4) : a.addr ++ a.behind = a.addr := by
  have h := a.behind_length
  rw [List.eq_nil_of_length_eq_zero (by omega : a.behind.length = 0),List.append_nil]

/-- `pre` is in front of `optr`, and `m` zeros are behind it. -/
def Forming (pre : List Byte) (m cnt : Nat) : Sroute := ⟨pre ++ List.replicate m 0,pre.length,cnt⟩

theorem Forming.copy {pre : List Byte} {m : Nat} (hm : 4 ≤ m) (cnt : Nat) (a : InAddr 4) :
    (Forming pre m cnt).copy a = .ok (Forming (pre ++ a.addr) (m - 4) cnt) := by
  have hle : a.addr.length ≤ m := by rw [a.addr_length]; omega
  have hstore := store_replicate pre (0 : Byte) hle
  rw [a.addr_length] at hstore
  simp only [Sroute.copy,Forming,a.memory,hstore,List.length_append,a.addr_length]

theorem Forming.hop {pre : List Byte} {m cnt : Nat} (hm : 4 ≤ m) (hpos : 0 < cnt) (hcnt : cnt < 9)
    (strict : Bool) (a : InAddr 4) : srouteDoopt (Forming pre m cnt) strict (some a) =
      .ok (Forming (pre ++ a.addr) (m - 4) (cnt + 1)) := by
  have hlt : ¬ 9 ≤ (Forming pre m cnt).cnt := Nat.not_le.mpr hcnt
  have hne : (Forming pre m cnt).cnt ≠ 0 := hpos.ne'
  rw [srouteDoopt,if_neg hlt]
  simp only [if_neg hne,copy hm]
  rfl

theorem Forming.first (strict : Bool) (a : InAddr 4) :
    srouteDoopt Sroute.start strict (some a) =
      .ok (Forming ([if strict then IPOPT_SSRR else IPOPT_LSRR,0,4] ++ a.addr) 37 1) := by
  have hcopy := @Forming.copy [if strict then IPOPT_SSRR else IPOPT_LSRR,0,4] 41 (by decide) 0 a
  simp only [srouteDoopt,Sroute.start]
  change (Except.map _ ((Forming _ 41 0).copy a)) = _
  rw [hcopy]
  rfl

theorem Forming.hops (hops : List (Bool × InAddr 4)) {pre : List Byte} {m cnt : Nat}
    (hm : 4 * hops.length ≤ m) (hpos : 0 < cnt) (hcnt : cnt + hops.length ≤ 9) :
    hops.foldlM (fun s hop => srouteDoopt s hop.1 (some hop.2)) (Forming pre m cnt) =
      .ok (Forming (pre ++ (hops.map fun hop => hop.2.addr).flatten) (m - 4 * hops.length)
        (cnt + hops.length)) := by
  induction hops generalizing pre m cnt with
  | nil =>
    rw [List.map_nil,List.flatten_nil,List.append_nil]
    rfl
  | cons hop hops ih =>
    rw [List.length_cons] at hm hcnt
    rw [List.foldlM_cons,Forming.hop (by omega) hpos (by omega)]
    have hrest := @ih (pre ++ hop.2.addr) (m - 4) (cnt + 1) (by omega) (by omega) (by omega)
    have hm' : m - 4 - 4 * hops.length = m - 4 * (hop :: hops).length := by
      rw [List.length_cons]
      omega
    have hcnt' : cnt + 1 + hops.length = cnt + (hop :: hops).length := by
      rw [List.length_cons]
      omega
    rw [hm',hcnt',List.append_assoc] at hrest
    exact hrest

theorem Forming.set {t : Byte} {tail : List Byte} {m cnt : Nat} (hm : 4 ≤ m) (a : InAddr 4) :
    srouteSet (Forming ([t,0,4] ++ tail) m cnt) a =
      .ok ⟨[t,UInt8.ofNat (3 + (cnt + 1) * 4),4] ++ (tail ++ a.addr) ++ List.replicate (m - 4) 0,
        (3 + tail.length + 4 + 3) / 4 * 4⟩ := by
  have hlength : ([0] : List Byte).length = [UInt8.ofNat (3 + (cnt + 1) * 4)].length := rfl
  have hstore : store ([t,0,4] ++ tail ++ List.replicate m 0) 1 [UInt8.ofNat (3 + (cnt + 1) * 4)] =
      some ([t,UInt8.ofNat (3 + (cnt + 1) * 4),4] ++ tail ++ List.replicate m 0) := by
    have hmiddle := store_middle [t] (4 :: (tail ++ List.replicate m 0)) hlength
    simpa only [List.cons_append,List.nil_append,List.length_singleton] using hmiddle
  have hcopy := @Forming.copy ([t,UInt8.ofNat (3 + (cnt + 1) * 4),4] ++ tail) m hm (cnt + 1) a
  have hoptr : ([t,0,4] ++ tail).length =
      ([t,UInt8.ofNat (3 + (cnt + 1) * 4),4] ++ tail).length := rfl
  simp only [srouteSet,Forming,hstore,hoptr] at hcopy ⊢
  rw [hcopy]
  simp only [Except.map,alignOptr_eq,List.length_append,a.addr_length,List.append_assoc,
    List.length_cons,List.length_nil]
  congr 2

/-- Where a `u_long` has 4 bytes, every source route is encoded as it should be. -/
theorem srouteOption_ilp32 (hops : List (Bool × InAddr 4)) (hne : 1 ≤ hops.length)
    (hle : hops.length ≤ 9) (servaddr : InAddr 4) : SrouteEncoded hops servaddr := by
  obtain ⟨hop,hops,rfl⟩ := List.exists_cons_of_length_pos hne
  rw [List.length_cons] at hle
  have hrest := @Forming.hops hops ([if hop.1 then IPOPT_SSRR else IPOPT_LSRR,0,4] ++ hop.2.addr)
    37 1 (by omega) Nat.one_pos (by omega)
  have hlen (hops : List (Bool × InAddr 4)) :
      ((hops.map fun hop => hop.2.addr).flatten).length = 4 * hops.length := by
    induction hops with
    | nil => rfl
    | cons hop hops ih =>
      rw [List.map_cons,List.flatten_cons,List.length_append,hop.2.addr_length,ih,List.length_cons]
      omega
  have hfold : (hop :: hops).foldlM (fun s hop => srouteDoopt s hop.1 (some hop.2))
      Sroute.start = .ok (Forming ([if hop.1 then IPOPT_SSRR else IPOPT_LSRR,0,4] ++
        ((hop :: hops).map fun hop => hop.2.addr).flatten) (37 - 4 * hops.length)
          (1 + hops.length)) := by
    rw [List.foldlM_cons,Forming.first]
    exact hrest
  have hset := @Forming.set (if hop.1 then IPOPT_SSRR else IPOPT_LSRR)
    ((hop :: hops).map fun hop => hop.2.addr).flatten (37 - 4 * hops.length) (1 + hops.length)
    (by omega) servaddr
  have hoption := (congrArg (fun r : Except SrouteEnd Sroute => r.bind fun s =>
    srouteSet s servaddr) hfold).trans hset
  have hflat := hlen (hop :: hops)
  rw [List.length_cons] at hflat
  have hcount : 3 + (1 + hops.length + 1) * 4 = srouteLen (hop :: hops).length := by
    rw [srouteLen,List.length_cons]
    omega
  have hoptlen : (3 + ((hop :: hops).map fun hop => hop.2.addr).flatten.length + 4 + 3) / 4 * 4 =
      (srouteLen (hop :: hops).length + 3) / 4 * 4 := by
    rw [hflat,srouteLen,List.length_cons]
    omega
  have hzeros : 37 - 4 * hops.length - 4 = 44 - ([if hop.1 then IPOPT_SSRR else IPOPT_LSRR,
      UInt8.ofNat (srouteLen (hop :: hops).length),4] ++
        (((hop :: hops).map fun hop => hop.2.addr).flatten ++ servaddr.addr)).length := by
    rw [List.length_append,List.length_append,hflat,servaddr.addr_length]
    change _ = 44 - (3 + _)
    omega
  rw [hcount,hzeros,hoptlen] at hoption
  exact hoption

/-! ## The option that is received -/

/-- The loop that skips the NOPs from `ptr` on: the byte that ends it, and `ptr` behind that. -/
def skipNops : Nat → Nat → Field (Option (Byte × Nat))
  | 0, _ => pure none
  | fuel+1, ptr => do
    let c ← cell ptr
    if c = IPOPT_NOP then skipNops fuel (ptr + 1) else pure (some (c,ptr + 1))

/-- The loop that prints the addresses. The last one may have less than 4 bytes of `len`. -/
def printAddrs (ptr : Nat) : Nat → Field (List (List Byte))
  | 0 => pure []
  | len+4 => do
    let addr ← cells ptr 4
    let addrs ← printAddrs (ptr + 4) len
    pure (addr :: addrs)
  | _ => do
    let addr ← cells ptr 4
    pure [addr]

/-- What is printed: the type of another option, or the addresses of a source route. -/
inductive SrcrtPrinted where
  | option (type : Byte) : SrcrtPrinted
  | route (addrs : List (List Byte)) : SrcrtPrinted
  deriving DecidableEq, Repr

def SrcrtPrinted.addrs : SrcrtPrinted → List (List Byte)
  | .option _ => []
  | .route addrs => addrs

/-- `inet_srcrt_print`, which does not look at its parameter `len` before it stores into it. -/
def inetSrcrtPrint (fuel : Nat) : Field (Option SrcrtPrinted) := do
  let hop1 ← cells 0 4
  match ← skipNops fuel 4 with
  | none => pure none
  | some (c,ptr) =>
    if c ≠ IPOPT_LSRR ∧ c ≠ IPOPT_SSRR then pure (some (.option c))
    else do
      let total ← cell ptr
      let addrs ← printAddrs (ptr + 2) (total.toNat - 4)
      pure (some (.route (hop1 :: addrs)))

/-- The function ends, reads none but the first `len` bytes, and prints at most `len / 4`
addresses. -/
structure SrcrtSafe (len : Nat) (buf : Nat → Byte) (fuel : Nat) : Prop where
  within : (inetSrcrtPrint fuel).Within len buf
  ends : ∃ r, (inetSrcrtPrint fuel).run buf = some r ∧ r.addrs.length ≤ len / 4

/-- Behind the first address and NOPs there is an option inside the buffer; and if it is a source
route, so are its length and the addresses that its length tells. -/
def SrcrtFits (len : Nat) (buf : Nat → Byte) : Prop :=
  ∃ j, 4 ≤ j ∧ j < len ∧ (∀ i, 4 ≤ i → i < j → buf i = IPOPT_NOP) ∧ buf j ≠ IPOPT_NOP ∧
    (buf j = IPOPT_LSRR ∨ buf j = IPOPT_SSRR → j + 1 < len ∧
      (4 < (buf (j + 1)).toNat → j + 3 + ((buf (j + 1)).toNat - 4 + 3) / 4 * 4 ≤ len))

section
variable {n : Nat} {buf : Nat → Byte}

theorem printAddrs_within (ptr len : Nat) :
    (printAddrs ptr len).Within n buf ↔ len = 0 ∨ ptr + (len + 3) / 4 * 4 ≤ n := by
  induction ptr, len using printAddrs.induct with
  | case1 ptr => simp [printAddrs]
  | case2 ptr len ih =>
    simp only [printAddrs,within_bind,within_cells,ih,within_pure,and_true]
    omega
  | case3 len ptr hne h4 =>
    have hpos : len ≠ 0 := hne
    have hlt : len < 4 := by
      by_contra hge
      exact h4 (len - 4) (by omega)
    rw [printAddrs.eq_3 _ _ hne h4,within_bind,within_cells]
    simp only [within_pure,and_true]
    omega

theorem printAddrs_length (ptr len : Nat) :
    ((printAddrs ptr len).run buf).length = (len + 3) / 4 := by
  induction ptr, len using printAddrs.induct with
  | case1 ptr => rfl
  | case2 ptr len ih =>
    simp only [printAddrs,run_bind,run_pure,List.length_cons,ih]
    omega
  | case3 len ptr hne h4 =>
    have hpos : len ≠ 0 := hne
    have hlt : len < 4 := by
      by_contra hge
      exact h4 (len - 4) (by omega)
    rw [printAddrs.eq_3 _ _ hne h4,run_bind,run_pure,List.length_singleton]
    omega

/-- The loop has found the first byte that is not a NOP. -/
theorem skipNops_run {fuel ptr : Nat} {r : Byte × Nat} (h : (skipNops fuel ptr).run buf = some r) :
    ∃ j, ptr ≤ j ∧ j < ptr + fuel ∧ (∀ i, ptr ≤ i → i < j → buf i = IPOPT_NOP) ∧
      buf j ≠ IPOPT_NOP := by
  induction fuel generalizing ptr with
  | zero => cases h
  | succ fuel ih =>
    rw [skipNops,run_bind,run_cell,run_ite] at h
    split at h
    · rename_i hnop
      obtain ⟨j,hle,hlt,hnops,hj⟩ := ih h
      refine ⟨j,by omega,by omega,fun i hi hij => ?_,hj⟩
      obtain rfl | hi := Nat.eq_or_lt_of_le hi
      · exact hnop
      · exact hnops i hi hij
    · rename_i hj
      exact ⟨ptr,Nat.le_refl _,by omega,fun i hi hij => by omega,hj⟩

theorem skipNops_at {fuel ptr j : Nat} (hle : ptr ≤ j) (hfuel : j < ptr + fuel)
    (hnops : ∀ i, ptr ≤ i → i < j → buf i = IPOPT_NOP) (hj : buf j ≠ IPOPT_NOP) :
    (skipNops fuel ptr).run buf = some (buf j,j + 1) ∧
      ((skipNops fuel ptr).Within n buf ↔ j < n) := by
  induction fuel generalizing ptr with
  | zero => omega
  | succ fuel ih =>
    rw [skipNops,run_bind,run_cell,run_ite,within_bind,within_cell,run_cell,within_ite]
    obtain rfl | hlt := Nat.eq_or_lt_of_le hle
    · rw [if_neg hj,if_neg hj]
      exact ⟨rfl,and_iff_left (within_pure _)⟩
    · have hnop := hnops ptr (Nat.le_refl _) hlt
      rw [if_pos hnop,if_pos hnop]
      obtain ⟨hrun,hwithin⟩ := ih hlt (by omega) fun i hi hij => hnops i (by omega) hij
      rw [hwithin]
      exact ⟨hrun,by omega⟩

theorem inetSrcrtPrint_at {fuel j : Nat} (hle : 4 ≤ j) (hfuel : j < 4 + fuel)
    (hnops : ∀ i, 4 ≤ i → i < j → buf i = IPOPT_NOP) (hj : buf j ≠ IPOPT_NOP) :
    ((inetSrcrtPrint fuel).Within n buf ↔ j < n ∧ (buf j = IPOPT_LSRR ∨ buf j = IPOPT_SSRR →
      j + 1 < n ∧ (4 < (buf (j + 1)).toNat →
        j + 3 + ((buf (j + 1)).toNat - 4 + 3) / 4 * 4 ≤ n))) ∧
    ∃ r, (inetSrcrtPrint fuel).run buf = some r ∧ r.addrs.length =
      if buf j = IPOPT_LSRR ∨ buf j = IPOPT_SSRR then 1 + ((buf (j + 1)).toNat - 4 + 3) / 4
      else 0 := by
  obtain ⟨hrun,hwithin⟩ := @skipNops_at n buf fuel 4 j hle hfuel hnops hj
  have hother : buf j ≠ IPOPT_LSRR ∧ buf j ≠ IPOPT_SSRR ↔
      ¬ (buf j = IPOPT_LSRR ∨ buf j = IPOPT_SSRR) := not_or.symm
  rw [inetSrcrtPrint,within_bind,within_bind,run_bind,run_bind,hrun,hwithin,within_cells]
  simp only [hother]
  by_cases hroute : buf j = IPOPT_LSRR ∨ buf j = IPOPT_SSRR
  · simp only [hroute,not_true_eq_false,if_false,if_true,within_bind,run_bind,within_cell,run_cell,
      printAddrs_within,within_pure,and_true,run_pure,true_imp_iff]
    refine ⟨by omega,_,rfl,?_⟩
    rw [SrcrtPrinted.addrs,List.length_cons,printAddrs_length]
    omega
  · simp only [hroute,not_false_eq_true,if_true,if_false,within_pure,run_pure,false_imp_iff,
      and_true]
    exact ⟨by omega,_,rfl,rfl⟩

theorem SrcrtSafe.fits {fuel : Nat} (h : SrcrtSafe n buf fuel) : SrcrtFits n buf := by
  obtain ⟨hwithin,r,hrun,-⟩ := h
  cases hskip : (skipNops fuel 4).run buf with
  | none =>
    rw [inetSrcrtPrint,run_bind,run_bind,hskip] at hrun
    cases hrun
  | some found =>
    obtain ⟨j,hle,hfuel,hnops,hj⟩ := skipNops_run hskip
    obtain ⟨hlt,hroute⟩ := (inetSrcrtPrint_at hle hfuel hnops hj).1.mp hwithin
    exact ⟨j,hle,hlt,hnops,hj,hroute⟩

theorem SrcrtFits.safe (h : SrcrtFits n buf) : ∃ fuel, SrcrtSafe n buf fuel := by
  obtain ⟨j,hle,hlt,hnops,hj,hroute⟩ := h
  obtain ⟨hwithin,r,hrun,hlen⟩ := @inetSrcrtPrint_at n buf (j - 4 + 1) j hle (by omega) hnops hj
  refine ⟨j - 4 + 1,hwithin.mpr ⟨hlt,hroute⟩,r,hrun,?_⟩
  rw [hlen]
  split
  · rename_i hsrr
    have hin := hroute hsrr
    omega
  · exact Nat.zero_le _

end

/-- `inet_srcrt_print` ends inside the buffer exactly when the option, and what it tells to print,
is inside. -/
theorem inetSrcrtPrint_safe_iff (len : Nat) (buf : Nat → Byte) :
    (∃ fuel, SrcrtSafe len buf fuel) ↔ SrcrtFits len buf :=
  ⟨fun ⟨_,h⟩ => h.fits,SrcrtFits.safe⟩

/-- Eight bytes whose option says that it has 255, and eight with no option behind the NOPs. -/
theorem inetSrcrtPrint_not_safe :
    (¬ ∃ fuel, SrcrtSafe 8 (fun i => [10,0,0,1,131,255,4,10].getD i 0) fuel) ∧
      ¬ ∃ fuel, SrcrtSafe 8 (fun i => [10,0,0,1,1,1,1,1].getD i 0) fuel := by
  constructor
  · rintro ⟨fuel,h⟩
    obtain ⟨j,hle,hlt,hnops,hj,hroute⟩ := h.fits
    obtain rfl | hlater := Nat.eq_or_lt_of_le hle
    · have hin := (hroute (.inl rfl)).2 (by decide)
      revert hin
      decide
    · have hnop := hnops 4 (Nat.le_refl 4) hlater
      revert hnop
      decide
  · rintro ⟨fuel,h⟩
    obtain ⟨j,hle,hlt,hnops,hj,-⟩ := h.fits
    have hall : ∀ j < 8, 4 ≤ j → ([10,0,0,1,1,1,1,1] : List Byte).getD j 0 = IPOPT_NOP := by decide
    exact hj (hall j hlt hle)

end UnixNet
