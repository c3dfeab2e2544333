import UnixNet.InetNtop
import UnixNet.Library.ByteOrder
set_option autoImplicit false

/-! libfree/inet_pton.c, inet_pton_ipv4.c and inet_aton.c: the address of a text. -/

namespace UnixNet
namespace InetText

/-- `pch - digits`, where `strchr` finds the character. -/
def digit (ch : Byte) : Option Nat := if isdigit ch then some (ch.toNat - 48) else none

def xdigit (ch : Byte) : Option Nat := (xdigitsL.idxOf? ch).or (xdigitsU.idxOf? ch)

/-! ## inet_pton4 -/

/-- `tmp` up to `tp`, the octet at `tp`, and the two counters. -/
structure Quad where
  done : List Nat
  cur : Nat
  octets : Nat
  sawDigit : Bool
  deriving DecidableEq, Repr

def Quad.step (s : Quad) (ch : Byte) : Option Quad :=
  match digit ch with
  | some d =>
    let new := s.cur * 10 + d
    if 255 < new then none
    else if s.sawDigit then some { s with cur := new }
    else if 4 < s.octets + 1 then none
    else some { s with cur := new,octets := s.octets+1,sawDigit := true }
  | none =>
    if ch = dot ∧ s.sawDigit then
      if s.octets = 4 then none
      else some { s with done := s.done ++ [s.cur],cur := 0,sawDigit := false }
    else none

/-- The bytes that `inet_pton4` copies to `dst`. -/
def inetPton4 (src : List Byte) : Option (List Byte) :=
  (src.foldlM Quad.step ⟨[],0,0,false⟩).bind fun s =>
    if s.octets < 4 then none else some ((s.done ++ [s.cur]).map UInt8.ofNat)

/-! ## inet_aton -/

/-- `acc` and `addr` are of `w` bits. -/
structure Aton where
  dots : Nat
  acc : Nat
  addr : Nat
  deriving DecidableEq, Repr

/-- `case '\0'`, which `case '.'` falls through to. -/
def Aton.part (w : Nat) (s : Aton) : Option Aton :=
  if 255 < s.acc then none else some { s with addr := (s.addr <<< 8 ||| s.acc) % 2^w,acc := 0 }

def Aton.step (w : Nat) (s : Aton) (cc : Byte) : Option Aton :=
  match digit cc with
  | some d => some { s with acc := (s.acc * 10 + d) % 2^w }
  | none =>
    if cc = dot then
      if 3 < s.dots + 1 then none else Aton.part w { s with dots := s.dots+1 }
    else none

/-- The bytes of `htonl(addr)`. -/
def netBytes (addr : Nat) : List Byte := (ByteOrder.bytes 4 addr).reverse

/-- What `inet_aton` stores, for a `u_long` of `w` bits. -/
def inetAton (w : Nat) (cp : List Byte) : Option (List Byte) :=
  ((cp.foldlM (Aton.step w) ⟨0,0,0⟩).bind (Aton.part w)).map fun s =>
    netBytes (if s.dots < 3 then (s.addr <<< (8 * (3 - s.dots))) % 2^w else s.addr)

/-! ## inet_pton6 -/

/-- The bytes of `tmp` before `tp`, `colonp` by its distance from `tmp`, and the string at
`curtok`. -/
structure Words where
  tmp : List Byte
  colonp : Option Nat
  curtok : List Byte
  sawXdigit : Bool
  val : Nat
  deriving DecidableEq, Repr

/-- `*tp++ = (val >> 8) & 0xff; *tp++ = val & 0xff;` within `endp`. -/
def Words.put (s : Words) : Option (List Byte) :=
  if 16 < s.tmp.length + 2 then none else some (s.tmp ++ wordBytes s.val)

def pton6Loop (s : Words) : List Byte → Option Words
  | [] => some s
  | ch :: src =>
    match xdigit ch with
    | some d =>
      let val := s.val <<< 4 ||| d
      if 0xffff < val then none else pton6Loop { s with val := val,sawXdigit := true } src
    | none =>
      if ch = colon then
        if s.sawXdigit then
          match s.put with
          | none => none
          | some tmp =>
            pton6Loop { s with tmp := tmp,curtok := src,sawXdigit := false,val := 0 } src
        else if s.colonp.isSome then none
        else pton6Loop { s with colonp := some s.tmp.length,curtok := src } src
      else if ch = dot ∧ s.tmp.length + 4 ≤ 16 then
        (inetPton4 s.curtok).map fun quad => { s with tmp := s.tmp ++ quad,sawXdigit := false }
      else none

/-- `endp[- i] = colonp[n - i]; colonp[n - i] = 0;` -/
def shiftStep (colonp n : Nat) (m : List Byte) (i : Nat) : List Byte :=
  (m.set (16 - i) (m.getD (colonp + (n - i)) 0)).set (colonp + (n - i)) 0

/-- The shift by hand, over the sixteen bytes of `tmp`. -/
def shift (tmp : List Byte) (colonp : Nat) : List Byte :=
  let n := tmp.length - colonp
  (List.range' 1 n).foldl (shiftStep colonp n) (tmp ++ List.replicate (16 - tmp.length) 0)

def pton6End (s : Words) : Option (List Byte) :=
  (if s.sawXdigit then s.put else some s.tmp).bind fun tmp =>
    match s.colonp with
    | some colonp => some (shift tmp colonp)
    | none => if tmp.length = 16 then some tmp else none

/-- The bytes that `inet_pton6` copies to `dst`. Of a leading `::` only the second colon is
left for the loop. -/
def inetPton6 (src : List Byte) : Option (List Byte) :=
  let start := if src.head? = some colon then
      if src[1]? = some colon then some src.tail else none
    else some src
  start.bind fun src => (pton6Loop ⟨[],none,src,false,0⟩ src).bind pton6End

/-- 1 with the bytes copied to `dst`, 0 for a text that is no address, or -1 with `errno`. -/
def inetPton (af : Nat) (src : List Byte) : Except Errno (Option (List Byte)) :=
  if af = Sa.AF_INET then .ok (inetPton4 src)
  else if af = Sa.AF_INET6 then .ok (inetPton6 src)
  else .error EAFNOSUPPORT

/-- `inet_pton` of inet_pton_ipv4.c. -/
def inetPtonIpv4 (w family : Nat) (strptr : List Byte) : Except Errno (Option (List Byte)) :=
  if family = Sa.AF_INET then .ok (inetAton w strptr) else .error EAFNOSUPPORT

/-! ## Texts in parts -/

def dotted : List Byte → List (List Byte) → List Byte
  | p, [] => p
  | p, q :: ps => p ++ dot :: dotted q ps

theorem dotted_eq (p : List Byte) (ps : List (List Byte)) :
    dotted p ps = [dot].intercalate (p :: ps) := by
  induction ps generalizing p with
  | nil => simp [dotted]
  | cons q ps ih => simp [dotted,ih]

theorem exists_dotted (s : List Byte) : ∃ p ps, s = dotted p ps ∧ ∀ q ∈ p :: ps, dot ∉ q := by
  induction s with
  | nil => exact ⟨[],[],rfl,by simp⟩
  | cons c s ih =>
    obtain ⟨p,ps,hs,hdots⟩ := ih
    by_cases hc : c = dot
    · exact ⟨[],p :: ps,by rw [hc,hs]; rfl,List.forall_mem_cons.mpr ⟨by simp,hdots⟩⟩
    · obtain ⟨hp,hps⟩ := List.forall_mem_cons.mp hdots
      refine ⟨c :: p,ps,?_,List.forall_mem_cons.mpr ⟨by simp [hp,Ne.symm hc],hps⟩⟩
      rw [hs]
      cases ps <;> rfl

def Numeral (p : List Byte) : Prop := ∀ c ∈ p, isdigit c = true

instance (p : List Byte) : Decidable (Numeral p) := inferInstanceAs (Decidable (∀ c ∈ p, _))

theorem numeral_dot {p : List Byte} (h : Numeral p) : dot ∉ p := fun hd =>
  absurd (h dot hd) (by decide)

def decimalFrom (v : Nat) (ds : List Byte) : Nat :=
  ds.foldl (fun v c => 10 * v + (c.toNat - 48)) v

theorem le_decimalFrom (v : Nat) (ds : List Byte) : v ≤ decimalFrom v ds := by
  induction ds generalizing v with
  | nil => exact Nat.le_refl v
  | cons c ds ih =>
    have hnext := ih (10 * v + (c.toNat - 48))
    exact Nat.le_trans (by omega) hnext

theorem digit_le {c : Byte} (h : isdigit c = true) : c.toNat - 48 ≤ 9 := by
  have hc : c ≤ 57 := by
    simp only [isdigit,Bool.and_eq_true,decide_eq_true_eq] at h
    exact h.2
  exact Nat.sub_le_sub_right (UInt8.le_iff_toNat_le.mp hc) 48

/-! ## What inet_pton4 takes -/

def Octet (p : List Byte) : Prop := p ≠ [] ∧ Numeral p ∧ decimal p ≤ 255

instance (p : List Byte) : Decidable (Octet p) := inferInstanceAs (Decidable (_ ∧ _))

theorem Quad.run_digits {p : List Byte} (hp : dot ∉ p) (s : Quad) (hsaw : s.sawDigit = true) :
    p.foldlM step s =
      if Numeral p ∧ (p = [] ∨ decimalFrom s.cur p ≤ 255) then
        some { s with cur := decimalFrom s.cur p } else none := by
  induction p generalizing s with
  | nil => simp [Numeral,decimalFrom]
  | cons c p ih =>
    have hc : c ≠ dot := (List.ne_of_not_mem_cons hp).symm
    have hp : dot ∉ p := List.not_mem_of_not_mem_cons hp
    rw [List.foldlM_cons]
    by_cases hdigit : isdigit c = true
    · have hstep : step s c = if 255 < s.cur * 10 + (c.toNat - 48) then none
          else some { s with cur := s.cur * 10 + (c.toNat - 48) } := by
        simp [step,digit,hdigit,hsaw]
      have hcur : decimalFrom s.cur (c :: p) = decimalFrom (s.cur * 10 + (c.toNat - 48)) p := by
        rw [Nat.mul_comm]
        rfl
      have hle := le_decimalFrom (s.cur * 10 + (c.toNat - 48)) p
      have hnum : Numeral (c :: p) ↔ Numeral p := by simp [Numeral,hdigit]
      simp only [hstep,hcur,hnum]
      split
      · rename_i hbig
        have hno : ¬ (Numeral p ∧ (c :: p = [] ∨
            decimalFrom (s.cur * 10 + (c.toNat - 48)) p ≤ 255)) := by
          simp only [List.cons_ne_nil,false_or]
          omega
        rw [if_neg hno]
        rfl
      · rename_i hsmall
        rw [Option.bind_eq_bind,Option.bind_some,
          ih hp { s with cur := s.cur * 10 + (c.toNat - 48) } hsaw]
        refine if_congr (and_congr_right fun _ => ?_) rfl rfl
        simp only [List.cons_ne_nil,false_or,or_iff_right_iff_imp]
        rintro rfl
        exact Nat.not_lt.mp hsmall
    · have hstep : step s c = none := by simp [step,digit,hdigit,hc]
      have hnum : ¬ Numeral (c :: p) := fun h => hdigit (h c List.mem_cons_self)
      rw [hstep,if_neg fun h => hnum h.1]
      rfl

theorem Quad.run_part {p : List Byte} (hp : dot ∉ p) (hne : p ≠ []) (done : List Nat) {k : Nat}
    (hk : k < 4) : p.foldlM step ⟨done,0,k,false⟩ =
      if Octet p then some ⟨done,decimal p,k+1,true⟩ else none := by
  cases p with
  | nil => exact absurd rfl hne
  | cons c p =>
    have hc : c ≠ dot := (List.ne_of_not_mem_cons hp).symm
    have hp : dot ∉ p := List.not_mem_of_not_mem_cons hp
    rw [List.foldlM_cons]
    by_cases hdigit : isdigit c = true
    · have hd := digit_le hdigit
      have hstep : step ⟨done,0,k,false⟩ c = some ⟨done,c.toNat - 48,k+1,true⟩ := by
        simp only [step,digit,if_pos hdigit,Nat.zero_mul,Nat.zero_add,Bool.false_eq_true,if_false]
        rw [if_neg (by omega),if_neg (by omega)]
      have hvalue : decimal (c :: p) = decimalFrom (c.toNat - 48) p := by
        simp [decimal,decimalFrom]
      rw [hstep,Option.bind_eq_bind,Option.bind_some,run_digits hp _ rfl]
      refine if_congr ?_ (by rw [hvalue]) rfl
      simp only [Octet,ne_eq,hne,not_false_eq_true,true_and,hvalue]
      have hnum : Numeral (c :: p) ↔ Numeral p := by simp [Numeral,hdigit]
      rw [hnum,or_iff_right_iff_imp.mpr]
      rintro rfl
      exact Nat.le_trans hd (by decide)
    · have hstep : step ⟨done,0,k,false⟩ c = none := by simp [step,digit,hdigit,hc]
      have hnum : ¬ Octet (c :: p) := fun h => hdigit (h.2.1 c List.mem_cons_self)
      rw [hstep,if_neg hnum]
      rfl

theorem digit_dot : digit dot = none := by decide

theorem Quad.run_dotted {p : List Byte} {ps : List (List Byte)} (hdots : ∀ q ∈ p :: ps, dot ∉ q)
    (done : List Nat) {k : Nat} (hk : k < 4) (bytes : List Byte) :
    (((dotted p ps).foldlM step ⟨done,0,k,false⟩).bind fun s =>
        if s.octets < 4 then none else some ((s.done ++ [s.cur]).map UInt8.ofNat)) = some bytes ↔
      k + 1 + ps.length = 4 ∧ (∀ q ∈ p :: ps, Octet q) ∧
        bytes = (done ++ (p :: ps).map decimal).map UInt8.ofNat := by
  induction ps generalizing p done k with
  | nil =>
    have hp := hdots p List.mem_cons_self
    by_cases hne : p = []
    · subst hne
      simp [dotted,Octet,hk]
    · by_cases hoctet : Octet p
      · have hoctets : (if k + 1 < 4 then none
            else some ((done ++ [decimal p]).map UInt8.ofNat)) = some bytes ↔
            k + 1 = 4 ∧ bytes = (done ++ [decimal p]).map UInt8.ofNat := by
          split
          · simp only [reduceCtorEq,false_iff]
            omega
          · simp only [Option.some.injEq,eq_comm (a := bytes),iff_and_self]
            omega
        simpa [dotted,run_part hp hne done hk,hoctet] using hoctets
      · simp [dotted,run_part hp hne done hk,hoctet]
  | cons q ps ih =>
    obtain ⟨hp,hps⟩ := List.forall_mem_cons.mp hdots
    rw [dotted,List.foldlM_append]
    by_cases hne : p = []
    · subst hne
      have hstop : step ⟨done,0,k,false⟩ dot = none := by simp [step,digit_dot]
      simp [List.foldlM_cons,hstop,Octet]
    · by_cases hoctet : Octet p
      · simp only [run_part hp hne done hk,if_pos hoctet,Option.bind_eq_bind,Option.bind_some,
          List.foldlM_cons,step,digit_dot,true_and,if_true]
        by_cases hfour : k + 1 = 4
        · simp only [if_pos hfour,Option.bind_none,reduceCtorEq,List.length_cons,false_iff]
          omega
        · rw [if_neg hfour,Option.bind_some,ih hps _ (by omega)]
          have hcount : k + 1 + 1 + ps.length = 4 ↔ k + 1 + (q :: ps).length = 4 := by
            rw [List.length_cons]
            omega
          rw [hcount,List.forall_mem_cons (a := p),and_iff_right hoctet,List.append_assoc]
          rfl
      · simp [run_part hp hne done hk,hoctet]

theorem inetPton4_dotted {p : List Byte} {ps : List (List Byte)} (hdots : ∀ q ∈ p :: ps, dot ∉ q)
    (bytes : List Byte) : inetPton4 (dotted p ps) = some bytes ↔
      (p :: ps).length = 4 ∧ (∀ q ∈ p :: ps, Octet q) ∧
        bytes = (p :: ps).map fun q => UInt8.ofNat (decimal q) := by
  have hrun := Quad.run_dotted hdots [] (by decide : 0 < 4) bytes
  rw [inetPton4,hrun,List.length_cons,Nat.zero_add,Nat.add_comm,List.nil_append,List.map_map]
  rfl

/-- `inet_pton4` takes four decimal numbers up to 255, with leading zeros if they like. -/
theorem inetPton4_iff (src bytes : List Byte) :
    inetPton4 src = some bytes ↔ ∃ parts, src = [dot].intercalate parts ∧ parts.length = 4 ∧
      (∀ q ∈ parts, Octet q) ∧ bytes = parts.map fun q => UInt8.ofNat (decimal q) := by
  constructor
  · intro h
    obtain ⟨p,ps,rfl,hdots⟩ := exists_dotted src
    exact ⟨p :: ps,dotted_eq p ps,(inetPton4_dotted hdots bytes).mp h⟩
  · rintro ⟨parts,rfl,hlen,hoctets,hbytes⟩
    cases parts with
    | nil => simp at hlen
    | cons p ps =>
      rw [← dotted_eq,inetPton4_dotted fun q hq => numeral_dot (hoctets q hq).2.1]
      exact ⟨hlen,hoctets,hbytes⟩

theorem octet_decimalText (c : Byte) :
    Octet (decimalText c.toNat) ∧ UInt8.ofNat (decimal (decimalText c.toNat)) = c := by
  have hvalue := decimal_decimalText c.toNat
  refine ⟨⟨decimalText_ne_nil _,fun _ => decimalText_isdigit,?_⟩,by rw [hvalue,UInt8.ofNat_toNat]⟩
  rw [hvalue]
  exact Nat.le_of_lt_succ c.toNat_lt

theorem quadText_eq (src : List Byte) : quadText src =
    [dot].intercalate ((List.range 4).map fun i => decimalText (src.getD i 0).toNat) := by
  simp [quadText,List.range_succ]

theorem inetPton4_quadText {src : List Byte} (h : src.length = 4) :
    inetPton4 (quadText src) = some src := by
  have hsrc : src = (List.range 4).map (src.getD · 0) := by
    refine List.ext_getElem (by simp [h]) fun i hi _ => ?_
    simp [hi]
  refine (inetPton4_iff _ _).mpr ⟨_,quadText_eq src,by simp,fun q hq => ?_,?_⟩
  · obtain ⟨i,-,rfl⟩ := List.mem_map.mp hq
    exact (octet_decimalText _).1
  · rw [List.map_map]
    refine hsrc.trans (List.map_congr_left fun i _ => ?_)
    exact (octet_decimalText _).2.symm

/-! ## What inet_aton takes -/

/-- A part that `acc`, of `w` bits, ends below 256 for. -/
def Part (w : Nat) (p : List Byte) : Prop := Numeral p ∧ decimal p % 2^w ≤ 255

theorem Aton.run_digits {w : Nat} {p : List Byte} (hp : dot ∉ p) (k v a : Nat) :
    p.foldlM (step w) ⟨k,v % 2^w,a⟩ =
      if Numeral p then some ⟨k,decimalFrom v p % 2^w,a⟩ else none := by
  induction p generalizing v with
  | nil => simp [Numeral,decimalFrom]
  | cons c p ih =>
    have hc : c ≠ dot := (List.ne_of_not_mem_cons hp).symm
    have hp : dot ∉ p := List.not_mem_of_not_mem_cons hp
    rw [List.foldlM_cons]
    by_cases hdigit : isdigit c = true
    · have hstep : step w ⟨k,v % 2^w,a⟩ c = some ⟨k,(10 * v + (c.toNat - 48)) % 2^w,a⟩ := by
        have hmod : (v % 2^w * 10 + (c.toNat - 48)) % 2^w = (10 * v + (c.toNat - 48)) % 2^w := by
          rw [Nat.mul_comm 10,Nat.add_mod,Nat.mod_mul_mod,← Nat.add_mod]
        simp only [step,digit,if_pos hdigit,hmod]
      have hnum : Numeral (c :: p) ↔ Numeral p := by simp [Numeral,hdigit]
      rw [hstep,Option.bind_eq_bind,Option.bind_some,ih hp]
      simp only [hnum]
      rfl
    · have hstep : step w ⟨k,v % 2^w,a⟩ c = none := by simp [step,digit,hdigit,hc]
      have hnum : ¬ Numeral (c :: p) := fun h => hdigit (h c List.mem_cons_self)
      rw [hstep,if_neg hnum]
      rfl

/-- The digits in base 256, appended to those of `a`. -/
def base256 (a : Nat) (vs : List Nat) : Nat := vs.foldl (fun a v => a * 256 + v) a

theorem base256_cons (a v : Nat) (vs : List Nat) :
    base256 a (v :: vs) = base256 (a * 256 + v) vs := rfl

theorem base256_append (a : Nat) (vs us : List Nat) :
    base256 a (vs ++ us) = base256 (base256 a vs) us := List.foldl_append

theorem base256_bytes (k a : Nat) {vs : List Nat} (h : ∀ v ∈ vs, v ≤ 255) :
    (ByteOrder.bytes (k+vs.length) (base256 a vs)).reverse =
      (ByteOrder.bytes k a).reverse ++ vs.map UInt8.ofNat := by
  induction vs generalizing k a with
  | nil => simp [base256]
  | cons v vs ih =>
    obtain ⟨hv,hvs⟩ := List.forall_mem_cons.mp h
    have hnext := ih (k+1) (a * 256 + v) hvs
    have hlow : UInt8.ofNat (a * 256 + v) = UInt8.ofNat v := by
      apply UInt8.toNat_inj.mp
      rw [UInt8.toNat_ofNat',UInt8.toNat_ofNat']
      omega
    have hhigh : (a * 256 + v) / 256 = a := by omega
    rw [ByteOrder.bytes,hlow,hhigh,List.reverse_cons,List.append_assoc] at hnext
    rw [List.length_cons,show k + (vs.length+1) = k + 1 + vs.length by omega]
    exact hnext

theorem base256_zeros (a m : Nat) : base256 a (List.replicate m 0) = a * 256^m := by
  induction m generalizing a with
  | zero => simp [base256]
  | succ m ih =>
    have hstep : base256 a (List.replicate (m+1) 0) = base256 (a * 256 + 0) (List.replicate m 0) :=
      rfl
    rw [hstep,ih,Nat.add_zero,Nat.pow_succ',Nat.mul_assoc]

theorem Aton.part_eq {w k v a : Nat} (hw : 32 ≤ w) (hk : k < 4) (ha : a < 256^k) :
    part w ⟨k,v % 2^w,a⟩ =
      if v % 2^w ≤ 255 then some ⟨k,0,a * 256 + v % 2^w⟩ else none := by
  unfold part
  by_cases hv : v % 2^w ≤ 255
  · have hbits : (a <<< 8 ||| v % 2^w) % 2^w = a * 256 + v % 2^w := by
      have hsmall : v % 2^w < 2^8 := Nat.lt_succ_of_le hv
      have hpow : (256 : Nat)^k ≤ 256^3 := Nat.pow_le_pow_right (by decide) (by omega)
      have hword : (2 : Nat)^32 ≤ 2^w := Nat.pow_le_pow_right (by decide) hw
      rw [← Nat.shiftLeft_add_eq_or_of_lt hsmall,Nat.shiftLeft_eq]
      exact Nat.mod_eq_of_lt (by omega)
    simp only [if_neg (Nat.not_lt.mpr hv),if_pos hv,hbits]
  · simp only [if_pos (Nat.not_le.mp hv),if_neg hv]

theorem base256_lt {a k v : Nat} (ha : a < 256^k) (hv : v ≤ 255) : a * 256 + v < 256^(k+1) := by
  rw [Nat.pow_succ]
  omega

theorem Aton.run_part {w : Nat} {p : List Byte} (hp : dot ∉ p) (k a : Nat) :
    p.foldlM (step w) ⟨k,0,a⟩ = if Numeral p then some ⟨k,decimal p % 2^w,a⟩ else none := by
  have hrun := run_digits (w := w) hp k 0 a
  rwa [Nat.zero_mod] at hrun

theorem Aton.run_dotted {w : Nat} (hw : 32 ≤ w) {p : List Byte} {ps : List (List Byte)}
    (hdots : ∀ q ∈ p :: ps, dot ∉ q) {k a : Nat} (hk : k < 4) (ha : a < 256^k) (s : Aton) :
    ((dotted p ps).foldlM (step w) ⟨k,0,a⟩).bind (part w) = some s ↔
      k + ps.length < 4 ∧ (∀ q ∈ p :: ps, Part w q) ∧
        s = ⟨k+ps.length,0,base256 a ((p :: ps).map fun q => decimal q % 2^w)⟩ := by
  induction ps generalizing p k a with
  | nil =>
    rw [dotted,run_part (hdots p List.mem_cons_self)]
    by_cases hnum : Numeral p
    · rw [if_pos hnum,Option.bind_some,part_eq hw hk ha]
      by_cases hv : decimal p % 2^w ≤ 255
      · simp [hv,hk,Part,hnum,base256,eq_comm]
      · simp [hv,Part]
    · simp [hnum,Part]
  | cons q ps ih =>
    obtain ⟨hp,hps⟩ := List.forall_mem_cons.mp hdots
    rw [dotted,List.foldlM_append,run_part hp]
    by_cases hnum : Numeral p
    · simp only [if_pos hnum,Option.bind_eq_bind,Option.bind_some,List.foldlM_cons,step,digit_dot,
        if_true]
      by_cases hdots4 : 3 < k + 1
      · simp only [if_pos hdots4,Option.bind_none,reduceCtorEq,List.length_cons,false_iff]
        omega
      · have hk1 : k + 1 < 4 := by omega
        have hpart : part w ⟨k+1,decimal p % 2^w,a⟩ =
            if decimal p % 2^w ≤ 255 then some ⟨k+1,0,a * 256 + decimal p % 2^w⟩ else none :=
          part_eq hw hk1 (Nat.lt_of_lt_of_le ha (Nat.pow_le_pow_right (by decide) (Nat.le_succ k)))
        rw [if_neg hdots4,hpart]
        by_cases hv : decimal p % 2^w ≤ 255
        · rw [if_pos hv,Option.bind_some,ih hps hk1 (base256_lt ha hv)]
          have hcount : k + 1 + ps.length = k + (q :: ps).length := by
            rw [List.length_cons]
            omega
          have hp' : Part w p := ⟨hnum,hv⟩
          rw [hcount,List.forall_mem_cons (a := p),and_iff_right hp',List.map_cons (a := p),
            base256_cons]
        · simp [hv,Part]
    · simp [hnum,Part]

theorem base256_lt_pow {vs : List Nat} (h : ∀ v ∈ vs, v ≤ 255) {a k : Nat} (ha : a < 256^k) :
    base256 a vs < 256^(k+vs.length) := by
  induction vs generalizing a k with
  | nil => exact ha
  | cons v vs ih =>
    obtain ⟨hv,hvs⟩ := List.forall_mem_cons.mp h
    have hnext := ih hvs (base256_lt ha hv)
    rwa [base256_cons,List.length_cons,show k + (vs.length+1) = k + 1 + vs.length by omega]

/-- The parts that are missing are zero. -/
theorem netBytes_normalized {w : Nat} (hw : 32 ≤ w) {vs : List Nat} (h : ∀ v ∈ vs, v ≤ 255)
    (hlen : vs.length ≤ 4) :
    netBytes (if vs.length < 4 then (base256 0 vs <<< (8 * (4 - vs.length))) % 2^w
      else base256 0 vs) = vs.map UInt8.ofNat ++ List.replicate (4 - vs.length) 0 := by
  have hall : ∀ v ∈ vs ++ List.replicate (4 - vs.length) 0, v ≤ 255 := by
    intro v hv
    rcases List.mem_append.mp hv with hv | hv
    · exact h v hv
    · rw [List.eq_of_mem_replicate hv]
      exact Nat.zero_le _
  have hfour : (vs ++ List.replicate (4 - vs.length) 0).length = 4 := by
    rw [List.length_append,List.length_replicate]
    omega
  have haddr : (if vs.length < 4 then (base256 0 vs <<< (8 * (4 - vs.length))) % 2^w
      else base256 0 vs) = base256 0 (vs ++ List.replicate (4 - vs.length) 0) := by
    have hlt := base256_lt_pow hall (a := 0) (k := 0) (by decide)
    rw [Nat.zero_add,hfour] at hlt
    have hword : (2 : Nat)^32 ≤ 2^w := Nat.pow_le_pow_right (by decide) hw
    have hshift : base256 0 vs <<< (8 * (4 - vs.length)) =
        base256 0 (vs ++ List.replicate (4 - vs.length) 0) := by
      rw [base256_append,base256_zeros,Nat.shiftLeft_eq,Nat.pow_mul]
    rw [hshift]
    split
    · exact Nat.mod_eq_of_lt (by omega)
    · rename_i hfull
      rw [Nat.sub_eq_zero_of_le (Nat.not_lt.mp hfull),List.replicate_zero,List.append_nil]
  have hbytes := base256_bytes 0 0 hall
  rw [Nat.zero_add,hfour] at hbytes
  rw [haddr,netBytes,hbytes,List.map_append,List.map_replicate]
  rfl

theorem inetAton_dotted {w : Nat} (hw : 32 ≤ w) {p : List Byte} {ps : List (List Byte)}
    (hdots : ∀ q ∈ p :: ps, dot ∉ q) (bytes : List Byte) :
    inetAton w (dotted p ps) = some bytes ↔
      (p :: ps).length ≤ 4 ∧ (∀ q ∈ p :: ps, Part w q) ∧
        bytes = ((p :: ps).map fun q => UInt8.ofNat (decimal q % 2^w)) ++
          List.replicate (4 - (p :: ps).length) 0 := by
  have hrun := Aton.run_dotted hw hdots (by decide : 0 < 4) (by decide : 0 < 256^0)
  have hbytes : (p :: ps).length ≤ 4 → (∀ q ∈ p :: ps, Part w q) →
      netBytes (if ps.length < 3 then
        (base256 0 ((p :: ps).map fun q => decimal q % 2^w) <<< (8 * (3 - ps.length))) % 2^w
        else base256 0 ((p :: ps).map fun q => decimal q % 2^w)) =
      ((p :: ps).map fun q => UInt8.ofNat (decimal q % 2^w)) ++
        List.replicate (4 - (p :: ps).length) 0 := by
    intro hlen hparts
    have hnorm := netBytes_normalized hw
      (fun v (hv : v ∈ (p :: ps).map fun q => decimal q % 2^w) => by
        obtain ⟨q,hq,rfl⟩ := List.mem_map.mp hv
        exact (hparts q hq).2) (by rwa [List.length_map])
    rw [List.length_map,List.map_map,List.length_cons] at hnorm
    have hfour : 4 - (ps.length+1) = 3 - ps.length := Nat.add_sub_add_right 3 1 _
    simp only [Nat.add_lt_add_iff_right (k := 1) (n := ps.length) (m := 3),hfour] at hnorm
    rw [List.length_cons,hfour]
    exact hnorm
  unfold inetAton
  rw [Option.map_eq_some_iff]
  constructor
  · rintro ⟨s,hs,rfl⟩
    obtain ⟨hlen,hparts,rfl⟩ := (hrun s).mp hs
    rw [Nat.zero_add] at hlen
    simp only [Nat.zero_add]
    exact ⟨hlen,hparts,hbytes hlen hparts⟩
  · rintro ⟨hlen,hparts,rfl⟩
    refine ⟨_,(hrun _).mpr ⟨by rw [Nat.zero_add]; exact hlen,hparts,rfl⟩,?_⟩
    simp only [Nat.zero_add]
    exact hbytes hlen hparts

/-! ## The loop of inet_pton6 -/

theorem xdigit_colon : xdigit colon = none := by decide
theorem xdigit_dot : xdigit dot = none := by decide

theorem xdigit_xdigitsL : ∀ d < 16, xdigit (xdigitsL.getD d 0) = some d := by decide

section
variable (tmp : List Byte) (colonp : Option Nat) (curtok : List Byte)

theorem pton6Loop_hexText (saw : Bool) {n : Nat} (hn : n ≤ 0xffff) (rest : List Byte) :
    pton6Loop ⟨tmp,colonp,curtok,saw,0⟩ (hexText n ++ rest) =
      pton6Loop ⟨tmp,colonp,curtok,true,n⟩ rest := by
  induction n using Nat.strongRecOn generalizing rest with
  | ind n ih =>
    rw [hexText]
    by_cases hsmall : n < 16
    · rw [if_pos hsmall,List.singleton_append,pton6Loop,xdigit_xdigitsL n hsmall]
      simp only [Nat.zero_shiftLeft,Nat.zero_or,if_neg (Nat.not_lt.mpr hn)]
    · have hdigit : n % 16 < 2^4 := Nat.mod_lt _ (by decide)
      have hvalue : (n / 16) <<< 4 ||| n % 16 = n := by
        rw [← Nat.shiftLeft_add_eq_or_of_lt hdigit,Nat.shiftLeft_eq]
        exact Nat.div_add_mod' n 16
      rw [if_neg hsmall,List.append_assoc,ih (n / 16) (by omega) (by omega),List.singleton_append,
        pton6Loop,xdigit_xdigitsL _ hdigit]
      simp only [hvalue,if_neg (Nat.not_lt.mpr hn)]

theorem pton6Loop_word {w : Nat} (hw : w ≤ 0xffff) (hroom : tmp.length + 2 ≤ 16)
    (rest : List Byte) :
    pton6Loop ⟨tmp,colonp,curtok,false,0⟩ (hexText w ++ colon :: rest) =
      pton6Loop ⟨tmp ++ wordBytes w,colonp,rest,false,0⟩ rest := by
  rw [pton6Loop_hexText _ _ _ _ hw,pton6Loop,xdigit_colon]
  simp only [if_true,Words.put,if_neg (Nat.not_lt.mpr hroom)]

theorem pton6Loop_lead {ws : List Nat} (hws : ∀ w ∈ ws, w ≤ 0xffff)
    (hroom : tmp.length + 2 * ws.length ≤ 16) (rest : List Byte) :
    pton6Loop ⟨tmp,colonp,curtok,false,0⟩ (lead ws ++ rest) =
      pton6Loop ⟨tmp ++ wordsBytes ws,colonp,if ws = [] then curtok else rest,false,0⟩ rest := by
  induction ws generalizing tmp curtok with
  | nil => simp [lead,wordsBytes]
  | cons w ws ih =>
    obtain ⟨hw,hws⟩ := List.forall_mem_cons.mp hws
    rw [List.length_cons] at hroom
    have hlead : lead (w :: ws) ++ rest = hexText w ++ colon :: (lead ws ++ rest) := by simp [lead]
    have hlen : (tmp ++ wordBytes w).length = tmp.length + 2 := List.length_append
    rw [hlead,pton6Loop_word _ _ _ hw (by omega),ih _ _ hws (by omega)]
    have hcur : (if ws = [] then lead ws ++ rest else rest) = rest := by
      split
      · rename_i h
        rw [h]
        rfl
      · rfl
    rw [hcur,if_neg (List.cons_ne_nil _ _),List.append_assoc]
    rfl

end

/-- What comes of the bytes in `tmp` once all of the text is read. -/
def endWith (colonp : Option Nat) (tmp : List Byte) : Option (List Byte) :=
  match colonp with
  | some colonp => some (shift tmp colonp)
  | none => if tmp.length = 16 then some tmp else none

theorem pton6End_read (tmp curtok : List Byte) (colonp : Option Nat) (val : Nat) :
    pton6End ⟨tmp,colonp,curtok,false,val⟩ = endWith colonp tmp := rfl

theorem hexJoin_snoc (ws : List Nat) (w : Nat) : hexJoin (ws ++ [w]) = lead ws ++ hexText w := by
  cases ws with
  | nil => simp [hexJoin,behind,lead]
  | cons u ws =>
    have hbehind : behind (ws ++ [w]) = behind ws ++ [colon] ++ hexText w := by simp [behind]
    rw [List.cons_append,hexJoin,hbehind,behind_colon]
    simp [lead]

theorem pton6_hexJoin (tmp curtok : List Byte) (colonp : Option Nat) {ts : List Nat}
    (hts : ∀ t ∈ ts, t ≤ 0xffff) (hroom : tmp.length + 2 * ts.length ≤ 16) :
    (pton6Loop ⟨tmp,colonp,curtok,false,0⟩ (hexJoin ts)).bind pton6End =
      endWith colonp (tmp ++ wordsBytes ts) := by
  rcases List.eq_nil_or_concat' ts with rfl | ⟨us,t,rfl⟩
  · simp [hexJoin,pton6Loop,wordsBytes,pton6End_read]
  · obtain ⟨hus,ht⟩ := List.forall_mem_append.mp hts
    have ht := ht t List.mem_cons_self
    rw [List.length_append,List.length_singleton] at hroom
    have hbytes : (wordsBytes us).length = 2 * us.length := by
      simp [wordsBytes,wordBytes,List.length_flatMap,Nat.mul_comm]
    have hfits : ¬ 16 < (tmp ++ wordsBytes us).length + 2 := by
      rw [List.length_append,hbytes]
      omega
    rw [hexJoin_snoc,pton6Loop_lead _ _ _ hus (by omega),
      ← List.append_nil (hexText t),pton6Loop_hexText _ _ _ _ ht,pton6Loop,Option.bind_some]
    simp only [pton6End,if_true,Words.put,if_neg hfits,Option.bind_some]
    have hword : wordsBytes (us ++ [t]) = wordsBytes us ++ wordBytes t := by simp [wordsBytes]
    rw [hword,← List.append_assoc]
    rfl

/-! ## The shift by hand -/

theorem shiftStep_gap (h a b : List Byte) (x : Byte) (g : Nat)
    (hfull : h.length + (a.length + 1 + (g + 1) + b.length) = 16) :
    shiftStep h.length (a.length + 1 + b.length)
        (h ++ (a ++ x :: (List.replicate (g+1) 0 ++ b))) (b.length+1) =
      h ++ (a ++ (List.replicate (g+1) 0 ++ x :: b)) := by
  have hsrc : h.length + (a.length + 1 + b.length - (b.length+1)) = (h ++ a).length := by
    rw [List.length_append]
    omega
  have hdst : 16 - (b.length+1) = (h ++ a ++ x :: List.replicate g 0).length := by
    simp only [List.length_append,List.length_cons,List.length_replicate]
    omega
  have hmem : h ++ (a ++ x :: (List.replicate (g+1) 0 ++ b)) =
      h ++ a ++ x :: List.replicate g 0 ++ 0 :: b := by
    simp [List.replicate_succ']
  have hget : (h ++ a ++ x :: List.replicate g 0 ++ 0 :: b).getD (h ++ a).length 0 = x := by
    simp [List.getD]
  unfold shiftStep
  rw [hsrc,hdst,hmem,hget,List.set_append_right _ _ (Nat.le_refl _),Nat.sub_self,List.set_cons_zero,
    List.append_assoc,List.set_append_right _ _ (Nat.le_refl _),Nat.sub_self,List.cons_append,
    List.set_cons_zero]
  simp [List.replicate_succ]

theorem shiftStep_full (h a b : List Byte) (x : Byte)
    (hfull : h.length + (a.length + 1 + b.length) = 16) :
    shiftStep h.length (a.length + 1 + b.length) (h ++ (a ++ x :: b)) (b.length+1) =
      h ++ (a ++ 0 :: b) := by
  have hsrc : h.length + (a.length + 1 + b.length - (b.length+1)) = (h ++ a).length := by
    rw [List.length_append]
    omega
  have hdst : 16 - (b.length+1) = (h ++ a).length := by
    rw [List.length_append]
    omega
  unfold shiftStep
  rw [hsrc,hdst,← List.append_assoc,List.set_append_right _ _ (Nat.le_refl _),Nat.sub_self,
    List.set_cons_zero,List.set_append_right _ _ (Nat.le_refl _),Nat.sub_self,List.set_cons_zero,
    List.append_assoc]

/-- The bytes `a` are still in their place, the bytes `b` are moved. -/
theorem shift_loop_gap (h : List Byte) {g n : Nat} (a b : List Byte)
    (hn : a.length + b.length = n) (hfull : h.length + (n + (g + 1)) = 16) :
    (List.range' (b.length+1) a.length).foldl (shiftStep h.length n)
        (h ++ (a ++ (List.replicate (g+1) 0 ++ b))) =
      h ++ (List.replicate (g+1) 0 ++ (a ++ b)) := by
  induction a using List.reverseRecOn generalizing b with
  | nil => rfl
  | append_singleton a x ih =>
    rw [List.length_append,List.length_singleton] at hn
    subst hn
    rw [List.length_append,List.length_singleton,List.range'_succ,List.foldl_cons,
      List.append_assoc a,List.singleton_append,shiftStep_gap h a b x g (by omega)]
    have hnext := ih (x :: b) (by rw [List.length_cons]; omega)
    rw [List.length_cons] at hnext
    rw [hnext,List.append_assoc a,List.singleton_append]

theorem shift_loop_full (h : List Byte) {n : Nat} (a b : List Byte) (hn : a.length + b.length = n)
    (hfull : h.length + n = 16) :
    (List.range' (b.length+1) a.length).foldl (shiftStep h.length n) (h ++ (a ++ b)) =
      h ++ (List.replicate a.length 0 ++ b) := by
  induction a using List.reverseRecOn generalizing b with
  | nil => rfl
  | append_singleton a x ih =>
    rw [List.length_append,List.length_singleton] at hn
    subst hn
    rw [List.length_append,List.length_singleton,List.range'_succ,List.foldl_cons,
      List.append_assoc a,List.singleton_append,shiftStep_full h a b x (by omega)]
    have hnext := ih (0 :: b) (by rw [List.length_cons]; omega)
    rw [List.length_cons] at hnext
    rw [hnext,List.replicate_succ',List.append_assoc,List.singleton_append]

theorem shift_gap (h t : List Byte) (hroom : h.length + t.length < 16) :
    shift (h ++ t) h.length =
      h ++ (List.replicate (16 - (h.length + t.length)) 0 ++ t) := by
  obtain ⟨g,hg⟩ : ∃ g, 16 - (h.length + t.length) = g + 1 :=
    ⟨16 - (h.length + t.length) - 1,by omega⟩
  have hloop := shift_loop_gap h t [] (g := g) (n := t.length) rfl (by omega)
  unfold shift
  rw [List.length_append,Nat.add_sub_cancel_left,hg,List.append_assoc]
  rwa [List.append_nil,List.append_nil] at hloop

/-- With no gap to shift over, each byte is overwritten by itself and then cleared. -/
theorem shift_full (h t : List Byte) (hfull : h.length + t.length = 16) :
    shift (h ++ t) h.length = h ++ List.replicate t.length 0 := by
  have hloop := shift_loop_full h t [] (n := t.length) rfl hfull
  unfold shift
  rw [List.length_append,Nat.add_sub_cancel_left,hfull,Nat.sub_self,List.replicate_zero,
    List.append_nil]
  rwa [List.append_nil,List.append_nil] at hloop

/-! ## Texts with `::` -/

theorem hexText_head (n : Nat) : ∃ d < 16, ∃ l, hexText n = xdigitsL.getD d 0 :: l := by
  induction n using Nat.strongRecOn with
  | ind n ih =>
    rw [hexText]
    split
    · rename_i hn
      exact ⟨n,hn,[],rfl⟩
    · obtain ⟨d,hd,l,hl⟩ := ih (n / 16) (by omega)
      rw [hl]
      exact ⟨d,hd,_,rfl⟩

theorem xdigitsL_ne_colon : ∀ d < 16, xdigitsL.getD d 0 ≠ colon := by decide

theorem hexJoin_colon {ws : List Nat} (h : ws ≠ []) : hexJoin ws ++ [colon] = lead ws := by
  have hb := behind_colon ws
  rw [behind_eq h,List.cons_append] at hb
  exact List.tail_eq_of_cons_eq hb

theorem inetPton6_word (w : Nat) (rest : List Byte) :
    inetPton6 (hexText w ++ rest) =
      (pton6Loop ⟨[],none,hexText w ++ rest,false,0⟩ (hexText w ++ rest)).bind pton6End := by
  obtain ⟨d,hd,l,hl⟩ := hexText_head w
  have hhead : (hexText w ++ rest).head? ≠ some colon := by
    rw [hl]
    simpa using xdigitsL_ne_colon d hd
  unfold inetPton6
  rw [if_neg hhead,Option.bind_some]

theorem wordsBytes_length (ws : List Nat) : (wordsBytes ws).length = 2 * ws.length := by
  simp [wordsBytes,wordBytes,List.length_flatMap,Nat.mul_comm]

theorem pton6Loop_second (tmp curtok rest : List Byte) :
    pton6Loop ⟨tmp,none,curtok,false,0⟩ (colon :: rest) =
      pton6Loop ⟨tmp,some tmp.length,rest,false,0⟩ rest := by
  rw [pton6Loop,xdigit_colon]
  rfl

/-- Whatever is in front of the second colon, and what is behind it. -/
theorem inetPton6_colons {hs : List Nat} (hhs : ∀ h ∈ hs, h ≤ 0xffff) (h8 : hs.length ≤ 8)
    (rest : List Byte) :
    inetPton6 (hexJoin hs ++ colon :: colon :: rest) =
      (pton6Loop ⟨wordsBytes hs,some (2 * hs.length),rest,false,0⟩ rest).bind pton6End := by
  have hloop : ∀ curtok, pton6Loop ⟨[],none,curtok,false,0⟩ (lead hs ++ colon :: rest) =
      pton6Loop ⟨wordsBytes hs,some (2 * hs.length),rest,false,0⟩ rest := by
    intro curtok
    rw [pton6Loop_lead _ _ _ hhs (by simpa using Nat.mul_le_mul_left 2 h8),List.nil_append,
      pton6Loop_second,wordsBytes_length]
  by_cases hne : hs = []
  · subst hne
    unfold inetPton6
    exact congrArg (Option.bind · pton6End) (hloop _)
  · have htext : hexJoin hs ++ colon :: colon :: rest = lead hs ++ colon :: rest := by
      rw [← hexJoin_colon hne,List.append_assoc]
      rfl
    cases hs with
    | nil => exact absurd rfl hne
    | cons w ws =>
      rw [htext,← hloop (lead (w :: ws) ++ colon :: rest)]
      have hlead : lead (w :: ws) ++ colon :: rest =
          hexText w ++ (colon :: (lead ws ++ colon :: rest)) := by simp [lead]
      rw [hlead,inetPton6_word]

theorem inetPton6_colonText {hs ts : List Nat} (hhs : ∀ h ∈ hs, h ≤ 0xffff)
    (hts : ∀ t ∈ ts, t ≤ 0xffff) (h8 : hs.length + ts.length ≤ 8) :
    inetPton6 (colonText hs ts) =
      some (shift (wordsBytes hs ++ wordsBytes ts) (wordsBytes hs).length) := by
  rw [colonText,inetPton6_colons hhs (by omega),
    pton6_hexJoin _ _ _ hts (by rw [wordsBytes_length]; omega),wordsBytes_length]
  rfl

/-! ## Reading back what inet_ntop6 prints -/

theorem xdigit_isdigit {c : Byte} (h : isdigit c = true) : ∃ d < 16, xdigit c = some d := by
  have hall : ∀ d ≤ 9, xdigit (UInt8.ofNat (48 + d)) = some d := by decide
  have hle := digit_le h
  have hge : 48 ≤ c.toNat := by
    simp only [isdigit,Bool.and_eq_true,decide_eq_true_eq] at h
    exact UInt8.le_iff_toNat_le.mp h.1
  refine ⟨c.toNat - 48,by omega,?_⟩
  have hc := hall _ hle
  rwa [Nat.add_sub_cancel' hge,UInt8.ofNat_toNat] at hc

theorem pton6Loop_decimals (tmp curtok : List Byte) (colonp : Option Nat) {ds : List Byte}
    (hds : Numeral ds) {k : Nat} (hk : k + ds.length ≤ 4) {v : Nat} (hv : v < 16^k) (saw : Bool)
    (rest : List Byte) : ∃ saw' v', pton6Loop ⟨tmp,colonp,curtok,saw,v⟩ (ds ++ rest) =
      pton6Loop ⟨tmp,colonp,curtok,saw',v'⟩ rest := by
  induction ds generalizing k v saw with
  | nil => exact ⟨saw,v,rfl⟩
  | cons c ds ih =>
    obtain ⟨hc,hds⟩ := List.forall_mem_cons.mp hds
    rw [List.length_cons] at hk
    obtain ⟨d,hd,hx⟩ := xdigit_isdigit hc
    have hnew : v <<< 4 ||| d < 16^(k+1) := by
      rw [← Nat.shiftLeft_add_eq_or_of_lt (show d < 2^4 from hd),Nat.shiftLeft_eq,Nat.pow_succ]
      omega
    have hsmall : ¬ 0xffff < v <<< 4 ||| d := by
      have hpow : 16^(k+1) ≤ 16^4 := Nat.pow_le_pow_right (by decide) (by omega)
      omega
    obtain ⟨saw',v',hrun⟩ := ih hds (k := k+1) (by omega) hnew true
    refine ⟨saw',v',?_⟩
    rw [List.cons_append,pton6Loop,hx]
    simp only [if_neg hsmall,hrun]

theorem pton6_quadText {tmp q : List Byte} (colonp : Nat) (hq : q.length = 4)
    (hroom : tmp.length + 4 ≤ 16) :
    (pton6Loop ⟨tmp,some colonp,quadText q,false,0⟩ (quadText q)).bind pton6End =
      some (shift (tmp ++ q) colonp) := by
  have hfirst : (decimalText (q.getD 0 0).toNat).length ≤ 3 :=
    decimalText_length (by decide) (Nat.lt_trans (q.getD 0 0).toNat_lt (by decide))
  obtain ⟨rest,hrest⟩ : ∃ rest, quadText q = decimalText (q.getD 0 0).toNat ++ dot :: rest :=
    ⟨_,rfl⟩
  obtain ⟨saw,v,hrun⟩ := pton6Loop_decimals tmp (quadText q) (some colonp)
    (show Numeral (decimalText (q.getD 0 0).toNat) from fun _ => decimalText_isdigit)
    (k := 0) (by omega)
    (v := 0) (by decide) false (dot :: rest)
  have hloop : pton6Loop ⟨tmp,some colonp,quadText q,false,0⟩ (quadText q) =
      some ⟨tmp ++ q,some colonp,quadText q,false,v⟩ := by
    rw [← hrest] at hrun
    have hnotcolon : dot ≠ colon := by decide
    rw [hrun,pton6Loop,xdigit_dot]
    simp only [if_neg hnotcolon,true_and,if_pos hroom,inetPton4_quadText hq,Option.map_some]
  rw [hloop]
  rfl

theorem wordsBytes_append (ws us : List Nat) :
    wordsBytes (ws ++ us) = wordsBytes ws ++ wordsBytes us := List.flatMap_append

theorem wordsBytes_zeros (k : Nat) :
    wordsBytes (List.replicate k 0) = List.replicate (2*k) 0 := by
  induction k with
  | zero => rfl
  | succ k ih =>
    have hstep : wordsBytes (List.replicate (k+1) 0) = [0,0] ++ wordsBytes (List.replicate k 0) :=
      rfl
    rw [hstep,ih]
    rfl

/-- A run of zero words, and the words around it. -/
theorem wordsBytes_run {ws : List Nat} {b k : Nat} (h : Runs.Within (ZeroAt ws) ws.length b k) :
    wordsBytes ws = wordsBytes (ws.take b) ++
      (List.replicate (2*k) 0 ++ wordsBytes (ws.drop (b+k))) := by
  have hzero : (ws.drop b).take k = List.replicate k 0 := by
    have hfits := h.fits
    refine List.ext_getElem? fun i => ?_
    by_cases hi : i < k
    · rw [List.getElem?_take_of_lt hi,List.getElem?_drop,List.getElem?_replicate_of_lt hi]
      exact h.all (b+i) (Nat.le_add_right b i) (by omega)
    · rw [List.getElem?_eq_none (by rw [List.length_take]; omega),
        List.getElem?_eq_none (by rw [List.length_replicate]; omega)]
  conv_lhs => rw [split_run ws b k]
  rw [wordsBytes_append,wordsBytes_append,hzero,wordsBytes_zeros]

theorem inetPton6_encapsulated {mid : List Nat} {q : List Byte} (hmid : ∀ w ∈ mid, w ≤ 0xffff)
    (hq : q.length = 4) (hroom : 2 * mid.length + 4 < 16) :
    inetPton6 (colon :: colon :: (lead mid ++ quadText q)) =
      some (List.replicate (16 - (2 * mid.length + 4)) 0 ++ (wordsBytes mid ++ q)) := by
  have hcolons := @inetPton6_colons [] (by simp) (by decide) (lead mid ++ quadText q)
  have hcur : (if mid = [] then lead mid ++ quadText q else quadText q) = quadText q := by
    split
    · rename_i h
      rw [h]
      rfl
    · rfl
  have hshift := shift_gap [] (wordsBytes mid ++ q)
    (by rw [List.length_append,wordsBytes_length,hq]; simpa using hroom)
  rw [List.nil_append,List.nil_append,List.length_nil,Nat.zero_add,List.length_append,
    wordsBytes_length,hq] at hshift
  refine hcolons.trans ?_
  have hfits : (wordsBytes [] ++ wordsBytes mid).length = 2 * mid.length := wordsBytes_length mid
  rw [pton6Loop_lead (wordsBytes []) _ _ hmid (show 0 + 2 * mid.length ≤ 16 by omega),hcur,
    pton6_quadText _ hq (by omega)]
  exact congrArg some hshift

theorem inetPton6_ntopText {src : List Byte} (h : src.length = 16) :
    inetPton6 (ntopText src) = some src := by
  have h8 := words_length src
  have hwords : ∀ w ∈ words src, w ≤ 0xffff := fun w hw => Nat.le_of_lt_succ (words_lt hw)
  have hsrc := wordsBytes_words h
  rcases ntopText_cases src with ⟨-,htext⟩ | ⟨r,htwo,hlongest,⟨henc,htext⟩ | ⟨-,htext⟩⟩
  · rw [htext]
    cases hall : words src with
    | nil => simp [hall] at h8
    | cons w ws =>
      rw [hall] at h8 hwords hsrc
      have hread := pton6_hexJoin [] (hexJoin (w :: ws)) none hwords (by simp [h8])
      rw [hexJoin,inetPton6_word]
      refine hread.trans ?_
      rw [List.nil_append,hsrc]
      exact if_pos h
  · obtain ⟨hbase,hlen⟩ := henc
    generalize hmid : ((words src).drop r.len).take (6-r.len) = mid
    have hmidlen : mid.length = 6 - r.len := by
      rw [← hmid,List.length_take,List.length_drop]
      omega
    have hmidwords : ∀ w ∈ mid, w ≤ 0xffff := fun w hw =>
      hwords w (List.mem_of_mem_drop (List.mem_of_mem_take (hmid ▸ hw)))
    rw [← h8,hbase] at hlongest
    have hrun := wordsBytes_run hlongest.toWithin
    have hlast : (words src).drop (0+r.len) = mid ++ (words src).drop 6 := by
      have hsix : (words src).drop 6 = ((words src).drop r.len).drop (6-r.len) := by
        rw [List.drop_drop]
        congr 1
        omega
      rw [Nat.zero_add,hsix,← hmid,List.take_append_drop]
    have hquad : wordsBytes ((words src).drop 6) = src.drop 12 := by
      have hsplit := congrArg wordsBytes (List.take_append_drop 6 (words src))
      rw [wordsBytes_append,hsrc] at hsplit
      have htwelve : (wordsBytes ((words src).take 6)).length = 12 := by
        rw [wordsBytes_length,List.length_take,h8]
        rfl
      have hdrop := congrArg (List.drop 12) hsplit
      rwa [List.drop_append_of_le_length (Nat.le_of_eq htwelve.symm),
        List.drop_eq_nil_of_le (Nat.le_of_eq htwelve),List.nil_append] at hdrop
    rw [hsrc,hlast,wordsBytes_append,hquad] at hrun
    have hq : (src.drop 12).length = 4 := by rw [List.length_drop,h]
    rw [htext,hmid,inetPton6_encapsulated hmidwords hq (by omega),hmidlen,
      show 16 - (2 * (6-r.len) + 4) = 2 * r.len by omega]
    exact congrArg some hrun.symm
  · have hhs : ∀ w ∈ (words src).take r.base, w ≤ 0xffff := fun w hw =>
      hwords w (List.mem_of_mem_take hw)
    have hts : ∀ w ∈ (words src).drop (r.base+r.len), w ≤ 0xffff := fun w hw =>
      hwords w (List.mem_of_mem_drop hw)
    have hfit := hlongest.fits
    have hcount : ((words src).take r.base).length + ((words src).drop (r.base+r.len)).length +
        r.len = 8 := by
      rw [List.length_take,List.length_drop]
      omega
    rw [htext,inetPton6_colonText hhs hts (by omega),shift_gap _ _ (by
      rw [wordsBytes_length,wordsBytes_length]
      omega)]
    rw [← h8] at hlongest
    have hrun := wordsBytes_run hlongest.toWithin
    rw [hsrc] at hrun
    rw [wordsBytes_length,wordsBytes_length,
      show 16 - (2 * ((words src).take r.base).length +
        2 * ((words src).drop (r.base+r.len)).length) = 2 * r.len by omega]
    exact congrArg some hrun.symm

theorem zero_notMem_hexText (n : Nat) : (0 : Byte) ∉ hexText n := by
  have hdigits : ∀ d < 16, xdigitsL.getD d 0 ≠ 0 := by decide
  induction n using Nat.strongRecOn with
  | ind n ih =>
    rw [hexText]
    split
    · rename_i hn
      simpa using (hdigits n hn).symm
    · intro h
      rcases List.mem_append.mp h with h | h
      · exact ih (n / 16) (by omega) h
      · exact hdigits (n % 16) (Nat.mod_lt _ (by decide)) (List.mem_singleton.mp h).symm

theorem zero_notMem_words (ws : List Nat) :
    (0 : Byte) ∉ hexJoin ws ∧ (0 : Byte) ∉ behind ws ∧ (0 : Byte) ∉ lead ws := by
  have hcolon : (0 : Byte) ≠ colon := by decide
  induction ws with
  | nil => simp [hexJoin,behind,lead]
  | cons w ws ih =>
    obtain ⟨-,hbehind,hlead⟩ := ih
    have hw := zero_notMem_hexText w
    have hb : behind (w :: ws) = colon :: (hexText w ++ behind ws) := rfl
    have hl : lead (w :: ws) = hexText w ++ [colon] ++ lead ws := rfl
    simp [hexJoin,hb,hl,hw,hbehind,hlead,hcolon]

theorem zero_notMem_quadText (src : List Byte) : (0 : Byte) ∉ quadText src := by
  have hdot : (0 : Byte) ≠ dot := by decide
  have hn : ∀ n : Nat, (0 : Byte) ∉ decimalText n := fun n h =>
    absurd (decimalText_isdigit h) (by decide)
  simp [quadText,hn,hdot]

theorem zero_notMem_ntopText (src : List Byte) : (0 : Byte) ∉ ntopText src := by
  have hcolon : (0 : Byte) ≠ colon := by decide
  rcases ntopText_cases src with ⟨-,htext⟩ | ⟨r,-,-,⟨-,htext⟩ | ⟨-,htext⟩⟩
  · rw [htext]
    exact (zero_notMem_words _).1
  · have hquad := zero_notMem_quadText (src.drop 12)
    have hlead := (zero_notMem_words (((words src).drop r.len).take (6-r.len))).2.2
    simp [htext,hcolon,hquad,hlead]
  · have hh := (zero_notMem_words ((words src).take r.base)).1
    have ht := (zero_notMem_words ((words src).drop (r.base+r.len))).1
    simp [htext,colonText,hcolon,hh,ht]

theorem strcpy_text {dst tmp m : List Byte} (h0 : 0 ∉ tmp)
    (h : strcpy dst (.ok tmp) = some (.ok m)) :
    CString.text 0 m = tmp := by
  obtain ⟨m',hm',heq⟩ := Option.map_eq_some_iff.mp h
  cases heq
  have hroom : tmp.length < dst.length := by
    have hbound := Memory.store_bound hm'
    rw [List.length_append,List.length_singleton] at hbound
    omega
  obtain ⟨m',hstore,-,hholds⟩ := CString.sprintf_front 0 hroom
  rw [hm'] at hstore
  cases hstore
  rw [hholds.text_eq,CString.text_eq_self h0]

/-- An address of the family `af`. -/
def IsAddress (af : Nat) (src : List Byte) : Prop :=
  af = Sa.AF_INET ∧ src.length = 4 ∨ af = Sa.AF_INET6 ∧ src.length = 16

theorem strcpy_ok {dst tmp : List Byte} (h : tmp.length < dst.length) :
    ∃ m, strcpy dst (.ok tmp) = some (.ok m) := by
  obtain ⟨m,hm,-⟩ := CString.sprintf_front 0 h
  exact ⟨m,by rw [strcpy,hm]; rfl⟩

def addressText (af : Nat) (src : List Byte) : List Byte :=
  if af = Sa.AF_INET then quadText src else ntopText src

theorem inet6_ne_inet : Sa.AF_INET6 ≠ Sa.AF_INET := by decide

theorem inetPton_addressText {af : Nat} {src : List Byte} (ha : IsAddress af src) :
    inetPton af (addressText af src) = .ok (some src) := by
  unfold inetPton addressText
  rcases ha with ⟨rfl,hlen⟩ | ⟨rfl,hlen⟩
  · rw [if_pos rfl,if_pos rfl,inetPton4_quadText hlen]
  · rw [if_neg inet6_ne_inet,if_pos rfl,if_neg inet6_ne_inet,inetPton6_ntopText hlen]

theorem inetNtop_text {af size : Nat} {src dst m : List Byte} (ha : IsAddress af src)
    (h : inetNtop af src dst size = some (.ok m)) : CString.text 0 m = addressText af src := by
  unfold inetNtop at h
  unfold addressText
  rcases ha with ⟨rfl,-⟩ | ⟨rfl,-⟩
  · rw [if_pos rfl,inetNtop4] at h
    rw [if_pos rfl]
    split at h
    · cases h
    · exact strcpy_text (zero_notMem_quadText src) h
  · rw [if_neg inet6_ne_inet,if_pos rfl,inetNtop6_eq] at h
    rw [if_neg inet6_ne_inet]
    split at h
    · cases h
    · exact strcpy_text (zero_notMem_ntopText src) h

/-- 46 is `INET6_ADDRSTRLEN`. -/
theorem inetNtop_ok {af size : Nat} {src dst : List Byte} (ha : IsAddress af src)
    (hsize : 46 ≤ size) (hdst : size ≤ dst.length) :
    ∃ m, inetNtop af src dst size = some (.ok m) := by
  have hquad := quadText_length src
  have htext := ntopText_length src
  unfold inetNtop
  rcases ha with ⟨rfl,-⟩ | ⟨rfl,-⟩
  · rw [if_pos rfl,inetNtop4,if_neg (by omega)]
    exact strcpy_ok (by omega)
  · rw [if_neg inet6_ne_inet,if_pos rfl,inetNtop6_eq,if_neg (by omega)]
    exact strcpy_ok (by omega)

/-- `inet_pton` reads back whatever string `inet_ntop` leaves in the caller's memory, and with
room for `INET6_ADDRSTRLEN` characters it leaves one. -/
theorem inetPton_inetNtop {af size : Nat} {src dst : List Byte} (ha : IsAddress af src) :
    (46 ≤ size → size ≤ dst.length → ∃ m, inetNtop af src dst size = some (.ok m)) ∧
    ∀ m, inetNtop af src dst size = some (.ok m) →
      inetPton af (CString.text 0 m) = .ok (some src) := by
  refine ⟨inetNtop_ok ha,fun m h => ?_⟩
  rw [inetNtop_text ha h]
  exact inetPton_addressText ha

theorem inetPton_inetNtop_loopback :
    (∃ m, inetNtop Sa.AF_INET6 (List.replicate 15 0 ++ [1]) (List.replicate 46 7) 46 =
      some (.ok m)) ∧ ∀ m, inetNtop Sa.AF_INET6 (List.replicate 15 0 ++ [1])
      (List.replicate 46 7) 46 = some (.ok m) →
      inetPton Sa.AF_INET6 (CString.text 0 m) = .ok (some (List.replicate 15 0 ++ [1])) :=
  have h := @inetPton_inetNtop Sa.AF_INET6 46 (List.replicate 15 0 ++ [1]) (List.replicate 46 7)
    (.inr ⟨rfl,by decide⟩)
  ⟨h.1 (by decide) (by decide),h.2⟩

/-- A `::` stands for the zero words that are missing. Where none is missing it is not ignored:
the words behind it are cleared. -/
theorem inetPton6_colons_at {hs ts : List Nat} (hhs : ∀ h ∈ hs, h ≤ 0xffff)
    (hts : ∀ t ∈ ts, t ≤ 0xffff) (h8 : hs.length + ts.length ≤ 8) :
    inetPton6 (colonText hs ts) = some (wordsBytes hs ++
      if hs.length + ts.length = 8 then List.replicate (2 * ts.length) 0
      else List.replicate (2 * (8 - (hs.length + ts.length))) 0 ++ wordsBytes ts) := by
  rw [inetPton6_colonText hhs hts h8]
  have hlens : (wordsBytes hs).length + (wordsBytes ts).length =
      2 * (hs.length + ts.length) := by
    rw [wordsBytes_length,wordsBytes_length,Nat.mul_add]
  by_cases hall : hs.length + ts.length = 8
  · rw [shift_full _ _ (by omega),if_pos hall,wordsBytes_length]
  · rw [shift_gap _ _ (by omega),if_neg hall,hlens,Nat.mul_sub]

/-- `1:2:3:4:5:6:7::8` is read as `1:2:3:4:5:6:7:0`. -/
theorem inetPton6_colons_at_last :
    inetPton6 (colonText [1,2,3,4,5,6,7] [8]) =
      some (wordsBytes [1,2,3,4,5,6,7] ++ List.replicate 2 0) :=
  @inetPton6_colons_at [1,2,3,4,5,6,7] [8] (by decide) (by decide) (by decide)

theorem inetAton_iff {w : Nat} (hw : 32 ≤ w) (src bytes : List Byte) :
    inetAton w src = some bytes ↔ ∃ parts, parts ≠ [] ∧ src = [dot].intercalate parts ∧
      parts.length ≤ 4 ∧ (∀ q ∈ parts, Part w q) ∧
      bytes = (parts.map fun q => UInt8.ofNat (decimal q % 2^w)) ++
        List.replicate (4 - parts.length) 0 := by
  constructor
  · intro h
    obtain ⟨p,ps,rfl,hdots⟩ := exists_dotted src
    exact ⟨p :: ps,List.cons_ne_nil _ _,dotted_eq p ps,(inetAton_dotted hw hdots bytes).mp h⟩
  · rintro ⟨parts,hne,rfl,hlen,hparts,hbytes⟩
    cases parts with
    | nil => exact absurd rfl hne
    | cons p ps =>
      rw [← dotted_eq,inetAton_dotted hw fun q hq => numeral_dot (hparts q hq).1]
      exact ⟨hlen,hparts,hbytes⟩

/-- What the two readers of IPv4 addresses take: `inet_aton` leaves parts out at the end, takes
empty ones, and knows a number only modulo the width of `u_long`. They agree where both read. -/
theorem inetPton_dialects {w : Nat} (hw : 32 ≤ w) (src bytes : List Byte) :
    (inetPton Sa.AF_INET src = .ok (some bytes) ↔ ∃ parts, src = [dot].intercalate parts ∧
      parts.length = 4 ∧ (∀ q ∈ parts, q ≠ [] ∧ Numeral q ∧ decimal q ≤ 255) ∧
      bytes = parts.map fun q => UInt8.ofNat (decimal q)) ∧
    (inetPtonIpv4 w Sa.AF_INET src = .ok (some bytes) ↔
      ∃ parts, parts ≠ [] ∧ src = [dot].intercalate parts ∧ parts.length ≤ 4 ∧
        (∀ q ∈ parts, Numeral q ∧ decimal q % 2^w ≤ 255) ∧
        bytes = (parts.map fun q => UInt8.ofNat (decimal q % 2^w)) ++
          List.replicate (4 - parts.length) 0) ∧
    (inetPton Sa.AF_INET src = .ok (some bytes) →
      inetPtonIpv4 w Sa.AF_INET src = .ok (some bytes)) := by
  simp only [inetPton,inetPtonIpv4,if_true,Except.ok.injEq]
  refine ⟨inetPton4_iff src bytes,inetAton_iff hw src bytes,fun h => ?_⟩
  obtain ⟨parts,hsrc,hlen,hoctets,hbytes⟩ := (inetPton4_iff src bytes).mp h
  have hword : 255 < 2^w := Nat.lt_of_lt_of_le (by decide) (Nat.pow_le_pow_right (by decide) hw)
  have hsmall : ∀ q ∈ parts, decimal q % 2^w = decimal q := fun q hq =>
    Nat.mod_eq_of_lt (Nat.lt_of_le_of_lt (hoctets q hq).2.2 hword)
  refine (inetAton_iff hw src bytes).mpr ⟨parts,?_,hsrc,Nat.le_of_eq hlen,fun q hq => ?_,?_⟩
  · rintro rfl
    simp at hlen
  · exact ⟨(hoctets q hq).2.1,by rw [hsmall q hq]; exact (hoctets q hq).2.2⟩
  · rw [hlen,hbytes]
    simpa using fun q hq => congrArg UInt8.ofNat (hsmall q hq).symm

theorem inetPton_dialects_short :
    inetPtonIpv4 64 Sa.AF_INET [49,46,50] = .ok (some [1,2,0,0]) :=
  ((inetPton_dialects (by decide : 32 ≤ 64) [49,46,50] [1,2,0,0]).2.1).mpr
    ⟨[[49],[50]],by decide,by decide,by decide,by decide +kernel,by decide +kernel⟩

end InetText
end UnixNet
