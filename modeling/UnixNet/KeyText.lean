import UnixNet.Numerals
import UnixNet.Library.Fallible
set_option autoImplicit false

/-! key/add.c: what `main` makes of its arguments for the length of the key and for the key. -/

namespace UnixNet
open Fallible

/-- The value of a character as a digit, 36 for none. -/
def digitValue (c : Byte) : Nat :=
  if isdigit c then c.toNat - 48
  else if 97 ≤ c ∧ c ≤ 122 then c.toNat - 87
  else if 65 ≤ c ∧ c ≤ 90 then c.toNat - 55
  else 36

def digitIn (base : Nat) (c : Byte) : Bool := digitValue c < base
def isxdigit (c : Byte) : Bool := digitIn 16 c

def number (base : Nat) (ds : List Byte) : Nat := ds.foldl (fun v c => base * v + digitValue c) 0

def ULONG_MAX : Nat := 2^64 - 1

/-- `p[0] == '0' && (p[1] == 'x' || p[1] == 'X')`. -/
def hexPrefix (p : List Byte) : Bool :=
  p[0]? == some 48 && (p[1]? == some 120 || p[1]? == some 88)

/-- The base that `strtoul` finds for base 0, and what is behind the prefix. -/
def radix (cs : List Byte) : Nat × List Byte :=
  if hexPrefix cs && cs[2]?.any isxdigit then (16,cs.drop 2)
  else if cs[0]? = some 48 then (8,cs)
  else (10,cs)

/-- `strtoul(nptr, &ep, 0)`: the value and the string at `ep`, or `none` without a number. -/
def strtoul (nptr : List Byte) : Option (Nat × List Byte) :=
  let (sign,cs) := signed (nptr.dropWhile isspace)
  let (base,ds) := radix cs
  let v := number base (ds.takeWhile (digitIn base))
  if ds.takeWhile (digitIn base) = [] then none
  else
    let v := if ULONG_MAX < v then ULONG_MAX else if sign = -1 then (2^64 - v) % 2^64 else v
    some (v,ds.dropWhile (digitIn base))

/-- The value for `keybits`, or the text of the err_quit. -/
def parseKeybits (arg : List Byte) : Except String Int :=
  match strtoul arg with
  | none => .error "Invalid number of bits %s"
  | some (v,ep) =>
    let keybits := toInt v
    if ep ≠ [] ∨ keybits.tmod 8 ≠ 0 then .error "Invalid number of bits %s" else .ok keybits

/-- What `%2x` of `sscanf` stores, or `none` where it converts nothing. White space is skipped and
does not count. The C libraries differ in a `0x` with no room for a digit, which some take for 0. -/
def scan2x (bareX : Bool) (p : List Byte) : Option Int :=
  match p.dropWhile isspace with
  | [] => none
  | c :: cs =>
    let second := cs.head?.filter isxdigit
    if c = 43 ∨ c = 45 then
      second.map fun d => if c = 45 then -(digitValue d : Int) else digitValue d
    else if isxdigit c then
      if hexPrefix (c :: cs) then if bareX then some 0 else none
      else some (second.elim (digitValue c : Int) fun d => 16 * digitValue c + digitValue d)
    else none

/-- `*kp++ = c`. -/
def keyByte (c : Int) : Byte := UInt8.ofNat (c % 256).toNat

/-- The loop of `main`: the bytes at `keydata` and the `len` that is left. -/
def keyLoop (bareX : Bool) : Nat → List Byte → Int → Except String (List Byte × Int)
  | 0, _, len => .ok ([],len)
  | n+1, p, len =>
    if len < 2 then .error "%s: not enough bytes (expected %d)"
    else
      match scan2x bareX p with
      | none => .error "%s contains invalid hex digit"
      | some c => (keyLoop bareX n (p.drop 2) (len - 2)).map fun r => (keyByte c :: r.1,r.2)

def keyText (arg : List Byte) : List Byte := if hexPrefix arg then arg.drop 2 else arg

/-- The bytes at `keydata` that are given to `sadb_add`. -/
def parseKey (bareX : Bool) (keybits : Int) (arg : List Byte) : Except String (List Byte) :=
  let p := keyText arg
  match keyLoop bareX (keybits.tdiv 8).toNat p (toInt p.length) with
  | .error text => .error text
  | .ok (keydata,len) =>
    if 0 < len then .error "%s: too many bytes (expected %d)" else .ok keydata

/-! ## What a key should be -/

/-- Hexadecimal digits, one for each 4 bits of the key. -/
def HexText (keybits : Int) (text : List Byte) : Prop :=
  (text.length : Int) = keybits / 4 ∧ ∀ c ∈ text, isxdigit c = true

def pairs : List Byte → List Byte
  | a :: b :: text => UInt8.ofNat (16 * digitValue a + digitValue b) :: pairs text
  | _ => []

/-- A key is accepted if it is what it should be, and only then, for the bytes that it spells. -/
structure ExactHex (bareX : Bool) (keybits : Int) (arg : List Byte) : Prop where
  accepts : (∃ keydata, parseKey bareX keybits arg = .ok keydata) ↔ HexText keybits (keyText arg)
  value : ∀ keydata, parseKey bareX keybits arg = .ok keydata → keydata = pairs (keyText arg)

/-- From `p` on there is a digit, or a sign with a digit, behind white space. -/
def Convertible (bareX : Bool) (p : List Byte) : Prop :=
  (∃ c cs, p.dropWhile isspace = c :: cs ∧ isxdigit c = true ∧
    (hexPrefix (c :: cs) = true → bareX = true)) ∨
  ∃ c d cs, p.dropWhile isspace = c :: d :: cs ∧ (c = 43 ∨ c = 45) ∧ isxdigit d = true

section
variable (bareX : Bool)

theorem xdigit_not_space {c : Byte} (h : isxdigit c = true) :
    isspace c = false ∧ c ≠ 43 ∧ c ≠ 45 ∧ c ≠ 120 ∧ c ≠ 88 := by
  have hall : ∀ n < 256, isxdigit (UInt8.ofNat n) = true →
      isspace (UInt8.ofNat n) = false ∧ UInt8.ofNat n ≠ 43 ∧ UInt8.ofNat n ≠ 45 ∧
        UInt8.ofNat n ≠ 120 ∧ UInt8.ofNat n ≠ 88 := by decide +kernel
  have hc := hall c.toNat c.toNat_lt
  rw [UInt8.ofNat_toNat] at hc
  exact hc h

theorem scan2x_isSome_iff (p : List Byte) :
    (scan2x bareX p).isSome = true ↔ Convertible bareX p := by
  rw [scan2x,Convertible]
  cases p.dropWhile isspace with
  | nil => simp
  | cons c cs =>
    by_cases hsign : c = 43 ∨ c = 45
    · have hdigit : isxdigit c ≠ true := by
        intro h
        have hne := xdigit_not_space h
        exact hsign.elim hne.2.1 hne.2.2.1
      cases cs with
      | nil => simp [hsign,hdigit]
      | cons d cs => simp [hsign,hdigit,Option.filter]
    · by_cases hdigit : isxdigit c = true
      · cases hx : hexPrefix (c :: cs) <;> simp [hsign,hdigit,hx]
      · simp [hsign,hdigit]

theorem scan2x_digits {a b : Byte} (ha : isxdigit a = true) (hb : isxdigit b = true)
    (text : List Byte) :
    scan2x bareX (a :: b :: text) = some ((16 * digitValue a + digitValue b : Nat) : Int) := by
  obtain ⟨hspace,hplus,hminus,-,-⟩ := xdigit_not_space ha
  obtain ⟨-,-,-,hx,hX⟩ := xdigit_not_space hb
  have hnot : hexPrefix (a :: b :: text) = false := by simp [hexPrefix,hx,hX]
  simp [scan2x,hspace,hplus,hminus,ha,hb,hnot,Option.filter]

/-- What a turn of the loop stores for the text at `p`. -/
def storedByte (bareX : Bool) (p : List Byte) : Byte := keyByte ((scan2x bareX p).getD 0)

theorem keyLoop_ok_iff (n : Nat) (p : List Byte) (len : Int) (r : List Byte × Int) :
    keyLoop bareX n p len = .ok r ↔ (n = 0 ∨ 2 * n ≤ len) ∧
      (∀ i < n, Convertible bareX (p.drop (2 * i))) ∧
        r = ((List.range n).map fun i => storedByte bareX (p.drop (2 * i)),len - 2 * n) := by
  induction n generalizing p len r with
  | zero => simp [keyLoop,eq_comm]
  | succ n ih =>
    rw [keyLoop]
    by_cases hlen : len < 2
    · rw [if_pos hlen]
      refine iff_of_false nofun fun h => ?_
      have hroom := h.1.resolve_left (Nat.succ_ne_zero n)
      omega
    · rw [if_neg hlen]
      have hdrop (i : Nat) : p.drop (2 * (i + 1)) = (p.drop 2).drop (2 * i) := by
        rw [List.drop_drop,Nat.mul_add,Nat.mul_one,Nat.add_comm]
      cases hscan : scan2x bareX p with
      | none =>
        refine iff_of_false nofun fun h => ?_
        have hconv := (scan2x_isSome_iff bareX p).mpr (h.2.1 0 (Nat.succ_pos n))
        rw [hscan] at hconv
        cases hconv
      | some c =>
        have hconv : Convertible bareX p := (scan2x_isSome_iff bareX p).mp (by rw [hscan]; rfl)
        have hbyte : storedByte bareX p = keyByte c := by rw [storedByte,hscan,Option.getD_some]
        have hsplit : (∀ i < n + 1, Convertible bareX (p.drop (2 * i))) ↔
            ∀ i < n, Convertible bareX ((p.drop 2).drop (2 * i)) := by
          rw [Nat.forall_lt_succ_left]
          simp only [hdrop]
          exact and_iff_right hconv
        have hbytes : (List.range (n + 1)).map (fun i => storedByte bareX (p.drop (2 * i))) =
            keyByte c ::
              (List.range n).map fun i => storedByte bareX ((p.drop 2).drop (2 * i)) := by
          rw [List.range_succ_eq_map,List.map_cons,List.map_map]
          simp only [Nat.mul_zero,List.drop_zero,hbyte,Function.comp_def,Nat.succ_eq_add_one,hdrop]
        have hleft : len - 2 - 2 * (n : Int) = len - 2 * (n + 1 : Nat) := by omega
        have hroom : n + 1 = 0 ∨ 2 * ((n + 1 : Nat) : Int) ≤ len ↔
            n = 0 ∨ 2 * (n : Int) ≤ len - 2 := by
          omega
        rw [hsplit,hbytes,hroom]
        constructor
        · intro h
          obtain ⟨r',hr',rfl⟩ := map_ok h
          obtain ⟨hle,hall,rfl⟩ := (ih _ _ _).mp hr'
          exact ⟨hle,hall,by rw [hleft]⟩
        · rintro ⟨hle,hall,rfl⟩
          have hrest := (ih (p.drop 2) (len - 2) _).mpr ⟨hle,hall,rfl⟩
          simp only [hrest,Except.map,hleft]

/-- The text is accepted when the lengths agree and every pair can be converted. -/
theorem parseKey_ok_iff {k : Nat} (hk : 0 < k) (arg keydata : List Byte) :
    parseKey bareX (8 * k) arg = .ok keydata ↔ toInt (keyText arg).length = 2 * k ∧
      (∀ i < k, Convertible bareX ((keyText arg).drop (2 * i))) ∧
        keydata = (List.range k).map fun i => storedByte bareX ((keyText arg).drop (2 * i)) := by
  have hturns : ((8 * k : Int).tdiv 8).toNat = k := by
    rw [Int.mul_tdiv_cancel_left _ (by decide)]
    exact Int.toNat_natCast k
  rw [parseKey,hturns]
  cases hloop : keyLoop bareX k (keyText arg) (toInt (keyText arg).length) with
  | error text =>
    refine iff_of_false nofun fun ⟨hlen,hconv,_⟩ => ?_
    have hok := (keyLoop_ok_iff bareX k (keyText arg) (toInt (keyText arg).length) _).mpr
      ⟨.inr (by omega),hconv,rfl⟩
    rw [hok] at hloop
    cases hloop
  | ok r =>
    obtain ⟨hle,hconv,rfl⟩ := (keyLoop_ok_iff bareX _ _ _ _).mp hloop
    have hle := hle.resolve_left hk.ne'
    by_cases hlong : 0 < toInt (keyText arg).length - 2 * k
    · simp only [if_pos hlong]
      exact iff_of_false nofun fun ⟨hlen,_⟩ => by omega
    · simp only [if_neg hlong]
      have hlen : toInt (keyText arg).length = 2 * k := by omega
      constructor
      · rintro ⟨rfl⟩
        exact ⟨hlen,hconv,rfl⟩
      · rintro ⟨-,-,rfl⟩
        rfl

theorem digits_stored (k : Nat) {text : List Byte} (hlen : text.length = 2 * k)
    (hdigit : ∀ c ∈ text, isxdigit c = true) :
    (∀ i < k, Convertible bareX (text.drop (2 * i))) ∧
      ((List.range k).map fun i => storedByte bareX (text.drop (2 * i))) = pairs text := by
  induction k generalizing text with
  | zero =>
    rw [List.eq_nil_of_length_eq_zero hlen]
    exact ⟨nofun,rfl⟩
  | succ k ih =>
    obtain ⟨a,b,text,rfl⟩ : ∃ a b t, text = a :: b :: t := by
      rcases text with _ | ⟨a,_ | ⟨b,t⟩⟩
      · simp at hlen
      · rw [List.length_singleton] at hlen
        omega
      · exact ⟨a,b,t,rfl⟩
    obtain ⟨ha,hb,hrest⟩ : isxdigit a = true ∧ isxdigit b = true ∧
        ∀ c ∈ text, isxdigit c = true := by simpa using hdigit
    obtain ⟨hconv,hpairs⟩ := ih (by simp only [List.length_cons] at hlen; omega) hrest
    have hdrop (i : Nat) : (a :: b :: text).drop (2 * (i + 1)) = text.drop (2 * i) := rfl
    have hscan := scan2x_digits bareX ha hb text
    have hbyte : storedByte bareX (a :: b :: text) =
        UInt8.ofNat (16 * digitValue a + digitValue b) := by
      rw [storedByte,hscan,Option.getD_some,keyByte,← UInt8.toNat_inj,UInt8.toNat_ofNat',
        UInt8.toNat_ofNat']
      omega
    constructor
    · rw [Nat.forall_lt_succ_left]
      refine ⟨(scan2x_isSome_iff bareX _).mp ?_,hconv⟩
      rw [Nat.mul_zero,List.drop_zero,hscan]
      rfl
    · rw [List.range_succ_eq_map,List.map_cons,List.map_map,pairs,← hpairs]
      simp only [Nat.mul_zero,List.drop_zero,hbyte,Function.comp_def,Nat.succ_eq_add_one,hdrop]

theorem hexText_accepted {k : Nat} (hk : 0 < k) (hint : 8 * k < 2^31) {arg : List Byte}
    (h : HexText (8 * k) (keyText arg)) :
    parseKey bareX (8 * k) arg = .ok (pairs (keyText arg)) := by
  have hlen : (keyText arg).length = 2 * k := by
    have hlen := h.1
    omega
  obtain ⟨hconv,hpairs⟩ := digits_stored bareX k hlen h.2
  refine (parseKey_ok_iff bareX hk arg _).mpr ⟨?_,hconv,hpairs.symm⟩
  rw [toInt,hlen,Int.bmod_eq_of_le] <;> omega

end

/-- The key is parsed as it should be exactly when it is hexadecimal, of another length, or has a
pair that `sscanf` cannot convert. -/
theorem parseKey_exact_iff (bareX : Bool) {keybits : Int} (hpos : 0 < keybits)
    (hmult : keybits % 8 = 0) (hint : keybits < 2^31) (arg : List Byte) :
    ExactHex bareX keybits arg ↔ HexText keybits (keyText arg) ∨
      toInt (keyText arg).length ≠ keybits / 4 ∨
        ∃ i : Nat, 8 * i < keybits ∧ ¬ Convertible bareX ((keyText arg).drop (2 * i)) := by
  obtain ⟨k,rfl⟩ : ∃ k : Nat, keybits = 8 * k := ⟨(keybits / 8).toNat,by omega⟩
  have hk : 0 < k := by omega
  have hquarter : 8 * (k : Int) / 4 = 2 * k := by omega
  have hpair (i : Nat) : 8 * (i : Int) < 8 * k ↔ i < k := by omega
  by_cases hhex : HexText (8 * k) (keyText arg)
  · have hok := hexText_accepted bareX hk (by omega) hhex
    refine iff_of_true ⟨iff_of_true ⟨_,hok⟩ hhex,fun keydata h => ?_⟩ (.inl hhex)
    exact Except.ok.inj (h.symm.trans hok)
  · have hnot : ExactHex bareX (8 * k) arg ↔ ∀ keydata, parseKey bareX (8 * k) arg ≠ .ok keydata :=
      ⟨fun h keydata hok => hhex (h.accepts.mp ⟨keydata,hok⟩),fun h =>
        ⟨iff_of_false (fun ⟨keydata,hok⟩ => h keydata hok) hhex,fun keydata hok =>
          absurd hok (h keydata)⟩⟩
    rw [hnot,or_iff_right hhex,hquarter]
    simp only [Ne,parseKey_ok_iff bareX hk,hpair]
    constructor
    · intro h
      by_contra hall
      rw [not_or,not_not,not_exists] at hall
      exact h _ ⟨hall.1,fun i hi => by_contra fun hconv => hall.2 i ⟨hi,hconv⟩,rfl⟩
    · rintro (hlen | ⟨i,hi,hconv⟩) keydata ⟨hlen',hconv',-⟩
      · exact hlen hlen'
      · exact hconv (hconv' i hi)

theorem parseKey_exact_ab : ExactHex false 8 [97,98] ↔ HexText 8 (keyText [97,98]) ∨
    toInt (keyText [97,98]).length ≠ 8 / 4 ∨
      ∃ i : Nat, 8 * i < (8 : Int) ∧ ¬ Convertible false ((keyText [97,98]).drop (2 * i)) :=
  parseKey_exact_iff false (by decide) (by decide) (by decide) _

/-- `ag` is taken for a key of 8 bits. -/
theorem parseKey_not_exact :
    parseKey false 8 [97,103] = .ok [10] ∧ parseKey true 8 [97,103] = .ok [10] ∧
      ¬ HexText 8 (keyText [97,103]) ∧ ¬ ∃ bareX, ExactHex bareX 8 [97,103] := by
  have hnot : ¬ HexText 8 (keyText [97,103]) := fun h => absurd (h.2 103 (by decide)) (by decide)
  refine ⟨by decide +kernel,by decide +kernel,hnot,?_⟩
  rintro ⟨bareX,h⟩
  cases bareX with
  | false => exact hnot (h.accepts.mp ⟨[10],by decide +kernel⟩)
  | true => exact hnot (h.accepts.mp ⟨[10],by decide +kernel⟩)

/-- White space, a sign and a digit on its own are taken as well. -/
example : parseKey false 32 [32,32,45,49,43,49,97,32] = .ok [0xff,0xff,1,10] := by
  decide +kernel

end UnixNet
