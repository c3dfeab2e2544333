import Mathlib.Data.List.TakeWhile
import UnixNet.WebChild
set_option autoImplicit false

/-! Decimal numerals as `atol` and `sscanf` read them and `snprintf` writes them. -/

namespace UnixNet

/-- An optional sign, and what follows it. -/
def signed (s : List Byte) : Int × List Byte :=
  match s with
  | [] => (1,[])
  | c :: cs => if c = 45 then (-1,cs) else if c = 43 then (1,cs) else (1,c :: cs)

/-- The value of the numeral at the start of a line, 0 if there is none. -/
def numeral (line : List Byte) : Int :=
  let (sign,cs) := signed (line.dropWhile isspace)
  sign * decimal (cs.takeWhile isdigit)

theorem atol_eq (line : List Byte) : atol line = saturate (numeral line) := by
  unfold atol numeral signed
  cases line.dropWhile isspace with
  | nil => rfl
  | cons c cs =>
    simp only
    by_cases hminus : c = 45
    · simp only [if_pos hminus,Int.neg_mul,Int.one_mul]
    · by_cases hplus : c = 43
      · simp only [if_neg hminus,if_pos hplus,Int.one_mul]
      · simp only [if_neg hminus,if_neg hplus,Int.one_mul]

/-- `%ld` of `sscanf`: the value and what follows, or a matching failure. -/
def scanLong (line : List Byte) : Option (Int × List Byte) :=
  let (sign,cs) := signed (line.dropWhile isspace)
  if cs.takeWhile isdigit = [] then none
  else some (sign * decimal (cs.takeWhile isdigit),cs.dropWhile isdigit)

/-- `l` starts with an integer, after white space, and `t` follows it. -/
def Integer (l : List Byte) (v : Int) (t : List Byte) : Prop :=
  ∃ ws sign ds, l = ws ++ (sign ++ (ds ++ t)) ∧ (∀ c ∈ ws, isspace c = true) ∧
    (sign = [45] ∧ v = -decimal ds ∨ (sign = [43] ∨ sign = []) ∧ v = decimal ds) ∧
    ds ≠ [] ∧ (∀ c ∈ ds, isdigit c = true) ∧ ∀ c u, t = c :: u → isdigit c = false

theorem while_split {p : Byte → Bool} {ds t : List Byte} (hds : ∀ c ∈ ds, p c = true)
    (ht : ∀ c u, t = c :: u → p c = false) :
    (ds ++ t).takeWhile p = ds ∧ (ds ++ t).dropWhile p = t := by
  induction ds with
  | nil =>
    cases t with
    | nil => exact ⟨rfl,rfl⟩
    | cons c u =>
      have hc := ht c u rfl
      simp [hc]
  | cons d ds ih =>
    obtain ⟨hd,hds⟩ := List.forall_mem_cons.mp hds
    simpa [hd] using ih hds

theorem digit_not_sign {c : Byte} (h : isdigit c = true) :
    isspace c = false ∧ c ≠ 45 ∧ c ≠ 43 := by
  have hall : ∀ n < 256, isdigit (UInt8.ofNat n) = true →
      isspace (UInt8.ofNat n) = false ∧ UInt8.ofNat n ≠ 45 ∧ UInt8.ofNat n ≠ 43 := by decide +kernel
  have hc := hall c.toNat c.toNat_lt
  rw [UInt8.ofNat_toNat] at hc
  exact hc h

theorem signed_split {sign ds t : List Byte} (hne : ds ≠ []) (hds : ∀ c ∈ ds, isdigit c = true)
    (hsign : sign = [45] ∨ sign = [43] ∨ sign = []) :
    signed (sign ++ (ds ++ t)) = (if sign = [45] then -1 else 1,ds ++ t) ∧
      ∀ c u, sign ++ (ds ++ t) = c :: u → isspace c = false := by
  obtain ⟨d,ds,rfl⟩ := List.exists_cons_of_ne_nil hne
  obtain ⟨hspace,hminus,hplus⟩ := digit_not_sign (hds d List.mem_cons_self)
  rcases hsign with rfl | rfl | rfl
  · refine ⟨by simp [signed],fun c u h => ?_⟩
    obtain ⟨rfl,_⟩ := List.cons.inj h
    decide
  · refine ⟨by simp [signed],fun c u h => ?_⟩
    obtain ⟨rfl,_⟩ := List.cons.inj h
    decide
  · refine ⟨by simp [signed,hminus,hplus],fun c u h => ?_⟩
    obtain ⟨rfl,_⟩ := List.cons.inj h
    exact hspace

theorem signed_cases (s : List Byte) : ∃ sign cs, s = sign ++ cs ∧
    (sign = [45] ∧ signed s = (-1,cs) ∨ (sign = [43] ∨ sign = []) ∧ signed s = (1,cs)) := by
  cases s with
  | nil => exact ⟨[],[],rfl,.inr ⟨.inr rfl,rfl⟩⟩
  | cons c cs =>
    by_cases hminus : c = 45
    · exact ⟨[45],cs,by simp [hminus],.inl ⟨rfl,by simp [signed,hminus]⟩⟩
    · by_cases hplus : c = 43
      · exact ⟨[43],cs,by simp [hplus],.inr ⟨.inl rfl,by simp [signed,hplus]⟩⟩
      · exact ⟨[],c :: cs,rfl,.inr ⟨.inr rfl,by simp [signed,hminus,hplus]⟩⟩

theorem dropWhile_head {p : Byte → Bool} {l : List Byte} {c : Byte} {u : List Byte}
    (h : l.dropWhile p = c :: u) : p c = false := by
  have hhead := List.head?_dropWhile_not p l
  rw [h] at hhead
  simpa using hhead

/-- What is scanned is the integer at the start, and there is only one. -/
theorem scanLong_iff (l : List Byte) (v : Int) (t : List Byte) :
    scanLong l = some (v,t) ↔ Integer l v t := by
  constructor
  · intro h
    obtain ⟨sign,cs,hcs,hsign⟩ := signed_cases (l.dropWhile isspace)
    have hl : l = l.takeWhile isspace ++
        (sign ++ (cs.takeWhile isdigit ++ cs.dropWhile isdigit)) := by
      rw [List.takeWhile_append_dropWhile,← hcs,List.takeWhile_append_dropWhile]
    have hvalue : ∀ k : Int, signed (l.dropWhile isspace) = (k,cs) →
        cs.takeWhile isdigit ≠ [] ∧ k * decimal (cs.takeWhile isdigit) = v ∧
          cs.dropWhile isdigit = t := by
      intro k hk
      simp only [scanLong,hk] at h
      obtain ⟨hne,h⟩ := Option.ite_none_left_eq_some.mp h
      cases h
      exact ⟨hne,rfl,rfl⟩
    have hhead : ∀ c u, cs.dropWhile isdigit = c :: u → isdigit c = false :=
      fun c u hc => dropWhile_head hc
    have hspace : ∀ c ∈ l.takeWhile isspace, isspace c = true := fun c hc =>
      List.mem_takeWhile_imp hc
    have hdigit : ∀ c ∈ cs.takeWhile isdigit, isdigit c = true := fun c hc =>
      List.mem_takeWhile_imp hc
    rcases hsign with ⟨rfl,hk⟩ | ⟨hplus,hk⟩
    · obtain ⟨hne,rfl,rfl⟩ := hvalue _ hk
      exact ⟨_,_,_,hl,hspace,.inl ⟨rfl,by omega⟩,hne,hdigit,hhead⟩
    · obtain ⟨hne,rfl,rfl⟩ := hvalue _ hk
      exact ⟨_,_,_,hl,hspace,.inr ⟨hplus,by omega⟩,hne,hdigit,hhead⟩
  · rintro ⟨ws,sign,ds,rfl,hws,hsign,hne,hds,ht⟩
    obtain ⟨hsplit,hhead⟩ := signed_split (t := t) hne hds
      (hsign.elim (fun h => .inl h.1) fun h => .inr h.1)
    obtain ⟨htake,hdrop⟩ := while_split hds ht
    simp only [scanLong,(while_split hws hhead).2,hsplit,htake,hdrop,if_neg hne]
    rcases hsign with ⟨rfl,rfl⟩ | ⟨hplus,rfl⟩
    · simp
    · have hno : sign ≠ [45] := by rcases hplus with rfl | rfl <;> decide
      simp [hno]

theorem numeral_of_integer {l t : List Byte} {v : Int} (h : Integer l v t) : numeral l = v := by
  have hscan := (scanLong_iff l v t).mpr h
  unfold scanLong at hscan
  obtain ⟨_,hsome⟩ := Option.ite_none_left_eq_some.mp hscan
  cases hsome
  rfl

/-- `%d` of `snprintf` for a number that is not negative. -/
def decimalText (n : Nat) : List Byte :=
  if n < 10 then [UInt8.ofNat (48 + n)] else decimalText (n / 10) ++ [UInt8.ofNat (48 + n % 10)]

def longText (v : Int) : List Byte :=
  if v < 0 then 45 :: decimalText v.natAbs else decimalText v.natAbs

/-- `snprintf(buf, size, ...)` stores no more than `size - 1` bytes of the text and a NUL. -/
def snprintf (size : Nat) (text : List Byte) : List Byte := text.take (size - 1)

theorem digit_spec : ∀ d < 10, isdigit (UInt8.ofNat (48 + d)) = true ∧
    isspace (UInt8.ofNat (48 + d)) = false ∧ UInt8.ofNat (48 + d) ≠ 0 ∧
    UInt8.ofNat (48 + d) ≠ newline ∧ (UInt8.ofNat (48 + d)).toNat - 48 = d := by decide

theorem decimalText_digit {n : Nat} {c : Byte} (hc : c ∈ decimalText n) :
    ∃ d < 10, c = UInt8.ofNat (48 + d) := by
  induction n using Nat.strongRecOn with
  | ind n ih =>
    rw [decimalText] at hc
    split at hc
    · rename_i hn
      exact ⟨n,hn,List.mem_singleton.mp hc⟩
    · rename_i hn
      rcases List.mem_append.mp hc with hc | hc
      · exact ih (n / 10) (by omega) hc
      · exact ⟨n % 10,by omega,List.mem_singleton.mp hc⟩

theorem decimalText_ne_nil (n : Nat) : decimalText n ≠ [] := by
  rw [decimalText]
  split <;> simp

theorem decimal_append (ds : List Byte) (c : Byte) :
    decimal (ds ++ [c]) = 10 * decimal ds + (c.toNat - 48) := by simp [decimal]

theorem decimal_decimalText (n : Nat) : decimal (decimalText n) = n := by
  induction n using Nat.strongRecOn with
  | ind n ih =>
    rw [decimalText]
    split
    · rename_i hn
      have hd := (digit_spec n hn).2.2.2.2
      simpa [decimal] using hd
    · rename_i hn
      have hd := (digit_spec (n % 10) (by omega)).2.2.2.2
      rw [decimal_append,ih (n / 10) (by omega),hd]
      omega

theorem decimalText_length {n k : Nat} (hk : 0 < k) (h : n < 10 ^ k) :
    (decimalText n).length ≤ k := by
  induction k generalizing n with
  | zero => omega
  | succ k ih =>
    rw [decimalText]
    split
    · simp
    · rename_i hn
      have hpos : 0 < k := by
        rcases Nat.eq_zero_or_pos k with rfl | hpos
        · omega
        · exact hpos
      have hlt : n / 10 < 10 ^ k := by
        rw [Nat.pow_succ] at h
        omega
      have hlen := ih hpos hlt
      simp only [List.length_append,List.length_singleton]
      omega

theorem longText_length {v : Int} {k : Nat} (hk : 0 < k) (h : v.natAbs < 10 ^ k) :
    (longText v).length ≤ k + 1 := by
  have hlen := decimalText_length hk h
  unfold longText
  split
  · simpa using hlen
  · omega

theorem snprintf_eq {size : Nat} {text : List Byte} (h : text.length < size) :
    snprintf size text = text := List.take_of_length_le (by omega)

theorem decimalText_isdigit {n : Nat} {c : Byte} (hc : c ∈ decimalText n) :
    isdigit c = true := by
  obtain ⟨d,hd,rfl⟩ := decimalText_digit hc
  exact (digit_spec d hd).1

/-- What `%ld` prints is the integer that `%ld` scans. -/
theorem integer_longText (v : Int) {t : List Byte} (ht : ∀ c u, t = c :: u → isdigit c = false) :
    Integer (longText v ++ t) v t := by
  have hdigits : ∀ c ∈ decimalText v.natAbs, isdigit c = true := fun _ hc => decimalText_isdigit hc
  have hvalue := decimal_decimalText v.natAbs
  unfold longText
  split
  · refine ⟨[],[45],decimalText v.natAbs,rfl,by simp,.inl ⟨rfl,?_⟩,decimalText_ne_nil _,hdigits,ht⟩
    omega
  · refine ⟨[],[],decimalText v.natAbs,rfl,by simp,.inr ⟨.inr rfl,?_⟩,decimalText_ne_nil _,
      hdigits,ht⟩
    omega

theorem longText_plain (v : Int) : newline ∉ longText v ∧ 0 ∉ longText v := by
  have hdigits : ∀ n, newline ∉ decimalText n ∧ 0 ∉ decimalText n := by
    refine fun n => ⟨fun hmem => ?_,fun hmem => ?_⟩
    · obtain ⟨d,hd,heq⟩ := decimalText_digit hmem
      exact (digit_spec d hd).2.2.2.1 heq.symm
    · obtain ⟨d,hd,heq⟩ := decimalText_digit hmem
      exact (digit_spec d hd).2.2.1 heq.symm
  unfold longText
  split
  · simpa [newline] using hdigits v.natAbs
  · exact hdigits v.natAbs

end UnixNet
