import Mathlib.Algebra.Ring.Nat
import Mathlib.Data.List.Induction
import UnixNet.Library.CString
import UnixNet.Library.Runs
import UnixNet.Numerals
import UnixNet.SocketAddress
set_option autoImplicit false

/-! libfree/inet_ntop.c and libfree/inet_ntop_ipv4.c: the text of an address. -/

namespace UnixNet
namespace InetText
open Runs

def ENOSPC : Errno := .other 28
def EAFNOSUPPORT : Errno := .other 97

def dot : Byte := 46
def colon : Byte := 58

def xdigitsL : List Byte := [48,49,50,51,52,53,54,55,56,57,97,98,99,100,101,102]
def xdigitsU : List Byte := [48,49,50,51,52,53,54,55,56,57,65,66,67,68,69,70]

/-- `%x` of `sprintf`. -/
def hexText (n : Nat) : List Byte :=
  if n < 16 then [xdigitsL.getD n 0] else hexText (n / 16) ++ [xdigitsL.getD (n % 16) 0]

/-- `%u.%u.%u.%u` for the first four bytes. -/
def quadText (src : List Byte) : List Byte :=
  decimalText (src.getD 0 0).toNat ++ dot :: (decimalText (src.getD 1 0).toNat ++
    dot :: (decimalText (src.getD 2 0).toNat ++ dot :: decimalText (src.getD 3 0).toNat))

/-- What `inet_ntop4` has in `tmp` when it comes to copy it. -/
def inetNtop4 (src : List Byte) (size : Nat) : Except Errno (List Byte) :=
  let tmp := quadText src
  if size < tmp.length then .error ENOSPC else .ok tmp

/-- The bytewise array copied into a wordwise one. -/
def words (src : List Byte) : List Nat :=
  (List.range 16).foldl
    (fun ws i => ws.modify (i / 2) (· ||| (src.getD i 0).toNat <<< ((1 - i % 2) <<< 3)))
    (List.replicate 8 0)

/-- `best` and `cur`, where `none` stands for a `base` of -1. -/
structure Scan where
  best : Option Run
  cur : Option Run
  deriving DecidableEq, Repr

def Scan.step (s : Scan) (i w : Nat) : Scan :=
  if w = 0 then
    match s.cur with
    | none => { s with cur := some ⟨i,1⟩ }
    | some cur => { s with cur := some ⟨cur.base,cur.len+1⟩ }
  else
    match s.cur with
    | none => s
    | some cur => ⟨some (keep s.best cur),none⟩

def scan : Scan → Nat → List Nat → Scan
  | s, _, [] => s
  | s, i, w :: ws => scan (s.step i w) (i+1) ws

/-- The run of zero words that `::` stands for. -/
def bestRun (ws : List Nat) : Option Run :=
  let s := scan ⟨none,none⟩ 0 ws
  let best := match s.cur with
    | none => s.best
    | some cur => some (keep s.best cur)
  best.filter fun r => 2 ≤ r.len

def inside (best : Option Run) (i : Nat) : Bool :=
  best.any fun r => r.base ≤ i && i < r.base + r.len

/-- Is this address an encapsulated IPv4? -/
def encapsulated (best : Option Run) (ws : List Nat) (i : Nat) : Bool :=
  i == 6 && best.any fun r => r.base == 0 && (r.len == 6 || r.len == 5 && ws[5]? == some 0xffff)

/-- The loop that formats the words; the text is what lies between `tmp` and `tp`. -/
def format (best : Option Run) (ws : List Nat) (src : List Byte) :
    List Byte → Nat → List Nat → Except Errno (List Byte)
  | text, _, [] => .ok text
  | text, i, w :: rest =>
    if inside best i then
      format best ws src (if best.any (·.base == i) then text ++ [colon] else text) (i+1) rest
    else
      let text := if i ≠ 0 then text ++ [colon] else text
      if encapsulated best ws i then
        (inetNtop4 (src.drop 12) (46 - text.length)).map (text ++ ·)
      else format best ws src (text ++ hexText w) (i+1) rest

/-- What `inet_ntop6` has in `tmp` when it comes to copy it. -/
def inetNtop6 (src : List Byte) (size : Nat) : Except Errno (List Byte) := do
  let ws := words src
  let best := bestRun ws
  let text ← format best ws src [] 0 ws
  let tmp := if best.any (fun r => r.base + r.len == 8) then text ++ [colon] else text
  if size < tmp.length + 1 then throw ENOSPC else pure tmp

/-- `strcpy(dst, tmp)`, which fails where it writes behind the end of `dst`. -/
def strcpy (dst : List Byte) : Except Errno (List Byte) → Option (Except Errno (List Byte))
  | .error e => some (.error e)
  | .ok tmp => (CString.sprintf 0 dst 0 tmp).map .ok

def inetNtop (af : Nat) (src dst : List Byte) (size : Nat) : Option (Except Errno (List Byte)) :=
  if af = Sa.AF_INET then strcpy dst (inetNtop4 src size)
  else if af = Sa.AF_INET6 then strcpy dst (inetNtop6 src size)
  else some (.error EAFNOSUPPORT)

/-- `inet_ntop` of inet_ntop_ipv4.c. -/
def inetNtopIpv4 (af : Nat) (src dst : List Byte) (len : Nat) :
    Option (Except Errno (List Byte)) :=
  if af = Sa.AF_INET then
    let temp := UnixNet.snprintf 16 (quadText src)
    strcpy dst (if len ≤ temp.length then .error ENOSPC else .ok temp)
  else some (.error EAFNOSUPPORT)

/-! ## Numerals -/

theorem hexText_ne_nil (n : Nat) : hexText n ≠ [] := by
  rw [hexText]
  split <;> simp

theorem hexText_length {n k : Nat} (hk : 0 < k) (h : n < 16^k) : (hexText n).length ≤ k := by
  induction k generalizing n with
  | zero => omega
  | succ k ih =>
    rw [hexText]
    split
    · simp
    · rename_i hn
      have hpos : 0 < k := by
        rcases Nat.eq_zero_or_pos k with rfl | hpos
        · omega
        · exact hpos
      have hlt : n / 16 < 16^k := by
        rw [Nat.pow_succ] at h
        omega
      have hlen := ih hpos hlt
      simp only [List.length_append,List.length_singleton]
      omega

theorem quadText_length (src : List Byte) : (quadText src).length ≤ 15 := by
  have hbyte : ∀ i, (decimalText (src.getD i 0).toNat).length ≤ 3 := fun i =>
    decimalText_length (by decide) (Nat.lt_trans (src.getD i 0).toNat_lt (by decide))
  have h0 := hbyte 0
  have h1 := hbyte 1
  have h2 := hbyte 2
  have h3 := hbyte 3
  simp only [quadText,List.length_append,List.length_cons]
  omega

/-! ## The words -/

def wordBytes (w : Nat) : List Byte := [UInt8.ofNat (w >>> 8),UInt8.ofNat w]

def wordsBytes (ws : List Nat) : List Byte := ws.flatMap wordBytes

theorem words_eq (src : List Byte) : words src = (List.range 8).map fun j =>
    0 ||| (src.getD (2*j) 0).toNat <<< 8 ||| (src.getD (2*j+1) 0).toNat <<< 0 := rfl

theorem word_eq (a b : Byte) : 0 ||| a.toNat <<< 8 ||| b.toNat <<< 0 = a.toNat * 256 + b.toNat := by
  rw [Nat.zero_or,Nat.shiftLeft_zero,← Nat.shiftLeft_add_eq_or_of_lt b.toNat_lt,Nat.shiftLeft_eq]

theorem wordBytes_word (a b : Byte) : wordBytes (a.toNat * 256 + b.toNat) = [a,b] := by
  have hb := b.toNat_lt
  have hhigh : (a.toNat * 256 + b.toNat) >>> 8 = a.toNat := by
    rw [Nat.shiftRight_eq_div_pow]
    omega
  rw [wordBytes,hhigh,UInt8.ofNat_toNat]
  congr 2
  apply UInt8.toNat_inj.mp
  rw [UInt8.toNat_ofNat']
  omega

theorem words_length (src : List Byte) : (words src).length = 8 := by simp [words_eq]

theorem words_lt {src : List Byte} {w : Nat} (h : w ∈ words src) : w < 0x10000 := by
  rw [words_eq] at h
  obtain ⟨j,-,rfl⟩ := List.mem_map.mp h
  rw [word_eq]
  have ha := (src.getD (2*j) 0).toNat_lt
  have hb := (src.getD (2*j+1) 0).toNat_lt
  omega

theorem wordsBytes_words {src : List Byte} (h : src.length = 16) :
    wordsBytes (words src) = src := by
  have hsrc : src = (List.range 16).map (src.getD · 0) := by
    refine List.ext_getElem (by simp [h]) fun i hi _ => ?_
    simp [hi]
  have hwords : wordsBytes (words src) = (List.range 16).map (src.getD · 0) := by
    rw [words_eq]
    simp only [word_eq,wordsBytes,List.flatMap_map,wordBytes_word]
    rfl
  rw [hwords,← hsrc]

/-! ## The run that `::` stands for -/

def ZeroAt (ws : List Nat) (i : Nat) : Prop := ws[i]? = some 0

theorem Scan.step_scanned {ws : List Nat} {i w : Nat} {s : Scan} (hw : ws[i]? = some w)
    (h : Scanned (ZeroAt ws) i s.best s.cur) :
    Scanned (ZeroAt ws) (i+1) (s.step i w).best (s.step i w).cur := by
  obtain ⟨best,cur⟩ := s
  by_cases hzero : w = 0
  · subst hzero
    cases cur with
    | none => exact h.enter hw
    | some cur => exact h.grow hw
  · have hother : ¬ ZeroAt ws i := fun h0 => hzero (Option.some.inj (hw.symm.trans h0))
    simp only [step,if_neg hzero]
    cases cur with
    | none => exact h.stay hother
    | some cur => exact h.leave hother

theorem scan_scanned {ws rest : List Nat} {i : Nat} {s : Scan} (hrest : ws.drop i = rest)
    (h : Scanned (ZeroAt ws) i s.best s.cur) (hi : i ≤ ws.length) :
    Scanned (ZeroAt ws) ws.length (scan s i rest).best (scan s i rest).cur := by
  induction rest generalizing i s with
  | nil =>
    have hend := List.drop_eq_nil_iff.mp hrest
    rwa [scan,Nat.le_antisymm hend hi]
  | cons w rest ih =>
    have hw : ws[i]? = some w := by rw [← List.head?_drop,hrest,List.head?_cons]
    have hlt := (List.getElem?_eq_some_iff.mp hw).1
    refine ih ?_ (Scan.step_scanned hw h) hlt
    rw [← List.tail_drop,hrest,List.tail_cons]

/-- `::` stands for the longest run of zero words, the first where several are equally long,
and for no run of one. -/
theorem bestRun_cases (ws : List Nat) :
    (bestRun ws = none ∧ ∀ b k, Within (ZeroAt ws) ws.length b k → k < 2) ∨
    ∃ r, bestRun ws = some r ∧ 2 ≤ r.len ∧ Longest (ZeroAt ws) ws.length r.base r.len := by
  have hscan := scan_scanned (s := ⟨none,none⟩) (i := 0) (List.drop_zero (l := ws)) scanned_zero
    (Nat.zero_le _)
  obtain ⟨best,hall,hbest⟩ : ∃ best, Best (ZeroAt ws) ws.length best ∧
      bestRun ws = best.filter fun r => 2 ≤ r.len := by
    unfold bestRun
    cases hcur : (scan ⟨none,none⟩ 0 ws).cur with
    | none =>
      rw [hcur] at hscan
      exact ⟨_,hscan.1,by simp only [hcur]⟩
    | some cur =>
      rw [hcur] at hscan
      exact ⟨_,hscan.best,by simp only [hcur]⟩
  cases best with
  | none =>
    refine .inl ⟨hbest,fun b k hrun => ?_⟩
    rw [hall b k hrun]
    decide
  | some r =>
    have hlongest : Longest (ZeroAt ws) ws.length r.base r.len := hall
    by_cases htwo : 2 ≤ r.len
    · exact .inr ⟨r,by simp [hbest,htwo],htwo,hlongest⟩
    · refine .inl ⟨by simpa [hbest] using htwo,fun b k hrun => ?_⟩
      exact Nat.lt_of_le_of_lt (hlongest.longest b k hrun) (Nat.not_le.mp htwo)

/-! ## The text -/

/-- Words behind something else, each with its colon. -/
def behind (ws : List Nat) : List Byte := ws.flatMap fun w => colon :: hexText w

def hexJoin : List Nat → List Byte
  | [] => []
  | w :: ws => hexText w ++ behind ws

theorem behind_eq {ws : List Nat} (h : ws ≠ []) : behind ws = colon :: hexJoin ws := by
  cases ws with
  | nil => exact absurd rfl h
  | cons w ws => rfl

section
variable {best : Option Run} {ws : List Nat} {src : List Byte}

theorem format_apart {seg rest : List Nat} {i : Nat} (text : List Byte)
    (h : ∀ j < seg.length, inside best (i+j) = false ∧ encapsulated best ws (i+j) = false) :
    format best ws src text i (seg ++ rest) =
      format best ws src (text ++ if i = 0 then hexJoin seg else behind seg) (i+seg.length)
        rest := by
  induction seg generalizing i text with
  | nil => simp [hexJoin,behind]
  | cons w seg ih =>
    obtain ⟨hin,henc⟩ := h 0 (by simp)
    have hnext := ih (i := i+1) ((if i ≠ 0 then text ++ [colon] else text) ++ hexText w)
      fun j hj => by
        have hj' := h (j+1) (by simpa using hj)
        rwa [show i+1+j = i+(j+1) by omega]
    simp only [Nat.add_zero] at hin henc
    rw [List.cons_append,format,hin,if_neg Bool.false_ne_true,henc,if_neg Bool.false_ne_true,hnext,
      if_neg (Nat.succ_ne_zero i),List.length_cons,show i+1+seg.length = i+(seg.length+1) by omega]
    by_cases hi : i = 0
    · simp [hi,hexJoin]
    · simp [hi,behind]

theorem format_within {r : Run} {seg rest : List Nat} {i : Nat} (text : List Byte)
    (hi : r.base < i) (hseg : i + seg.length ≤ r.base + r.len) :
    format (some r) ws src text i (seg ++ rest) =
      format (some r) ws src text (i+seg.length) rest := by
  induction seg generalizing i with
  | nil => rfl
  | cons w seg ih =>
    rw [List.length_cons] at hseg
    have hin : inside (some r) i = true := by
      simp only [inside,Option.any_some,Bool.and_eq_true,decide_eq_true_eq]
      omega
    have hlater : (r.base == i) = false := by simpa using Nat.ne_of_lt hi
    rw [List.cons_append,format,if_pos hin,Option.any_some,hlater,if_neg Bool.false_ne_true,
      ih (by omega) (by omega),List.length_cons,show i+1+seg.length = i+(seg.length+1) by omega]

theorem format_run {r : Run} {seg rest : List Nat} (text : List Byte) (hseg : seg.length = r.len)
    (hpos : 0 < r.len) :
    format (some r) ws src text r.base (seg ++ rest) =
      format (some r) ws src (text ++ [colon]) (r.base+r.len) rest := by
  cases seg with
  | nil =>
    rw [List.length_nil] at hseg
    omega
  | cons w seg =>
    rw [List.length_cons] at hseg
    have hin : inside (some r) r.base = true := by
      simp only [inside,Option.any_some,Bool.and_eq_true,decide_eq_true_eq]
      omega
    rw [List.cons_append,format,if_pos hin,Option.any_some,beq_self_eq_true,if_pos rfl,
      format_within _ (Nat.lt_succ_self _) (by omega),
      show r.base+1+seg.length = r.base+r.len by omega]

end

/-- Words in front of something else, each with its colon. -/
def lead (ws : List Nat) : List Byte := ws.flatMap fun w => hexText w ++ [colon]

theorem behind_colon (ws : List Nat) : behind ws ++ [colon] = colon :: lead ws := by
  induction ws with
  | nil => rfl
  | cons w ws ih =>
    have hcons : behind (w :: ws) = colon :: (hexText w ++ behind ws) := rfl
    simp [hcons,lead,ih]

/-- The words `hs` and the words `ts` with `::` for what lies between them. -/
def colonText (hs ts : List Nat) : List Byte := hexJoin hs ++ colon :: colon :: hexJoin ts

def Encapsulated (ws : List Nat) (r : Run) : Prop :=
  r.base = 0 ∧ (r.len = 6 ∨ r.len = 5 ∧ ws[5]? = some 0xffff)

instance (ws : List Nat) (r : Run) : Decidable (Encapsulated ws r) :=
  inferInstanceAs (Decidable (_ ∧ _))

theorem encapsulated_some (ws : List Nat) (r : Run) (i : Nat) :
    encapsulated (some r) ws i = true ↔ i = 6 ∧ Encapsulated ws r := by
  simp [encapsulated,Encapsulated]

theorem encapsulated_ne {ws : List Nat} {r : Run} {i : Nat} (h : ¬ (i = 6 ∧ Encapsulated ws r)) :
    encapsulated (some r) ws i = false :=
  Bool.eq_false_iff.mpr fun henc => h ((encapsulated_some ws r i).mp henc)

theorem inside_ne {r : Run} {i : Nat} (h : i < r.base ∨ r.base + r.len ≤ i) :
    inside (some r) i = false := by
  simp only [inside,Option.any_some,Bool.and_eq_false_iff,decide_eq_false_iff_not]
  omega

def ntopText (src : List Byte) : List Byte :=
  let ws := words src
  match bestRun ws with
  | none => hexJoin ws
  | some r =>
    if Encapsulated ws r then
      colon :: colon :: (lead ((ws.drop r.len).take (6-r.len)) ++ quadText (src.drop 12))
    else colonText (ws.take r.base) (ws.drop (r.base+r.len))

theorem split_run (ws : List Nat) (b k : Nat) :
    ws = ws.take b ++ ((ws.drop b).take k ++ ws.drop (b+k)) := by
  rw [← List.drop_drop,List.take_append_drop,List.take_append_drop]

theorem format_none (ws : List Nat) (src : List Byte) :
    format none ws src [] 0 ws = .ok (hexJoin ws) := by
  have hwords : format none ws src [] 0 (ws ++ []) = _ :=
    format_apart [] fun j _ => ⟨rfl,by simp [encapsulated]⟩
  rw [List.append_nil] at hwords
  simpa [format] using hwords

theorem format_short {ws : List Nat} {r : Run} (src : List Byte)
    (hfit : r.base + r.len ≤ ws.length) (hlen : 2 ≤ r.len) (henc : ¬ Encapsulated ws r) :
    format (some r) ws src [] 0 ws =
      .ok (hexJoin (ws.take r.base) ++ [colon] ++ behind (ws.drop (r.base+r.len))) := by
  have hrun : ((ws.drop r.base).take r.len).length = r.len := by
    rw [List.length_take,List.length_drop]
    omega
  have hhead : (ws.take r.base).length = r.base := by
    rw [List.length_take]
    omega
  have hwords : ∀ i, encapsulated (some r) ws i = false := fun i =>
    encapsulated_ne fun h => henc h.2
  have hend : format (some r) ws src (hexJoin (ws.take r.base) ++ [colon]) (r.base+r.len)
      (ws.drop (r.base+r.len) ++ []) = _ := format_apart _ fun j _ =>
      ⟨inside_ne (r := r) (.inr (Nat.le_add_right _ j)),hwords _⟩
  rw [List.append_nil,if_neg (by omega)] at hend
  calc format (some r) ws src [] 0 ws
      = format (some r) ws src [] 0
          (ws.take r.base ++ ((ws.drop r.base).take r.len ++ ws.drop (r.base+r.len))) :=
        congrArg _ (split_run ws r.base r.len)
    _ = format (some r) ws src (hexJoin (ws.take r.base)) r.base
          ((ws.drop r.base).take r.len ++ ws.drop (r.base+r.len)) := by
        rw [format_apart (i := 0) [] fun j hj => ⟨inside_ne (.inl (by omega)),hwords _⟩,if_pos rfl,
          List.nil_append,hhead,Nat.zero_add]
    _ = _ := by
        rw [format_run _ hrun (by omega),hend]
        rfl

theorem hexJoin_length_le (ws : List Nat) (h : ∀ w ∈ ws, w < 0x10000) :
    (hexJoin ws).length ≤ 5 * ws.length ∧ (behind ws).length ≤ 5 * ws.length ∧
      (lead ws).length ≤ 5 * ws.length := by
  induction ws with
  | nil => decide
  | cons w ws ih =>
    obtain ⟨hw,hws⟩ := List.forall_mem_cons.mp h
    obtain ⟨_,hbehind,hlead⟩ := ih hws
    have hdigits : (hexText w).length ≤ 4 := hexText_length (by decide) hw
    have hb : behind (w :: ws) = colon :: (hexText w ++ behind ws) := rfl
    have hl : lead (w :: ws) = hexText w ++ [colon] ++ lead ws := rfl
    simp only [hexJoin,hb,hl,List.length_append,List.length_cons,List.length_nil]
    omega

theorem inetNtop4_ok {src : List Byte} {size : Nat} (h : 15 ≤ size) :
    inetNtop4 src size = .ok (quadText src) := by
  have hlen := quadText_length src
  exact if_neg (by omega)

theorem format_encapsulated {ws : List Nat} {r : Run} (src : List Byte) (h8 : ws.length = 8)
    (hwords : ∀ w ∈ ws, w < 0x10000) (henc : Encapsulated ws r) :
    format (some r) ws src [] 0 ws = .ok (colon :: colon ::
      (lead ((ws.drop r.len).take (6-r.len)) ++ quadText (src.drop 12))) := by
  obtain ⟨hbase,hlen⟩ := henc
  have hrun : (ws.take r.len).length = r.len := by
    rw [List.length_take]
    omega
  generalize hmid : (ws.drop r.len).take (6-r.len) = mid
  have hmidlen : mid.length = 6 - r.len := by
    rw [← hmid,List.length_take,List.length_drop]
    omega
  have hroom : (behind mid).length ≤ 5 := by
    have hle := (hexJoin_length_le mid fun w hw =>
      hwords w (List.mem_of_mem_drop (List.mem_of_mem_take (hmid ▸ hw)))).2.1
    omega
  obtain ⟨w,rest,hlast⟩ : ∃ w rest, ws.drop 6 = w :: rest :=
    List.exists_cons_of_length_pos (by rw [List.length_drop]; omega)
  have hsplit : ws = ws.take r.len ++ (mid ++ w :: rest) := by
    rw [← hlast,← hmid]
    have hsix : ws.drop 6 = ws.drop (r.len + (6-r.len)) := by
      congr 1
      omega
    rw [hsix]
    exact split_run ws r.len (6-r.len)
  have hbefore : ∀ j < mid.length, encapsulated (some r) ws (0+r.len+j) = false := fun j hj =>
    encapsulated_ne fun h => by omega
  calc format (some r) ws src [] 0 ws
      = format (some r) ws src [] r.base (ws.take r.len ++ (mid ++ w :: rest)) := by
        rw [hbase]
        exact congrArg _ hsplit
    _ = format (some r) ws src ([colon] ++ behind mid) 6 (w :: rest) := by
        rw [format_run _ hrun (by omega),hbase,
          format_apart _ fun j hj => ⟨inside_ne (.inr (by omega)),hbefore j hj⟩,if_neg (by omega),
          hmidlen,show 0 + r.len + (6-r.len) = 6 by omega,List.nil_append]
    _ = .ok (colon :: (behind mid ++ [colon]) ++ quadText (src.drop 12)) := by
        have hin : inside (some r) 6 = false := inside_ne (.inr (by omega))
        have hsix := (encapsulated_some ws r 6).mpr ⟨rfl,hbase,hlen⟩
        have hsize : 15 ≤ 46 - ([colon] ++ behind mid ++ [colon]).length := by
          simp only [List.length_append,List.length_singleton]
          omega
        have hquad : format (some r) ws src ([colon] ++ behind mid) 6 (w :: rest) =
            (inetNtop4 (src.drop 12) (46 - ([colon] ++ behind mid ++ [colon]).length)).map
              ([colon] ++ behind mid ++ [colon] ++ ·) := by
          rw [format,hin,if_neg Bool.false_ne_true]
          exact if_pos hsix
        rw [hquad,inetNtop4_ok hsize]
        simp [Except.map]
    _ = _ := by rw [behind_colon,List.cons_append,List.cons_append]

/-- What `inet_ntop6` prints, and the space that it needs. -/
theorem inetNtop6_eq (src : List Byte) (size : Nat) :
    inetNtop6 src size =
      if size < (ntopText src).length + 1 then .error ENOSPC else .ok (ntopText src) := by
  have h8 := words_length src
  unfold inetNtop6 ntopText
  simp only [bind,Except.bind]
  rcases bestRun_cases (words src) with ⟨hnone,-⟩ | ⟨r,hsome,htwo,hlongest⟩
  · simp only [hnone,format_none,Option.any_none,Bool.false_eq_true,if_false]
    rfl
  · have hfit := hlongest.fits
    by_cases henc : Encapsulated (words src) r
    · have hmiddle : (r.base + r.len == 8) = false := by
        obtain ⟨hbase,hlen⟩ := henc
        simp only [beq_eq_false_iff_ne]
        omega
      simp only [hsome,format_encapsulated src h8 (fun _ => words_lt) henc,Option.any_some,hmiddle,
        if_pos henc,Bool.false_eq_true,if_false]
      rfl
    · have htext : (if r.base + r.len = 8 then
          hexJoin ((words src).take r.base) ++ [colon] ++
            behind ((words src).drop (r.base+r.len)) ++ [colon]
          else hexJoin ((words src).take r.base) ++ [colon] ++
            behind ((words src).drop (r.base+r.len))) =
          colonText ((words src).take r.base) ((words src).drop (r.base+r.len)) := by
        split
        · rename_i hall
          rw [hall,List.drop_eq_nil_of_le (Nat.le_of_eq h8)]
          simp [colonText,behind,hexJoin]
        · rename_i hall
          rw [behind_eq fun h => hall (by have := List.drop_eq_nil_iff.mp h; omega)]
          simp [colonText]
      simp only [hsome,format_short src hfit htwo henc,Option.any_some,if_neg henc,beq_iff_eq,htext]
      rfl

theorem ntopText_cases (src : List Byte) :
    (∀ b k, Within (ZeroAt (words src)) 8 b k → k < 2) ∧ ntopText src = hexJoin (words src) ∨
    ∃ r, 2 ≤ r.len ∧ Longest (ZeroAt (words src)) 8 r.base r.len ∧
      (Encapsulated (words src) r ∧ ntopText src = colon :: colon ::
          (lead (((words src).drop r.len).take (6-r.len)) ++ quadText (src.drop 12)) ∨
        ¬ Encapsulated (words src) r ∧
          ntopText src =
            colonText ((words src).take r.base) ((words src).drop (r.base+r.len))) := by
  have h8 := words_length src
  unfold ntopText
  rcases bestRun_cases (words src) with ⟨hnone,hshort⟩ | ⟨r,hsome,htwo,hlongest⟩
  · rw [h8] at hshort
    exact .inl ⟨hshort,by simp only [hnone]⟩
  · rw [h8] at hlongest
    refine .inr ⟨r,htwo,hlongest,?_⟩
    simp only [hsome]
    by_cases henc : Encapsulated (words src) r
    · exact .inl ⟨henc,if_pos henc⟩
    · exact .inr ⟨henc,if_neg henc⟩

/-- The text and its NUL fit into `tmp`. -/
theorem ntopText_length (src : List Byte) : (ntopText src).length < 46 := by
  have h8 := words_length src
  have hpart : ∀ ws : List Nat, (∀ w ∈ ws, w ∈ words src) →
      (hexJoin ws).length ≤ 5 * ws.length ∧ (lead ws).length ≤ 5 * ws.length := fun ws hws =>
    have hle := hexJoin_length_le ws fun w hw => words_lt (hws w hw)
    ⟨hle.1,hle.2.2⟩
  rcases ntopText_cases src with ⟨-,htext⟩ | ⟨r,htwo,hlongest,⟨henc,htext⟩ | ⟨-,htext⟩⟩
  · have hwords := (hpart _ fun _ hw => hw).1
    rw [htext]
    omega
  · have hmid := (hpart (((words src).drop r.len).take (6-r.len)) fun _ hw =>
      List.mem_of_mem_drop (List.mem_of_mem_take hw)).2
    have hquad := quadText_length (src.drop 12)
    have hfive : 5 ≤ r.len := by
      rcases henc.2 with h | h <;> omega
    simp only [List.length_take,List.length_drop] at hmid
    rw [htext]
    simp only [List.length_cons,List.length_append]
    omega
  · have hhead := (hpart ((words src).take r.base) fun _ hw => List.mem_of_mem_take hw).1
    have htail := (hpart ((words src).drop (r.base+r.len)) fun _ hw => List.mem_of_mem_drop hw).1
    simp only [List.length_take,List.length_drop] at hhead htail
    rw [htext]
    simp only [colonText,List.length_append,List.length_cons]
    omega

/-- What `inet_ntop6` prints, given room: the words in hexadecimal, with `::` for the longest run
of zero words that has two or more, the first where several are equally long, and with the last
two as IPv4 behind `::` or `::ffff:`. -/
theorem inetNtop6_shorthand (src : List Byte) : ∃ text, text.length < 46 ∧
    (∀ size, inetNtop6 src size = if size ≤ text.length then .error ENOSPC else .ok text) ∧
    ((∀ b k, Within (ZeroAt (words src)) 8 b k → k < 2) ∧ text = hexJoin (words src) ∨
      ∃ r, 2 ≤ r.len ∧ Longest (ZeroAt (words src)) 8 r.base r.len ∧
        (Encapsulated (words src) r ∧ text = colon :: colon ::
            (lead (((words src).drop r.len).take (6-r.len)) ++ quadText (src.drop 12)) ∨
          ¬ Encapsulated (words src) r ∧
            text = colonText ((words src).take r.base) ((words src).drop (r.base+r.len)))) := by
  refine ⟨ntopText src,ntopText_length src,fun size => ?_,ntopText_cases src⟩
  rw [inetNtop6_eq]
  exact if_congr Nat.lt_succ_iff rfl rfl

/-- Told the size that its destination has, `inet_ntop` writes behind the end of it exactly when
the text of an IPv4 address fills it without its NUL; the one for IPv4 alone never does. -/
theorem inetNtop_outside_iff (af : Nat) (src dst : List Byte) :
    (inetNtop af src dst dst.length = none ↔
      af = Sa.AF_INET ∧ dst.length = (quadText src).length) ∧
    inetNtopIpv4 af src dst dst.length ≠ none := by
  have hcopy : ∀ tmp, strcpy dst (.ok tmp) = none ↔ dst.length ≤ tmp.length := by
    intro tmp
    simp only [strcpy,CString.sprintf,Memory.store,Option.map_eq_none_iff]
    split <;> rename_i hroom <;>
      simp only [List.length_append,List.length_singleton,Nat.zero_add] at hroom <;> simp <;> omega
  have herror : ∀ e, strcpy dst (.error e) ≠ none := fun _ => by simp [strcpy]
  constructor
  · unfold inetNtop
    by_cases h4 : af = Sa.AF_INET
    · rw [if_pos h4,inetNtop4]
      simp only [h4,true_and]
      split
      · rename_i hsize
        exact ⟨fun h => absurd h (herror _),fun h => by omega⟩
      · rename_i hsize
        rw [hcopy]
        omega
    · rw [if_neg h4]
      simp only [h4,false_and,iff_false]
      split
      · rw [inetNtop6_eq]
        split
        · exact herror _
        · rw [hcopy]
          omega
      · simp
  · unfold inetNtopIpv4
    split
    · simp only
      split
      · exact herror _
      · rw [ne_eq,hcopy]
        assumption
    · simp

end InetText
end UnixNet
