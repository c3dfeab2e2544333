import UnixNet.Library.Machine
import UnixNet.SntpClock
set_option autoImplicit false

/-! mysdr: `loop` and the bytes of the announcements that it looks at. -/

namespace UnixNet
open Inspect

namespace Sap

def VERSION_MASK : UInt32 := 0xe0000000
def VERSION_SHIFT : UInt32 := 29
def IPV6 : UInt32 := 0x10000000
def DELETE : UInt32 := 0x04000000
def ENCRYPTED : UInt32 := 0x02000000
def COMPRESSED : UInt32 := 0x01000000
def AUTHLEN_MASK : UInt32 := 0x00ff0000
def AUTHLEN_SHIFT : UInt32 := 16
def HASH_MASK : UInt32 := 0x0000ffff

/-- Where `sap_data` is in `struct sap_packet`, and `sizeof(buf)`. -/
def data : Nat := 8
def BUFFSIZE : Nat := 8192
def sizeofBuf : Nat := data + BUFFSIZE

/-- "application/sdp". -/
def mime : List Byte := [97,112,112,108,105,99,97,116,105,111,110,47,115,100,112]

inductive Line where
  | version (header : UInt32)
  | ipv6
  | unparsed (header : UInt32)
  /-- The string, if it ends in `buf`. -/
  | text (s : Option (List Byte))
  deriving DecidableEq

def strcmp (p : Nat) : List Byte → Field Bool
  | [] => do
    let b ← cell p
    pure (b == 0)
  | c :: cs => do
    let b ← cell p
    if b = c then strcmp (p + 1) cs else pure false

/-- The string at `p`, where `k` bytes are left of the buffer. -/
def string (p : Nat) : Nat → Field (Option (List Byte))
  | 0 => pure none
  | k+1 => do
    let b ← cell p
    if b = 0 then pure (some [])
    else
      let s ← string (p + 1) k
      pure (s.map (b :: ·))

/-- The body of the loop behind `Recvfrom`: the hash, and the line below it. -/
def body : Field (UInt32 × Line) := do
  let header ← netLong 0
  let sap_header := UInt32.ofNat header
  let hash := sap_header &&& HASH_MASK
  if (sap_header &&& VERSION_MASK) >>> VERSION_SHIFT > 1 then pure (hash,.version sap_header)
  else if sap_header &&& IPV6 ≠ 0 then pure (hash,.ipv6)
  else if sap_header &&& (DELETE ||| ENCRYPTED ||| COMPRESSED) ≠ 0 then
    pure (hash,.unparsed sap_header)
  else
    let p := data + ((sap_header &&& AUTHLEN_MASK) >>> AUTHLEN_SHIFT).toNat
    let same ← strcmp p mime
    let p := if same then p + 16 else p
    let s ← string p (sizeofBuf - p)
    pure (hash,.text s)

/-- A datagram and the NUL behind it, over what was there before. -/
def received (buf : Nat → Byte) (datagram : List Byte) : Nat → Byte := fun i =>
  if i < datagram.length then datagram.getD i 0 else if i = datagram.length then 0 else buf i

/-- `ntohl` of `sap_header` in its place. -/
def converted (buf : Nat → Byte) : Nat → Byte := fun i => if i < 4 then buf (3 - i) else buf i

/-- What a turn of the loop leaves in `buf`. -/
def loop (buf : Nat → Byte) : Machine (Nat → Byte) (List Byte) where
  init := buf
  step s datagram :=
    if datagram.length ≤ sizeofBuf - 1 then some (converted (received s datagram)) else none

/-- The turn looks at nothing behind the terminator of its datagram. -/
def Inside (buf : Nat → Byte) (datagram : List Byte) : Prop :=
  body.Within (datagram.length + 1) (received buf datagram)

/-! What the datagram alone says. -/

def header (datagram : List Byte) : UInt32 :=
  UInt32.ofNat (netValue ((datagram ++ [0]).take 4))

def Parsed (sap_header : UInt32) : Prop :=
  ¬ (sap_header &&& VERSION_MASK) >>> VERSION_SHIFT > 1 ∧ sap_header &&& IPV6 = 0 ∧
    sap_header &&& (DELETE ||| ENCRYPTED ||| COMPRESSED) = 0

instance (sap_header : UInt32) : Decidable (Parsed sap_header) :=
  inferInstanceAs (Decidable (_ ∧ _ ∧ _))

def payload (sap_header : UInt32) : Nat :=
  data + ((sap_header &&& AUTHLEN_MASK) >>> AUTHLEN_SHIFT).toNat

/-- The authentication data is there in full, and what follows is not the bare MIME type. -/
structure Fits (datagram : List Byte) : Prop where
  header : 3 ≤ datagram.length
  authlen : Parsed (Sap.header datagram) → payload (Sap.header datagram) ≤ datagram.length
  mime : Parsed (Sap.header datagram) → datagram.drop (payload (Sap.header datagram)) ≠ mime

section
variable {n : Nat} {buf : Nat → Byte} {datagram : List Byte}

/-- Bytes and a NUL at the start of the buffer. -/
structure Holds (buf : Nat → Byte) (bs : List Byte) : Prop where
  byte : ∀ i (h : i < bs.length), buf i = bs[i]
  nul : buf bs.length = 0

theorem holds_received (buf : Nat → Byte) (datagram : List Byte) :
    Holds (received buf datagram) datagram := by
  refine ⟨fun i h => ?_,?_⟩
  · simp [received,h]
  · rw [received,if_neg (Nat.lt_irrefl _),if_pos rfl]

theorem within_strcmp (hnul : buf n = 0) (lit : List Byte) (hlit : 0 ∉ lit) (p : Nat) :
    (strcmp p lit).Within (n + 1) buf ↔ p ≤ n := by
  induction lit generalizing p with
  | nil => simp [strcmp,Nat.lt_succ_iff]
  | cons c cs ih =>
    obtain ⟨hc,hcs⟩ := not_or.mp (mt List.mem_cons.mpr hlit)
    simp only [strcmp,within_bind,within_cell,run_cell,Nat.lt_succ_iff,and_iff_left_iff_imp]
    intro hp
    split
    · rename_i hsame
      refine (ih hcs (p + 1)).mpr (Nat.lt_of_le_of_ne hp ?_)
      rintro rfl
      exact hc (hsame ▸ hnul).symm
    · trivial

theorem within_string (hnul : buf n = 0) {k : Nat} (hk : 0 < k) (p : Nat) :
    (string p k).Within (n + 1) buf ↔ p ≤ n := by
  induction k generalizing p with
  | zero => omega
  | succ k ih =>
    simp only [string,within_bind,within_cell,run_cell,Nat.lt_succ_iff,and_iff_left_iff_imp]
    intro hp
    split
    · trivial
    · rename_i hne
      rw [within_bind]
      refine ⟨?_,trivial⟩
      have hlt : p + 1 ≤ n := Nat.lt_of_le_of_ne hp fun h => hne (h ▸ hnul)
      cases k with
      | zero => trivial
      | succ k => exact (ih (Nat.succ_pos k) (p + 1)).mpr hlt

/-- The comparison sees the rest of the datagram and its terminator. -/
theorem run_strcmp {bs : List Byte} (h : Holds buf bs) (lit : List Byte) (hlit : 0 ∉ lit) {p : Nat}
    (hp : p ≤ bs.length) :
    (strcmp p lit).run buf = true ↔ lit ++ [0] <+: bs.drop p ++ [0] := by
  induction lit generalizing p with
  | nil =>
    simp only [strcmp,run_bind,run_cell,run_pure,beq_iff_eq,List.nil_append]
    obtain rfl | hlt := Nat.eq_or_lt_of_le hp
    · simp [h.nul]
    · rw [h.byte p hlt,List.drop_eq_getElem_cons hlt,List.cons_append,List.cons_prefix_cons,
        and_iff_left List.nil_prefix,eq_comm]
  | cons c cs ih =>
    obtain ⟨hc,hcs⟩ := not_or.mp (mt List.mem_cons.mpr hlit)
    simp only [strcmp,run_bind,run_cell,run_ite,run_pure]
    obtain rfl | hlt := Nat.eq_or_lt_of_le hp
    · rw [h.nul,if_neg hc]
      simp [Ne.symm hc]
    · rw [h.byte p hlt,List.drop_eq_getElem_cons hlt,List.cons_append,List.cons_append,
        List.cons_prefix_cons]
      split
      · rename_i hsame
        rw [ih hcs hlt,and_iff_right hsame.symm]
      · rename_i hne
        simp [Ne.symm hne]

/-- Where the text is the MIME type, skipping it stays inside unless nothing is behind it. -/
theorem skip_iff {bs : List Byte} {p : Nat} (hp : p ≤ bs.length) :
    (mime ++ [0] <+: bs.drop p ++ [0] → p + 16 ≤ bs.length) ↔ bs.drop p ≠ mime := by
  have hlen : (bs.drop p ++ [0]).length = bs.length - p + 1 := by simp
  constructor
  · intro hskip heq
    have hlong := hskip (heq ▸ List.prefix_rfl)
    have hmime := congrArg List.length heq
    rw [List.length_drop,show mime.length = 15 from rfl] at hmime
    omega
  · intro hne hpre
    by_contra hshort
    have hmime : (mime ++ [0]).length = 16 := rfl
    have hle := hpre.length_le
    have heq := hpre.eq_of_length (by omega)
    exact hne (List.append_cancel_right heq).symm

theorem run_header (hn : 3 ≤ datagram.length) :
    UInt32.ofNat ((netLong 0).run (received buf datagram)) = header datagram := by
  have hheld := holds_received buf datagram
  have hcells : (cells 0 4).run (received buf datagram) = (datagram ++ [0]).take 4 := by
    rw [run_cells]
    apply List.ext_getElem
    · simp
      omega
    · intro i h₁ h₂
      simp only [List.getElem_map,List.getElem_range,Nat.zero_add,List.getElem_take,
        List.getElem_append]
      split
      · exact hheld.byte i _
      · -- the terminator is the fourth byte
        rename_i hge
        have hi : i = datagram.length := by
          simp at h₁
          omega
        subst hi
        simpa using hheld.nul
  rw [netLong,run_bind,hcells,run_pure,header]

theorem payload_lt (sap_header : UInt32) : payload sap_header + 16 < sizeofBuf := by
  have hand : (sap_header &&& AUTHLEN_MASK).toNat ≤ 0x00ff0000 := by
    rw [UInt32.toNat_and]
    exact Nat.and_le_right
  have hshift : ((sap_header &&& AUTHLEN_MASK) >>> AUTHLEN_SHIFT).toNat =
      (sap_header &&& AUTHLEN_MASK).toNat / 2^16 := by
    rw [UInt32.toNat_shiftRight,Nat.shiftRight_eq_div_pow]
    rfl
  unfold payload data sizeofBuf data BUFFSIZE
  omega

/-- What is left of a turn when the header has passed its tests. -/
theorem within_text {bs : List Byte} (h : Holds buf bs) {p : Nat} (hp : p + 16 < sizeofBuf) :
    (do let same ← strcmp p mime
        let p := if same then p + 16 else p
        string p (sizeofBuf - p) : Field (Option (List Byte))).Within (bs.length + 1) buf ↔
      p ≤ bs.length ∧ bs.drop p ≠ mime := by
  have hmime : 0 ∉ mime := by decide
  rw [within_bind,within_strcmp h.nul mime hmime]
  refine and_congr_right fun hle => ?_
  rw [← skip_iff hle,← run_strcmp h mime hmime hle]
  split
  · rename_i hsame
    rw [within_string h.nul (Nat.sub_pos_of_lt hp),forall_prop_of_true hsame]
  · rename_i hsame
    rw [within_string h.nul (Nat.sub_pos_of_lt (by omega))]
    exact ⟨fun _ h => absurd h hsame,fun _ => hle⟩

theorem inside_iff (buf : Nat → Byte) (datagram : List Byte) :
    Inside buf datagram ↔ Fits datagram := by
  have hheld := holds_received buf datagram
  by_cases hn : 3 ≤ datagram.length
  · have hrest : Inside buf datagram ↔ (Parsed (header datagram) →
        payload (header datagram) ≤ datagram.length ∧
          datagram.drop (payload (header datagram)) ≠ mime) := by
      rw [← within_text hheld (payload_lt _)]
      simp only [Inside,body,within_bind,within_netLong,Nat.zero_add,run_header hn,within_ite,
        within_pure,and_true]
      rw [and_iff_right (by omega : 4 ≤ datagram.length + 1)]
      by_cases hversion : (header datagram &&& VERSION_MASK) >>> VERSION_SHIFT > 1
      · rw [if_pos hversion]
        exact iff_of_true trivial fun hparsed => absurd hversion hparsed.1
      rw [if_neg hversion]
      by_cases h6 : header datagram &&& IPV6 ≠ 0
      · rw [if_pos h6]
        exact iff_of_true trivial fun hparsed => absurd hparsed.2.1 h6
      rw [if_neg h6]
      by_cases htype : header datagram &&& (DELETE ||| ENCRYPTED ||| COMPRESSED) ≠ 0
      · rw [if_pos htype]
        exact iff_of_true trivial fun hparsed => absurd hparsed.2.2 htype
      · rw [if_neg htype]
        exact ⟨fun h _ => h,fun h => h ⟨hversion,not_not.mp h6,not_not.mp htype⟩⟩
    exact hrest.trans ⟨fun h => ⟨hn,fun hp => (h hp).1,fun hp => (h hp).2⟩,
      fun h hp => ⟨h.authlen hp,h.mime hp⟩⟩
  · refine ⟨fun h => ?_,fun h => absurd h.header hn⟩
    have hread := ((within_bind _ _).mp h).1
    rw [within_netLong] at hread
    omega

/-- A turn that stays inside prints the same whatever the buffer held. -/
theorem body_current (buf buf' : Nat → Byte) {datagram : List Byte} (h : Inside buf datagram) :
    body.run (received buf' datagram) = body.run (received buf datagram) := by
  refine run_congr (fun i hi => ?_) h
  unfold received
  split
  · rfl
  · rw [if_pos (by omega : i = datagram.length),if_pos (by omega : i = datagram.length)]

/-- Every turn stays inside its datagram, whatever the buffer held, exactly when all fit. -/
theorem loop_inside_iff (buf s : Nat → Byte) (datagrams : List (List Byte))
    (h : (loop buf).run buf datagrams = some s) :
    (∀ x ∈ (loop buf).trace buf datagrams, Inside x.1 x.2) ↔
      ∀ datagram ∈ datagrams, Fits datagram := by
  have hrun : ∀ t, (loop buf).run t datagrams = some s →
      ((∀ x ∈ (loop buf).trace t datagrams, Inside x.1 x.2) ↔
        ∀ datagram ∈ datagrams, Fits datagram) := by
    clear h
    simp only [inside_iff]
    induction datagrams with
    | nil => simp [Machine.trace]
    | cons d ds ih =>
      intro t h
      obtain ⟨u,hu,hrest⟩ := Option.bind_eq_some_iff.mp h
      rw [Machine.trace,hu,Option.elim_some,List.forall_mem_cons,List.forall_mem_cons]
      exact and_congr_right fun _ => ih u hrest
  exact hrun buf h

theorem loop_inside_iff_short :
    (∀ x ∈ (loop fun _ => 0).trace (fun _ => 0) [[0x20,0,0,0,127,0,0,1,118]], Inside x.1 x.2) ↔
      ∀ datagram ∈ [[0x20,0,0,0,127,0,0,1,118]], Fits datagram :=
  loop_inside_iff (fun _ => 0) _ [[0x20,0,0,0,127,0,0,1,118]] rfl

/-- A header alone, behind an announcement of which it prints the text again. -/
theorem loop_stale :
    (¬ ∀ (buf s : Nat → Byte) (datagrams : List (List Byte)),
      (loop buf).run buf datagrams = some s →
        ∀ x ∈ (loop buf).trace buf datagrams, Inside x.1 x.2) ∧
    body.run (received (converted (received (fun _ => 0) [0x20,0,0,0,127,0,0,1,118]))
      [0x20,0,0,0]) = (0,.text (some [118])) := by
  refine ⟨fun h => ?_,by decide +kernel⟩
  have hall := h (fun _ => 0) _ [[0x20,0,0,0]] rfl
  have hfits := (inside_iff _ _).mp (hall _ List.mem_cons_self)
  exact absurd (hfits.authlen (by decide)) (by decide)

end

end Sap

end UnixNet
