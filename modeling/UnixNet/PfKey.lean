import Mathlib.Data.List.Basic
import Mathlib.Algebra.Group.Nat.Defs
import Mathlib.Algebra.Ring.Int.Defs
import UnixNet.Library.Memory
import UnixNet.Library.Records
import UnixNet.SocketAddress
set_option autoImplicit false

/-! PF_KEY messages: `sadb_add` builds one and `print_sadb_msg` takes it apart. -/

namespace UnixNet.PfKey
open Memory Records Sa

def PF_KEY_V2 : Nat := 2
def SADB_ADD : Nat := 3
def SADB_EXT_SA : Nat := 1
def SADB_EXT_LIFETIME_CURRENT : Nat := 2
def SADB_EXT_LIFETIME_SOFT : Nat := 4
def SADB_EXT_ADDRESS_SRC : Nat := 5
def SADB_EXT_ADDRESS_DST : Nat := 6
def SADB_EXT_ADDRESS_PROXY : Nat := 7
def SADB_EXT_KEY_AUTH : Nat := 8
def SADB_EXT_KEY_ENCRYPT : Nat := 9
def SADB_SASTATE_MATURE : Nat := 1
def SADB_EALG_NONE : Nat := 0
def SADB_SAFLAGS_PFS : Nat := 1

/-! ## The writer -/

/-- `struct sadb_msg`, with the fields that are left 0 by `bzero`. -/
def sadbMsg (type pid len : Nat) : List Byte :=
  big 1 PF_KEY_V2 ++ (big 1 SADB_ADD ++ (big 1 0 ++ (big 1 type ++ (big 2 len ++
    (big 2 0 ++ (big 4 0 ++ big 4 pid))))))

def sadbSa (spi alg : Nat) : List Byte :=
  big 2 (16 / 8) ++ (big 2 SADB_EXT_SA ++ (big 4 spi ++ (big 1 0 ++ (big 1 SADB_SASTATE_MATURE ++
    (big 1 alg ++ (big 1 SADB_EALG_NONE ++ big 4 0))))))

def sadbAddress (len exttype prefixlen : Nat) : List Byte :=
  big 2 len ++ (big 2 exttype ++ (big 1 0 ++ (big 1 prefixlen ++ big 2 0)))

def sadbKey (len bits : Nat) : List Byte :=
  big 2 len ++ (big 2 SADB_EXT_KEY_AUTH ++ (big 2 bits ++ big 2 0))

/-- `sa->sa_len`. -/
def salen (sa : List Byte) : Option Nat := loadBig sa 0 1

def prefixAll (sa : List Byte) : Option Nat :=
  (loadBig sa 1 1).map fun family =>
    if family = Sa.AF_INET then 32 else if family = Sa.AF_INET6 then 128 else 0

/-- The buffer with the pointer into it and the length so far. -/
structure Builder where
  buf : List Byte
  p : Nat
  len : Nat

def Builder.advance (b : Builder) (words : Nat) : Builder :=
  { b with p := b.p + words * 8, len := b.len + words * 8 }

/-- An address extension at `p`. -/
def addAddress (exttype : Nat) (sa : List Byte) (b : Builder) : Option Builder := do
  let n ← salen sa
  let words := (8 + n + 7) / 8 % 65536
  let buf ← store b.buf b.p (sadbAddress words exttype (← prefixAll sa))
  let buf ← store buf (b.p + 8) (← load sa 0 n)
  return { b with buf := buf }.advance words

/-- `keybits / 8` as a `size_t`. -/
def keyBytes (keybits : Int) : Nat := (keybits.tdiv 8 % 2^64).toNat

def addKey (keybits : Int) (keydata : List Byte) (b : Builder) : Option Builder := do
  let words := (8 + keyBytes keybits + 7) % 2^64 / 8 % 65536
  let buf ← store b.buf b.p (sadbKey words (keybits % 65536).toNat)
  let buf ← store buf (b.p + 8) (← load keydata 0 (keyBytes keybits))
  return { b with buf := buf }.advance words

/-- The request that `sadb_add` writes to the socket, in its buffer. -/
def sadbAdd (pid : Nat) (src dst : List Byte) (type alg spi : Nat) (keybits : Int)
    (keydata : List Byte) : Option Builder := do
  let buf ← store (List.replicate 4096 0) 0 (sadbMsg type pid 0)
  let b : Builder := ⟨buf,16,16⟩
  let buf ← store b.buf b.p (sadbSa spi alg)
  let b := { b with buf := buf }.advance (16 / 8)
  let b ← addAddress SADB_EXT_ADDRESS_SRC src b
  let b ← addAddress SADB_EXT_ADDRESS_DST dst b
  let b ← addKey keybits keydata b
  let buf ← store b.buf 4 (big 2 (b.len / 8))
  return { b with buf := buf }

/-! ## The reader -/

structure Alg where
  id : Nat
  ivlen : Nat
  minbits : Nat
  maxbits : Nat
  deriving DecidableEq, Repr

/-- The lines for an extension, by what is printed in them. -/
inductive Printed where
  | sa (spi replay state auth encrypt : Nat) (pfs : Bool) : Printed
  | lifetime (exttype allocations bytes addtime usetime : Nat) : Printed
  | address (exttype : Nat) (text : Ntop) (prefixlen proto : Nat) : Printed
  | key (exttype bits : Nat) (digits : List Byte) : Printed
  | supported (exttype : Nat) (len : Int) (algs : List Alg) : Printed
  | named (exttype : Nat) : Printed
  deriving DecidableEq, Repr

def saPrint (ext : List Byte) : Option Printed := do
  return .sa (← loadBig ext 4 4) (← loadBig ext 8 1) (← loadBig ext 9 1) (← loadBig ext 10 1)
    (← loadBig ext 11 1) ((← loadBig ext 12 4) &&& SADB_SAFLAGS_PFS ≠ 0)

def lifetimePrint (exttype : Nat) (ext : List Byte) : Option Printed := do
  return .lifetime exttype (← loadBig ext 4 4) (← loadBig ext 8 8) (← loadBig ext 16 8)
    (← loadBig ext 24 8)

def addressPrint (exttype len : Nat) (ext : List Byte) : Option Printed := do
  let text ← sockNtop (ext.drop 8) (((len * 8 : Int) - 8) % 2^32).toNat
  return .address exttype text (← loadBig ext 5 1) (← loadBig ext 4 1)

/-- The loop of `key_print`: one byte for each 8 bits that are left. -/
def keyDigits : List Byte → Nat → Option (List Byte)
  | _, 0 => some []
  | [], _+1 => none
  | c :: p, bits+1 => (keyDigits p (bits + 1 - 8)).map (c :: ·)

def keyPrint (exttype : Nat) (ext : List Byte) : Option Printed := do
  let bits ← loadBig ext 4 2
  return .key exttype bits (← keyDigits (ext.drop 8) bits)

def supportedAlgs : Nat → List Byte → Option (List Alg)
  | 0, _ => some []
  | n+1, m => do
    let alg := ⟨← loadBig m 0 1,← loadBig m 1 1,← loadBig m 2 2,← loadBig m 4 2⟩
    return alg :: (← supportedAlgs n (m.drop 8))

def supportedPrint (exttype len : Nat) (ext : List Byte) : Option Printed := do
  return .supported exttype (len * 8 - 8) (← supportedAlgs (len - 1) (ext.drop 8))

def printExt (exttype len : Nat) (ext : List Byte) : Option Printed :=
  if exttype = SADB_EXT_SA then saPrint ext
  else if SADB_EXT_LIFETIME_CURRENT ≤ exttype ∧ exttype ≤ SADB_EXT_LIFETIME_SOFT then
    lifetimePrint exttype ext
  else if SADB_EXT_ADDRESS_SRC ≤ exttype ∧ exttype ≤ SADB_EXT_ADDRESS_PROXY then
    addressPrint exttype len ext
  else if exttype = SADB_EXT_KEY_AUTH ∨ exttype = SADB_EXT_KEY_ENCRYPT then keyPrint exttype ext
  else if exttype = 14 ∨ exttype = 15 then supportedPrint exttype len ext
  else some (.named exttype)

/-- A read outside of the buffer. -/
inductive Fault where
  | outside : Fault
  deriving DecidableEq, Repr

def inside {α : Type} : Option α → Except Fault α
  | none => .error .outside
  | some a => .ok a

/-- A turn of the loop: the place of the extension, and what was printed up to here. -/
def extBody (ext : List Byte) (s : Nat × List (Nat × Printed)) :
    Except Fault ((Nat × List (Nat × Printed)) × Nat) := inside do
  let exttype ← loadBig ext 2 2
  let len ← loadBig ext 0 2
  let printed ← printExt exttype len ext
  return ((s.1 + len * 8,s.2 ++ [(s.1,printed)]),len * 8)

structure Header where
  type : Nat
  errno : Nat
  satype : Nat
  seq : Nat
  pid : Nat
  deriving DecidableEq, Repr

inductive Report where
  | lengthMismatch : Report
  | badVersion : Report
  | message (h : Header) (exts : Walk Fault (Nat × List (Nat × Printed))) : Report
  deriving DecidableEq, Repr

/-- The outer `none` is a read outside of the buffer before the loop. -/
def printSadbMsg (fuel : Nat) (msg : List Byte) (msglen : Int) : Option Report := do
  let len ← loadBig msg 4 2
  if msglen ≠ len * 8 then return .lengthMismatch
  if (← loadBig msg 0 1) ≠ PF_KEY_V2 then return .badVersion
  let h : Header := ⟨← loadBig msg 1 1,← loadBig msg 2 1,← loadBig msg 3 1,← loadBig msg 8 4,
    ← loadBig msg 12 4⟩
  if msglen = 16 then return .message h (.done (16,[]) 0)
  return .message h (walk extBody fuel (msglen - 16) (msg.drop 16) (16,[]))

/-! ## The buffer as it fills -/

theorem salen_eq (sa : Inet) : salen sa.bytes = some sa.bytes.length := by
  obtain ⟨bytes,rest,⟨rfl,h⟩ | ⟨rfl,h⟩⟩ := sa <;> simp [salen,loadBig,load,ByteOrder.value,h]

/-- The prefix length of an address without a mask. -/
def fullLength (sa : Inet) : Nat := if sa.bytes.length = 16 then 32 else 128

theorem prefixAll_eq (sa : Inet) : prefixAll sa.bytes = some (fullLength sa) := by
  obtain ⟨bytes,rest,⟨rfl,h⟩ | ⟨rfl,h⟩⟩ := sa
  · simp [prefixAll,fullLength,loadBig,load,ByteOrder.value,h,Sa.AF_INET]
  · simp [prefixAll,fullLength,loadBig,load,ByteOrder.value,h,Sa.AF_INET,Sa.AF_INET6]

/-- `l` and zeros up to the length `k`. -/
def pad (k : Nat) (l : List Byte) : List Byte := l ++ List.replicate (k - l.length) 0

theorem pad_length {k : Nat} {l : List Byte} (h : l.length ≤ k) : (pad k l).length = k := by
  simp [pad]
  omega

/-- `pre` has been written, and `n` zeros are left. -/
structure Filled (pre : List Byte) (n : Nat) (b : Builder) : Prop where
  buf : b.buf = pre ++ List.replicate n 0
  p : b.p = pre.length
  len : b.len = pre.length

/-- A header and its body, in so many words. -/
theorem Filled.put {pre : List Byte} {n : Nat} {b : Builder} (h : Filled pre n b)
    {hdr body : List Byte} {words : Nat} (hword : hdr.length + body.length ≤ words * 8)
    (hn : words * 8 ≤ n) :
    ∃ buf buf', store b.buf b.p hdr = some buf ∧ store buf (b.p + hdr.length) body = some buf' ∧
      Filled (pre ++ pad (words * 8) (hdr ++ body)) (n - words * 8)
        (({ b with buf := buf' } : Builder).advance words) := by
  have hzeros : n - hdr.length - body.length =
      (words * 8 - (hdr ++ body).length) + (n - words * 8) := by
    rw [List.length_append]
    omega
  refine ⟨(pre ++ hdr) ++ List.replicate (n - hdr.length) 0,
    ((pre ++ hdr) ++ body) ++ List.replicate (n - hdr.length - body.length) 0,?_,?_,?_,?_,?_⟩
  · rw [h.buf,h.p]
    exact store_replicate pre 0 (by omega)
  · have hp : b.p + hdr.length = (pre ++ hdr).length := by rw [h.p,List.length_append]
    rw [hp]
    exact store_replicate (pre ++ hdr) 0 (by omega)
  · rw [hzeros,← List.replicate_append_replicate]
    simp [Builder.advance,pad]
  · have hlen := pad_length (k := words * 8) (l := hdr ++ body) (by rw [List.length_append]; omega)
    simp [Builder.advance,h.p,hlen]
  · have hlen := pad_length (k := words * 8) (l := hdr ++ body) (by rw [List.length_append]; omega)
    simp [Builder.advance,h.len,hlen]

def addressWords (sa : Inet) : Nat := (8 + sa.bytes.length + 7) / 8
def keyWords (keydata : List Byte) : Nat := (8 + keydata.length + 7) / 8

def addressExt (exttype : Nat) (sa : Inet) : List Byte :=
  pad (addressWords sa * 8) (sadbAddress (addressWords sa) exttype (fullLength sa) ++ sa.bytes)

def keyExt (keydata : List Byte) : List Byte :=
  pad (keyWords keydata * 8) (sadbKey (keyWords keydata) (8 * keydata.length) ++ keydata)

@[simp] theorem sadbMsg_length (type pid len : Nat) : (sadbMsg type pid len).length = 16 := by
  simp [sadbMsg]

@[simp] theorem sadbSa_length (spi alg : Nat) : (sadbSa spi alg).length = 16 := by simp [sadbSa]

@[simp] theorem sadbAddress_length (len exttype prefixlen : Nat) :
    (sadbAddress len exttype prefixlen).length = 8 := by simp [sadbAddress]

@[simp] theorem sadbKey_length (len bits : Nat) : (sadbKey len bits).length = 8 := by
  simp [sadbKey]

theorem addAddress_filled {pre : List Byte} {n : Nat} {b : Builder} (h : Filled pre n b)
    (exttype : Nat) (sa : Inet) (hn : addressWords sa * 8 ≤ n) :
    ∃ b', addAddress exttype sa.bytes b = some b' ∧
      Filled (pre ++ addressExt exttype sa) (n - addressWords sa * 8) b' := by
  have hload : load sa.bytes 0 sa.bytes.length = some sa.bytes := by simp [load]
  have hwords : (8 + sa.bytes.length + 7) / 8 % 65536 = addressWords sa := by
    have := sa.length_cases
    unfold addressWords
    omega
  have hword : (sadbAddress (addressWords sa) exttype (fullLength sa)).length + sa.bytes.length ≤
      addressWords sa * 8 := by
    rw [sadbAddress_length]
    unfold addressWords
    omega
  obtain ⟨buf,buf',hhdr,hbody,hfilled⟩ := h.put hword hn
  rw [sadbAddress_length] at hbody
  exact ⟨_,by simp [addAddress,salen_eq,hwords,prefixAll_eq,hhdr,hload,hbody],hfilled⟩

theorem keyBytes_eq {n : Nat} (h : n < 2^64) : keyBytes (8 * n : Nat) = n := by
  have hdiv : (((8 * n : Nat) : Int).tdiv 8) = n := by
    rw [Int.tdiv_eq_ediv_of_nonneg (by omega)]
    omega
  rw [keyBytes,hdiv]
  omega

theorem addKey_filled {pre : List Byte} {n : Nat} {b : Builder} (h : Filled pre n b)
    (keydata : List Byte) (hn : keyWords keydata * 8 ≤ n) (hmax : n ≤ 4096) :
    ∃ b', addKey (8 * keydata.length : Nat) keydata b = some b' ∧
      Filled (pre ++ keyExt keydata) (n - keyWords keydata * 8) b' := by
  have hfits : keydata.length + 8 ≤ n := by
    unfold keyWords at hn
    omega
  have hbytes : keyBytes (8 * keydata.length : Nat) = keydata.length := keyBytes_eq (by omega)
  have hbits : (((8 * keydata.length : Nat) : Int) % 65536).toNat = 8 * keydata.length := by omega
  have hload : load keydata 0 keydata.length = some keydata := by simp [load]
  have hwords : (8 + keydata.length + 7) % 2^64 / 8 % 65536 = keyWords keydata := by
    unfold keyWords
    omega
  have hword : (sadbKey (keyWords keydata) (8 * keydata.length)).length + keydata.length ≤
      keyWords keydata * 8 := by
    rw [sadbKey_length]
    unfold keyWords
    omega
  obtain ⟨buf,buf',hhdr,hbody,hfilled⟩ := h.put hword hn
  rw [sadbKey_length] at hbody
  refine ⟨_,?_,hfilled⟩
  simp only [addKey,hbytes,hwords,hbits,hhdr,hload,hbody,Option.bind_eq_bind,Option.bind_some,
    Option.pure_def]

/-! ## The request -/

/-- The extensions of the request. -/
def extensions (src dst : Inet) (alg spi : Nat) (keydata : List Byte) : List (List Byte) :=
  [sadbSa spi alg,addressExt SADB_EXT_ADDRESS_SRC src,addressExt SADB_EXT_ADDRESS_DST dst,
    keyExt keydata]

def totalLength (src dst : Inet) (keydata : List Byte) : Nat :=
  16 + (16 + addressWords src * 8 + addressWords dst * 8 + keyWords keydata * 8)

theorem addressExt_length (exttype : Nat) (sa : Inet) :
    (addressExt exttype sa).length = addressWords sa * 8 := by
  refine pad_length ?_
  rw [List.length_append,sadbAddress_length]
  unfold addressWords
  omega

theorem keyExt_length (keydata : List Byte) : (keyExt keydata).length = keyWords keydata * 8 := by
  refine pad_length ?_
  rw [List.length_append,sadbKey_length]
  unfold keyWords
  omega

theorem extensions_length (src dst : Inet) (alg spi : Nat) (keydata : List Byte) :
    16 + (extensions src dst alg spi keydata).flatten.length = totalLength src dst keydata := by
  simp [extensions,totalLength,addressExt_length,keyExt_length]
  omega

/-- The length goes into its field at last. -/
theorem sadbMsg_store (type pid len : Nat) (m : List Byte) :
    store (sadbMsg type pid 0 ++ m) 4 (big 2 len) = some (sadbMsg type pid len ++ m) := by
  have hsame : (big 2 0).length = (big 2 len).length := by simp
  have hmid := store_middle (big 1 PF_KEY_V2 ++ (big 1 SADB_ADD ++ (big 1 0 ++ big 1 type)))
    (big 2 0 ++ (big 4 0 ++ big 4 pid) ++ m) hsame
  simpa [sadbMsg] using hmid

theorem addressWords_le (sa : Inet) : addressWords sa ≤ 5 := by
  have := sa.length_cases
  unfold addressWords
  omega

/-- The buffer when the key is about to be added. There is always room for two addresses. -/
theorem sadbAdd_addresses (pid : Nat) (src dst : Inet) (type alg spi : Nat) (keybits : Int)
    (keydata : List Byte) :
    ∃ b, Filled (sadbMsg type pid 0 ++ sadbSa spi alg ++ addressExt SADB_EXT_ADDRESS_SRC src ++
        addressExt SADB_EXT_ADDRESS_DST dst)
        (4064 - addressWords src * 8 - addressWords dst * 8) b ∧
      sadbAdd pid src.bytes dst.bytes type alg spi keybits keydata =
        (addKey keybits keydata b).bind fun b =>
          (store b.buf 4 (big 2 (b.len / 8))).map fun buf => { b with buf := buf } := by
  have hmsg : store (List.replicate 4096 0) 0 (sadbMsg type pid 0) =
      some (sadbMsg type pid 0 ++ List.replicate 4080 0) := by
    have hstore := store_replicate [] (0 : Byte) (l := sadbMsg type pid 0) (n := 4096) (by simp)
    rwa [List.nil_append,List.nil_append,sadbMsg_length] at hstore
  have hsa : store (sadbMsg type pid 0 ++ List.replicate 4080 0) 16 (sadbSa spi alg) =
      some ((sadbMsg type pid 0 ++ sadbSa spi alg) ++ List.replicate 4064 0) := by
    have hstore := store_replicate (sadbMsg type pid 0) (0 : Byte) (l := sadbSa spi alg)
      (n := 4080) (by simp)
    rwa [sadbMsg_length,sadbSa_length] at hstore
  have hfilled : Filled (sadbMsg type pid 0 ++ sadbSa spi alg) 4064
      ⟨(sadbMsg type pid 0 ++ sadbSa spi alg) ++ List.replicate 4064 0,32,32⟩ :=
    ⟨rfl,by simp,by simp⟩
  have hle := addressWords_le src
  have hle' := addressWords_le dst
  obtain ⟨b₁,hsrc,hfilled₁⟩ := addAddress_filled hfilled SADB_EXT_ADDRESS_SRC src (by omega)
  obtain ⟨b₂,hdst,hfilled₂⟩ := addAddress_filled hfilled₁ SADB_EXT_ADDRESS_DST dst (by omega)
  refine ⟨b₂,hfilled₂,?_⟩
  simp only [sadbAdd,hmsg,hsa,Builder.advance,hsrc,hdst,Option.bind_eq_bind,Option.bind_some,
    Option.pure_def,Nat.reduceDiv,Nat.reduceMul,Nat.reduceAdd,Option.map_eq_bind]
  rfl

theorem sadbAdd_eq (pid : Nat) (src dst : Inet) (type alg spi : Nat) (keydata : List Byte)
    (hfits : totalLength src dst keydata ≤ 4096) :
    ∃ b, sadbAdd pid src.bytes dst.bytes type alg spi (8 * keydata.length : Nat) keydata = some b ∧
      b.len = totalLength src dst keydata ∧
      b.buf = sadbMsg type pid (totalLength src dst keydata / 8) ++
        ((extensions src dst alg spi keydata).flatten ++
          List.replicate (4096 - totalLength src dst keydata) 0) := by
  obtain ⟨b₂,hfilled₂,hadd⟩ := sadbAdd_addresses pid src dst type alg spi
    (8 * keydata.length : Nat) keydata
  unfold totalLength at hfits
  obtain ⟨b₃,hkey,hfilled₃⟩ := addKey_filled hfilled₂ keydata (by omega) (by omega)
  have hlen : b₃.len = totalLength src dst keydata := by
    rw [hfilled₃.len]
    simp [totalLength,addressExt_length,keyExt_length]
    omega
  have hrest : 4064 - addressWords src * 8 - addressWords dst * 8 - keyWords keydata * 8 =
      4096 - totalLength src dst keydata := by
    unfold totalLength
    omega
  have hbuf : b₃.buf = sadbMsg type pid 0 ++ ((extensions src dst alg spi keydata).flatten ++
      List.replicate (4096 - totalLength src dst keydata) 0) := by
    rw [hfilled₃.buf,hrest]
    simp [extensions]
  have hstore := sadbMsg_store type pid (totalLength src dst keydata / 8)
    ((extensions src dst alg spi keydata).flatten ++
      List.replicate (4096 - totalLength src dst keydata) 0)
  rw [← hbuf] at hstore
  refine ⟨⟨sadbMsg type pid (totalLength src dst keydata / 8) ++
    ((extensions src dst alg spi keydata).flatten ++
      List.replicate (4096 - totalLength src dst keydata) 0),b₃.p,b₃.len⟩,?_,hlen,rfl⟩
  rw [hadd,hkey,Option.bind_some,hlen,hstore,Option.map_some]

/-! ## Reading it back -/

/-- What the loop makes of one extension. -/
def stepExt (s : Nat × List (Nat × Printed)) (r : List Byte × Printed) (_ : List Byte) :
    Except Fault (Nat × List (Nat × Printed)) := .ok (s.1 + r.1.length,s.2 ++ [(s.1,r.2)])

/-- An extension with its header, and the fields behind it. -/
def ext (words exttype : Nat) (tail : List Byte) : List Byte :=
  big 2 words ++ (big 2 exttype ++ tail)

theorem ext_loadBig (words exttype : Nat) (tail rest : List Byte) (i k : Nat) (hi : 4 ≤ i) :
    loadBig (ext words exttype tail ++ rest) i k = loadBig (tail ++ rest) (i - 4) k := by
  have hhdr : (big 2 words ++ big 2 exttype).length = 4 := by simp
  have hsplit : ext words exttype tail ++ rest =
      (big 2 words ++ big 2 exttype) ++ (tail ++ rest) := by simp [ext]
  rw [hsplit,loadBig_shift (by omega),hhdr]

theorem ext_takes {words exttype : Nat} {tail : List Byte} {printed : Printed}
    (hlen : (ext words exttype tail).length = words * 8) (hwords : words < 65536)
    (htype : exttype < 65536)
    (hprint : ∀ rest, printExt exttype words (ext words exttype tail ++ rest) = some printed) :
    Takes extBody Prod.fst stepExt (ext words exttype tail,printed) := by
  intro rest s
  have hw : loadBig (ext words exttype tail ++ rest) 0 2 = some words := by
    rw [ext,List.append_assoc,loadBig_here]
    congr 1
    omega
  have ht : loadBig (ext words exttype tail ++ rest) 2 2 = some exttype := by
    rw [ext,List.append_assoc,loadBig_shift (by simp),big_length,Nat.sub_self,List.append_assoc,
      loadBig_here]
    congr 1
    omega
  simp only [extBody,hw,ht,hprint rest,stepExt,hlen,Option.bind_eq_bind,Option.bind_some,
    Option.pure_def,inside,Except.map]

theorem sadbSa_takes (spi alg : Nat) :
    Takes extBody Prod.fst stepExt (sadbSa spi alg,.sa (spi % 2^32) 0 SADB_SASTATE_MATURE
      (alg % 256) SADB_EALG_NONE false) := by
  have hext : sadbSa spi alg = ext 2 SADB_EXT_SA (big 4 spi ++ (big 1 0 ++
      (big 1 SADB_SASTATE_MATURE ++ (big 1 alg ++ (big 1 SADB_EALG_NONE ++ big 4 0))))) := rfl
  rw [hext]
  refine ext_takes (by simp [ext]) (by decide) (by decide) fun rest => ?_
  have hload := ext_loadBig 2 SADB_EXT_SA (big 4 spi ++ (big 1 0 ++ (big 1 SADB_SASTATE_MATURE ++
    (big 1 alg ++ (big 1 SADB_EALG_NONE ++ big 4 0))))) rest
  simp only [printExt,if_true,saPrint,hload 4 4 (by decide),hload 8 1 (by decide),
    hload 9 1 (by decide),hload 10 1 (by decide),hload 11 1 (by decide),hload 12 4 (by decide)]
  simp [loadBig_here,loadBig_shift]
  decide

theorem keyDigits_append (keydata m : List Byte) :
    keyDigits (keydata ++ m) (8 * keydata.length) = some keydata := by
  induction keydata with
  | nil => simp [keyDigits]
  | cons c p ih =>
    have hbits : 8 * (c :: p).length = (8 * p.length + 7) + 1 := by
      rw [List.length_cons]
      omega
    have hleft : 8 * p.length + 7 + 1 - 8 = 8 * p.length := by omega
    rw [hbits,List.cons_append,keyDigits,hleft,ih]
    rfl

theorem addressExt_drop (exttype : Nat) (sa : Inet) (rest : List Byte) :
    (addressExt exttype sa ++ rest).drop 8 = sa.bytes ++
      (List.replicate (addressWords sa * 8 - (8 + sa.bytes.length)) 0 ++ rest) := by
  simp [addressExt,pad]

theorem keyExt_drop (keydata rest : List Byte) :
    (keyExt keydata ++ rest).drop 8 = keydata ++
      (List.replicate (keyWords keydata * 8 - (8 + keydata.length)) 0 ++ rest) := by
  simp [keyExt,pad]

theorem address_takes {exttype : Nat} (sa : Inet)
    (htype : exttype = SADB_EXT_ADDRESS_SRC ∨ exttype = SADB_EXT_ADDRESS_DST) {text : Ntop}
    (htext : ∀ m salen, sockNtop (sa.bytes ++ m) salen = some text) :
    Takes extBody Prod.fst stepExt
      (addressExt exttype sa,.address exttype text (fullLength sa) 0) := by
  have hwords : addressWords sa < 65536 := by
    have := sa.length_cases
    unfold addressWords
    omega
  have hbits : fullLength sa % 256 = fullLength sa := by
    unfold fullLength
    split <;> rfl
  have hext : addressExt exttype sa = ext (addressWords sa) exttype (big 1 0 ++
      (big 1 (fullLength sa) ++ (big 2 0 ++ pad (addressWords sa * 8 - 8) sa.bytes))) := by
    simp [addressExt,pad,sadbAddress,ext,Nat.sub_sub]
    omega
  have hlen := addressExt_length exttype sa
  rw [hext] at hlen ⊢
  refine ext_takes hlen hwords (by rcases htype with rfl | rfl <;> decide) fun rest => ?_
  have hload := ext_loadBig (addressWords sa) exttype (big 1 0 ++
    (big 1 (fullLength sa) ++ (big 2 0 ++ pad (addressWords sa * 8 - 8) sa.bytes))) rest
  have hproto := hload 4 1 (by decide)
  have hprefixlen := hload 5 1 (by decide)
  rw [← hext] at hproto hprefixlen ⊢
  have hprint : ∀ len, printExt exttype len = addressPrint exttype len := by
    intro len
    rcases htype with rfl | rfl <;> rfl
  rw [hprint,addressPrint,addressExt_drop,htext,hproto,hprefixlen]
  simp [loadBig_here,loadBig_shift,hbits]

theorem key_takes (keydata : List Byte) (hbits : 8 * keydata.length < 65536) :
    Takes extBody Prod.fst stepExt
      (keyExt keydata,.key SADB_EXT_KEY_AUTH (8 * keydata.length) keydata) := by
  have hwords : keyWords keydata < 65536 := by
    unfold keyWords
    omega
  have hext : keyExt keydata = ext (keyWords keydata) SADB_EXT_KEY_AUTH
      (big 2 (8 * keydata.length) ++ (big 2 0 ++ pad (keyWords keydata * 8 - 8) keydata)) := by
    simp [keyExt,pad,sadbKey,ext,Nat.sub_sub]
    omega
  have hlen := keyExt_length keydata
  rw [hext] at hlen ⊢
  refine ext_takes hlen hwords (by decide) fun rest => ?_
  have hload := ext_loadBig (keyWords keydata) SADB_EXT_KEY_AUTH (big 2 (8 * keydata.length) ++
    (big 2 0 ++ pad (keyWords keydata * 8 - 8) keydata)) rest 4 2 (by decide)
  have hlow : 8 * keydata.length % 65536 = 8 * keydata.length := Nat.mod_eq_of_lt hbits
  rw [← hext] at hload ⊢
  have hprint : ∀ len, printExt SADB_EXT_KEY_AUTH len = keyPrint SADB_EXT_KEY_AUTH := fun _ => rfl
  rw [hprint,keyPrint,hload,keyExt_drop]
  simp [loadBig_here,hlow,keyDigits_append]

/-- The request as it is printed, with the place of each extension. -/
def printedRequest (src dst : Inet) (tsrc tdst : Ntop) (alg spi : Nat) (keydata : List Byte) :
    List (Nat × Printed) :=
  let p := 32 + addressWords src * 8
  [(16,.sa (spi % 2^32) 0 SADB_SASTATE_MATURE (alg % 256) SADB_EALG_NONE false),
    (32,.address SADB_EXT_ADDRESS_SRC tsrc (fullLength src) 0),
    (p,.address SADB_EXT_ADDRESS_DST tdst (fullLength dst) 0),
    (p + addressWords dst * 8,.key SADB_EXT_KEY_AUTH (8 * keydata.length) keydata)]

theorem walk_request (src dst : Inet) (alg spi : Nat) {keydata : List Byte} {tsrc tdst : Ntop}
    (hsrc : ∀ m salen, sockNtop (src.bytes ++ m) salen = some tsrc)
    (hdst : ∀ m salen, sockNtop (dst.bytes ++ m) salen = some tdst)
    (hbits : 8 * keydata.length < 65536) (rest : List Byte) {fuel : Nat} (hfuel : 4 ≤ fuel) :
    walk extBody fuel (extensions src dst alg spi keydata).flatten.length
      ((extensions src dst alg spi keydata).flatten ++ rest) (16,[]) =
        .done (totalLength src dst keydata,printedRequest src dst tsrc tdst alg spi keydata) 0 := by
  let rs : List (List Byte × Printed) :=
    [(sadbSa spi alg,.sa (spi % 2^32) 0 SADB_SASTATE_MATURE (alg % 256) SADB_EALG_NONE false),
      (addressExt SADB_EXT_ADDRESS_SRC src,
        .address SADB_EXT_ADDRESS_SRC tsrc (fullLength src) 0),
      (addressExt SADB_EXT_ADDRESS_DST dst,
        .address SADB_EXT_ADDRESS_DST tdst (fullLength dst) 0),
      (keyExt keydata,.key SADB_EXT_KEY_AUTH (8 * keydata.length) keydata)]
  have htakes : ∀ r ∈ rs, Takes extBody Prod.fst stepExt r := by
    intro r hr
    simp only [rs,List.mem_cons,List.not_mem_nil,or_false] at hr
    rcases hr with rfl | rfl | rfl | rfl
    · exact sadbSa_takes spi alg
    · exact address_takes src (.inl rfl) hsrc
    · exact address_takes dst (.inr rfl) hdst
    · exact key_takes keydata hbits
  have hsize : ∀ r ∈ rs, r.1 ≠ [] := by
    intro r hr
    simp only [rs,List.mem_cons,List.not_mem_nil,or_false] at hr
    refine List.ne_nil_of_length_pos ?_
    rcases hr with rfl | rfl | rfl | rfl
    · simp
    · simp [addressExt_length,addressWords]
      omega
    · simp [addressExt_length,addressWords]
      omega
    · simp [keyExt_length,keyWords]
      omega
  have hwalk := walk_records htakes hsize rest (16,[]) hfuel
  have hplace : 32 + (addressWords src * 8 + (addressWords dst * 8 + keyWords keydata * 8)) =
      totalLength src dst keydata := by
    unfold totalLength
    omega
  simpa [rs,extensions,fold,Except.bind,stepExt,addressExt_length,keyExt_length,Walk.ofExcept,
    printedRequest,Nat.add_assoc,hplace] using hwalk

theorem printSadbMsg_eq (type pid : Nat) {len : Nat} (hwords : len / 8 < 65536) (h8 : 8 ∣ len)
    (hmore : len ≠ 16) (fuel : Nat) (m : List Byte) :
    printSadbMsg fuel (sadbMsg type pid (len / 8) ++ m) len =
      some (.message ⟨SADB_ADD,0,type % 256,0,pid % 2^32⟩
        (walk extBody fuel (len - 16) m (16,[]))) := by
  have hmsg : ∀ i k, i + k ≤ 16 → loadBig (sadbMsg type pid (len / 8) ++ m) i k =
      loadBig (sadbMsg type pid (len / 8)) i k :=
    fun i k hik => loadBig_left (by simpa using hik) m
  have hlast := loadBig_here 4 pid []
  rw [List.append_nil] at hlast
  have hlen : loadBig (sadbMsg type pid (len / 8)) 4 2 = some (len / 8) := by
    simpa [sadbMsg,loadBig_here,loadBig_shift] using hwords
  have hver : loadBig (sadbMsg type pid (len / 8)) 0 1 = some PF_KEY_V2 :=
    loadBig_here 1 PF_KEY_V2 _
  have htype : loadBig (sadbMsg type pid (len / 8)) 1 1 = some SADB_ADD := by
    simp [sadbMsg,loadBig_here,loadBig_shift,SADB_ADD]
  have herrno : loadBig (sadbMsg type pid (len / 8)) 2 1 = some 0 := by
    simp [sadbMsg,loadBig_here,loadBig_shift]
  have hsatype : loadBig (sadbMsg type pid (len / 8)) 3 1 = some (type % 256) := by
    simp [sadbMsg,loadBig_here,loadBig_shift]
  have hseq : loadBig (sadbMsg type pid (len / 8)) 8 4 = some 0 := by
    simp [sadbMsg,loadBig_here,loadBig_shift]
  have hpid : loadBig (sadbMsg type pid (len / 8)) 12 4 = some (pid % 2^32) := by
    simpa [sadbMsg,loadBig_shift] using hlast
  simp only [printSadbMsg,hmsg 4 2 (by decide),hmsg 0 1 (by decide),hmsg 1 1 (by decide),
    hmsg 2 1 (by decide),hmsg 3 1 (by decide),hmsg 8 4 (by decide),hmsg 12 4 (by decide),
    hlen,hver,htype,herrno,hsatype,hseq,hpid,Option.bind_eq_bind,Option.bind_some,Option.pure_def]
  rw [if_neg (by omega),if_neg (by simp),if_neg (by omega),List.drop_left' (sadbMsg_length ..)]

/-- An address extension behind `pre` has the address as its body. -/
theorem addressExt_body {pre : List Byte} {p : Nat} (hpre : pre.length = p) (exttype : Nat)
    (sa : Inet) (m : List Byte) :
    load (pre ++ (addressExt exttype sa ++ m)) (p + 8) sa.bytes.length = some sa.bytes := by
  have hhdr : (pre ++ sadbAddress (addressWords sa) exttype (fullLength sa)).length = p + 8 := by
    simp [hpre]
  have hload := load_middle hhdr sa.bytes
    (List.replicate (addressWords sa * 8 - (8 + sa.bytes.length)) 0 ++ m)
  simpa [addressExt,pad] using hload

/-- The request is one message as long as it says, and `print_sadb_msg` finds in it the four
extensions, the addresses and the key. -/
theorem sadbAdd_printed (pid type alg spi : Nat) (src dst : Inet) (keybits : Int)
    (keydata : List Byte) (hpos : 0 ≤ keybits) (h8 : 8 ∣ keybits)
    (hkey : keydata.length = (keybits / 8).toNat)
    (hfits : totalLength src dst keydata ≤ 4096) :
    ∃ b tsrc tdst, sadbAdd pid src.bytes dst.bytes type alg spi keybits keydata = some b ∧
      b.len = totalLength src dst keydata ∧ (loadBig b.buf 4 2).map (· * 8) = some b.len ∧
      sockNtop src.bytes src.bytes.length = some tsrc ∧
      sockNtop dst.bytes dst.bytes.length = some tdst ∧
      (∀ fuel, 4 ≤ fuel → printSadbMsg fuel b.buf b.len = some (.message
        ⟨SADB_ADD,0,type % 256,0,pid % 2^32⟩
        (.done (b.len,printedRequest src dst tsrc tdst alg spi keydata) 0))) ∧
      load b.buf (32 + 8) src.bytes.length = some src.bytes ∧
      load b.buf (32 + addressWords src * 8 + 8) dst.bytes.length = some dst.bytes ∧
      ∀ x ∈ printedRequest src dst tsrc tdst alg spi keydata, 8 ∣ x.1 := by
  have hbits : keybits = (8 * keydata.length : Nat) := by omega
  subst hbits
  obtain ⟨tsrc,hsrc⟩ := src.sockNtop_append
  obtain ⟨tdst,hdst⟩ := dst.sockNtop_append
  obtain ⟨b,hadd,hlen,hbuf⟩ := sadbAdd_eq pid src dst type alg spi keydata hfits
  have hexts := extensions_length src dst alg spi keydata
  have hwhole : totalLength src dst keydata / 8 * 8 = totalLength src dst keydata := by
    unfold totalLength
    omega
  have hmore : 32 ≤ totalLength src dst keydata := by
    unfold totalLength
    omega
  refine ⟨b,tsrc,tdst,hadd,hlen,?_,?_,?_,fun fuel hfuel => ?_,?_,?_,fun x hx => ?_⟩
  · have hwords : loadBig b.buf 4 2 = some (totalLength src dst keydata / 8) := by
      rw [hbuf]
      simp [sadbMsg,loadBig_here,loadBig_shift]
      omega
    rw [hwords,Option.map_some,hwhole,hlen]
  · simpa using hsrc [] src.bytes.length
  · simpa using hdst [] dst.bytes.length
  · have hbits : 8 * keydata.length < 65536 := by
      unfold totalLength keyWords at hfits
      omega
    have hwalk := walk_request src dst alg spi hsrc hdst hbits
      (List.replicate (4096 - totalLength src dst keydata) 0) hfuel
    have hleft : (totalLength src dst keydata : Int) - 16 =
        (extensions src dst alg spi keydata).flatten.length := by omega
    rw [hlen,hbuf,printSadbMsg_eq type pid (by omega) (by omega) (by omega),hleft,hwalk]
  · have hpre : (sadbMsg type pid (totalLength src dst keydata / 8) ++ sadbSa spi alg).length =
        32 := by simp
    rw [hbuf]
    simpa [extensions] using addressExt_body hpre SADB_EXT_ADDRESS_SRC src
      (addressExt SADB_EXT_ADDRESS_DST dst ++ (keyExt keydata ++
        List.replicate (4096 - totalLength src dst keydata) 0))
  · have hpre : (sadbMsg type pid (totalLength src dst keydata / 8) ++ (sadbSa spi alg ++
        addressExt SADB_EXT_ADDRESS_SRC src)).length = 32 + addressWords src * 8 := by
      simp [addressExt_length]
      omega
    rw [hbuf]
    simpa [extensions] using addressExt_body hpre SADB_EXT_ADDRESS_DST dst (keyExt keydata ++
      List.replicate (4096 - totalLength src dst keydata) 0)
  · simp only [printedRequest,List.mem_cons,List.not_mem_nil,or_false] at hx
    rcases hx with rfl | rfl | rfl | rfl <;> simp <;> omega

/-- A key of 128 bits between an IPv4 and an IPv6 address. -/
theorem sadbAdd_printed_md5 :
    let src : Inet := ⟨16 :: 2 :: List.replicate 14 1,_,.inl ⟨rfl,rfl⟩⟩
    let dst : Inet := ⟨28 :: 28 :: List.replicate 26 2,_,.inr ⟨rfl,rfl⟩⟩
    ∃ b, sadbAdd 7 src.bytes dst.bytes 2 2 39030 128 (List.replicate 16 171) = some b ∧
      b.len = 120 := by
  intro src dst
  obtain ⟨b,_,_,hadd,hlen,-⟩ := sadbAdd_printed 7 2 2 39030 src dst 128 (List.replicate 16 171)
    (by decide) (by decide) rfl (by decide)
  exact ⟨b,hadd,hlen.trans (by decide)⟩

end UnixNet.PfKey
