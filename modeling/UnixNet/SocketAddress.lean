import UnixNet.Library.Memory
import UnixNet.Descriptor
set_option autoImplicit false

/-! Socket addresses as bytes, with `sa_len` in front, and what `sock_ntop` makes of them. -/

namespace UnixNet
open Memory

namespace Sa

def AF_UNIX : Nat := 1
def AF_INET : Nat := 2
def AF_LINK : Nat := 18
def AF_INET6 : Nat := 28

/-- The string at `i`, which needs its NUL. -/
def stringAt (m : List Byte) (i : Nat) : Option (List Byte) :=
  if 0 ∈ m.drop i then some ((m.drop i).takeWhile fun c => c ≠ 0) else none

/-- The conversion `%*s`: the string of `m`, in a field of at least `width` characters. -/
def starString (width : Nat) (m : List Byte) : Option (List Byte) :=
  (stringAt m 0).map fun s => List.replicate (width - s.length) 32 ++ s

/-- The format that `sock_ntop` uses, with its arguments. -/
inductive Ntop where
  | inet (addr : List Byte) (port : Nat) : Ntop
  | inet6 (addr : List Byte) (port : Nat) : Ntop
  | pathname (path : List Byte) : Ntop
  | link (name : List Byte) (index : Nat) : Ntop
  | linkIndex (index : Nat) : Ntop
  | unknown (family salen : Nat) : Ntop
  deriving DecidableEq, Repr

def sockNtop (sa : List Byte) (salen : Nat) : Option Ntop := do
  let family ← loadBig sa 1 1
  if family = AF_INET then
    return .inet (← load sa 4 4) (← loadBig sa 2 2)
  else if family = AF_INET6 then
    return .inet6 (← load sa 8 16) (← loadBig sa 2 2)
  else if family = AF_UNIX then
    return .pathname (← stringAt sa 2)
  else if family = AF_LINK then
    let nlen ← loadBig sa 5 1
    if 0 < nlen then
      return .link (← starString nlen (sa.drop 8)) (← loadBig sa 2 2)
    else return .linkIndex (← loadBig sa 2 2)
  else return .unknown family salen

/-- A `sockaddr_in` or a `sockaddr_in6` with its length filled in. -/
structure Inet where
  bytes : List Byte
  wf : ∃ rest, bytes = 16 :: 2 :: rest ∧ rest.length = 14 ∨
    bytes = 28 :: 28 :: rest ∧ rest.length = 26

theorem Inet.length_cases (sa : Inet) : sa.bytes.length = 16 ∨ sa.bytes.length = 28 := by
  obtain ⟨bytes,rest,⟨rfl,h⟩ | ⟨rfl,h⟩⟩ := sa
  · exact .inl (by simp [h])
  · exact .inr (by simp [h])

/-- What follows an address makes no difference to `sock_ntop`. -/
theorem Inet.sockNtop_append (sa : Inet) :
    ∃ text, ∀ m salen, sockNtop (sa.bytes ++ m) salen = some text := by
  have hload : ∀ i n, i + n ≤ sa.bytes.length → ∃ l, ∀ m, load (sa.bytes ++ m) i n = some l :=
    fun i n hin => ⟨_,fun m => by rw [load_left hin,load,if_pos hin]⟩
  obtain ⟨port,hport⟩ : ∃ port, ∀ m, loadBig (sa.bytes ++ m) 2 2 = some port := by
    obtain ⟨l,hl⟩ := hload 2 2 (by have := sa.length_cases; omega)
    exact ⟨_,fun m => by rw [loadBig,hl]; rfl⟩
  obtain ⟨bytes,rest,⟨rfl,h⟩ | ⟨rfl,h⟩⟩ := sa
  · obtain ⟨addr,haddr⟩ := hload 4 4 (by simp [h])
    have hfamily : ∀ m, loadBig ((16 :: 2 :: rest) ++ m) 1 1 = some AF_INET := by
      intro m
      simp [loadBig,load,ByteOrder.value,AF_INET]
    exact ⟨.inet addr port,fun m salen => by simp only [sockNtop,hfamily,haddr,hport]; rfl⟩
  · obtain ⟨addr,haddr⟩ := hload 8 16 (by simp [h])
    have hfamily : ∀ m, loadBig ((28 :: 28 :: rest) ++ m) 1 1 = some AF_INET6 := by
      intro m
      simp [loadBig,load,ByteOrder.value,AF_INET6]
    exact ⟨.inet6 addr port,fun m salen => by simp only [sockNtop,hfamily,haddr,hport]; rfl⟩

end Sa

end UnixNet
