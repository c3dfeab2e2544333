import Mathlib.Data.List.Basic
import UnixNet.Library.ByteOrder
set_option autoImplicit false

/-! Loads from a row of cells and stores into it, which fail outside of it. -/

namespace Memory
variable {β : Type}

def load (m : List β) (i n : Nat) : Option (List β) :=
  if i + n ≤ m.length then some ((m.drop i).take n) else none

def store (m : List β) (i : Nat) (l : List β) : Option (List β) :=
  if i + l.length ≤ m.length then some (m.take i ++ (l ++ m.drop (i + l.length))) else none

theorem load_shift {a m : List β} {i : Nat} (h : a.length ≤ i) (n : Nat) :
    load (a ++ m) i n = load m (i - a.length) n := by
  obtain ⟨k,rfl⟩ := Nat.exists_eq_add_of_le h
  have hdrop : (a ++ m).drop (a.length + k) = m.drop k := by
    rw [← List.drop_drop,List.drop_left]
  simp [load,hdrop,Nat.add_assoc]

theorem load_here {a : List β} {n : Nat} (h : a.length = n) (m : List β) :
    load (a ++ m) 0 n = some a := by
  subst h
  simp [load]

theorem load_middle {a : List β} {i : Nat} (h : a.length = i) (l m : List β) :
    load (a ++ (l ++ m)) i l.length = some l := by
  rw [load_shift (by omega),h,Nat.sub_self,load_here rfl]

theorem load_left {a : List β} {i n : Nat} (h : i + n ≤ a.length) (m : List β) :
    load (a ++ m) i n = load a i n := by
  have hle : i + n ≤ (a ++ m).length := by
    rw [List.length_append]
    omega
  rw [load,load,if_pos h,if_pos hle,List.drop_append_of_le_length (by omega),
    List.take_append_of_le_length (by rw [List.length_drop]; omega)]

/-- A store over cells in the middle. -/
theorem store_middle (a m : List β) {old l : List β} (h : old.length = l.length) :
    store (a ++ (old ++ m)) a.length l = some (a ++ (l ++ m)) := by
  have hdrop : (a ++ (old ++ m)).drop (a.length + l.length) = m := by
    rw [← List.drop_drop,List.drop_left,← h,List.drop_left]
  have hfits : a.length + l.length ≤ (a ++ (old ++ m)).length := by
    simp [← h]
  rw [store,if_pos hfits,hdrop,List.take_left]

/-- A store at the start of cells that are all alike. -/
theorem store_replicate (a : List β) (x : β) {l : List β} {n : Nat} (h : l.length ≤ n) :
    store (a ++ List.replicate n x) a.length l =
      some ((a ++ l) ++ List.replicate (n - l.length) x) := by
  have hsplit : List.replicate n x =
      List.replicate l.length x ++ List.replicate (n - l.length) x := by
    rw [List.replicate_append_replicate]
    congr 1
    omega
  rw [hsplit,store_middle a _ (by simp),List.append_assoc]

/-! ## Numbers, the most significant byte first -/

def big (k x : Nat) : List UInt8 := (ByteOrder.bytes k x).reverse

def loadBig (m : List UInt8) (i k : Nat) : Option Nat :=
  (load m i k).map fun bs => ByteOrder.value bs.reverse

@[simp] theorem big_length (k x : Nat) : (big k x).length = k := by simp [big]

theorem loadBig_shift {a m : List UInt8} {i : Nat} (h : a.length ≤ i) (k : Nat) :
    loadBig (a ++ m) i k = loadBig m (i - a.length) k := by rw [loadBig,load_shift h,loadBig]

theorem loadBig_left {a : List UInt8} {i k : Nat} (h : i + k ≤ a.length) (m : List UInt8) :
    loadBig (a ++ m) i k = loadBig a i k := by rw [loadBig,load_left h,loadBig]

theorem loadBig_here (k x : Nat) (m : List UInt8) :
    loadBig (big k x ++ m) 0 k = some (x % 256 ^ k) := by
  rw [loadBig,load_here (big_length k x),Option.map_some,big,List.reverse_reverse,
    ByteOrder.value_bytes]

theorem load_length {m l : List β} {i n : Nat} (h : load m i n = some l) : l.length = n := by
  unfold load at h
  split at h
  · cases h
    rw [List.length_take,List.length_drop]
    omega
  · cases h

theorem load_bound {m l : List β} {i n : Nat} (h : load m i n = some l) : i + n ≤ m.length := by
  by_contra hout
  rw [load,if_neg hout] at h
  cases h

theorem store_bound {m m' l : List β} {i : Nat} (h : store m i l = some m') :
    i + l.length ≤ m.length := by
  by_contra hout
  rw [store,if_neg hout] at h
  cases h

theorem store_length {m m' l : List β} {i : Nat} (h : store m i l = some m') :
    m'.length = m.length := by
  have hin := store_bound h
  rw [store,if_pos hin] at h
  cases h
  simp only [List.length_append,List.length_take,List.length_drop]
  omega

theorem loadBig_lt {m : List UInt8} {i k x : Nat} (h : loadBig m i k = some x) : x < 256 ^ k := by
  obtain ⟨bs,hbs,rfl⟩ := Option.map_eq_some_iff.mp h
  have hlt := ByteOrder.value_lt bs.reverse
  rwa [List.length_reverse,load_length hbs] at hlt

/-- A load that succeeds does not look behind its cells. -/
theorem load_append {a l : List β} {i n : Nat} (h : load a i n = some l) (m : List β) :
    load (a ++ m) i n = some l := by
  by_cases hle : i + n ≤ a.length
  · rw [load_left hle,h]
  · rw [load,if_neg hle] at h
    cases h

theorem loadBig_append {a : List UInt8} {i k x : Nat} (h : loadBig a i k = some x)
    (m : List UInt8) : loadBig (a ++ m) i k = some x := by
  obtain ⟨bs,hbs,rfl⟩ := Option.map_eq_some_iff.mp h
  rw [loadBig,load_append hbs,Option.map_some]

end Memory
