import Mathlib.Data.List.TakeWhile
import UnixNet.Library.Memory
set_option autoImplicit false

/-! Strings that end at a NUL, in a row of cells, and the calls that write them there. -/

namespace CString
variable {β : Type} (nul : β)

/-- The cells start with the string `l`. -/
def Holds (m l : List β) : Prop := nul ∉ l ∧ ∃ rest, m = l ++ nul :: rest

/-- `sprintf(m + i, ...)` when the conversions give `l`. -/
def sprintf (m : List β) (i : Nat) (l : List β) : Option (List β) := Memory.store m i (l ++ [nul])

/-- `snprintf(m + i, size, ...)` when the conversions give `l`. -/
def snprintf (m : List β) (i size : Nat) (l : List β) : Option (List β) :=
  if size = 0 then some m else sprintf nul m i (l.take (size-1))

variable {nul}

theorem Holds.append {a m l : List β} (ha : nul ∉ a) (h : Holds nul m l) :
    Holds nul (a ++ m) (a ++ l) := by
  obtain ⟨hl,rest,rfl⟩ := h
  exact ⟨by simp [ha,hl],rest,by rw [List.append_assoc]⟩

variable [DecidableEq β] (nul)

/-- What a reader of the string in `m` sees. -/
def text (m : List β) : List β := m.takeWhile (· ≠ nul)

/-- `strlen` reads outside of the cells when none of them is NUL. -/
def strlen (m : List β) : Option Nat := if nul ∈ m then some (text nul m).length else none

def strcat (m l : List β) : Option (List β) := (strlen nul m).bind fun n => sprintf nul m n l

variable {nul}

theorem text_cons {x : β} (hx : x ≠ nul) (l : List β) : text nul (x :: l) = x :: text nul l := by
  simp [text,hx]

theorem nul_notMem_text (m : List β) : nul ∉ text nul m := by
  intro h
  simpa using List.mem_takeWhile_imp h

theorem text_append {l : List β} (h : nul ∉ l) (m : List β) :
    text nul (l ++ nul :: m) = l := by
  rw [text,List.takeWhile_append_of_pos]
  · simp
  · intro x hx
    simpa using fun heq : x = nul => h (heq ▸ hx)

theorem text_eq_self {l : List β} (h : nul ∉ l) : text nul l = l :=
  List.takeWhile_eq_self_iff.mpr fun x hx => by simpa using fun heq : x = nul => h (heq ▸ hx)

theorem text_take (m : List β) (n : Nat) : text nul (m.take n) = (text nul m).take n := by
  induction m generalizing n with
  | nil => simp [text]
  | cons x m ih =>
    cases n with
    | zero => simp [text]
    | succ n =>
      by_cases hx : x = nul
      · simp [text,hx]
      · rw [List.take_succ_cons,text_cons hx,text_cons hx,ih,List.take_succ_cons]

theorem holds_text (l m : List β) : Holds nul (l ++ nul :: m) (text nul l) := by
  refine ⟨nul_notMem_text l,?_⟩
  induction l with
  | nil => exact ⟨m,rfl⟩
  | cons x l ih =>
    by_cases hx : x = nul
    · exact ⟨l ++ nul :: m,by simp [text,hx]⟩
    · obtain ⟨rest,hrest⟩ := ih
      exact ⟨rest,by rw [text_cons hx,List.cons_append,hrest,List.cons_append]⟩

theorem Holds.text_eq {m l : List β} (h : Holds nul m l) : text nul m = l := by
  obtain ⟨hl,rest,rfl⟩ := h
  exact text_append hl rest

theorem Holds.strlen_eq {m l : List β} (h : Holds nul m l) : strlen nul m = some l.length := by
  obtain ⟨-,rest,hm⟩ := id h
  rw [strlen,if_pos (by simp [hm]),h.text_eq]

/-- A NUL-terminated store behind characters that are kept. -/
theorem sprintf_behind {a m l : List β} (ha : nul ∉ a) (hroom : l.length < m.length) :
    ∃ m', sprintf nul (a ++ m) a.length l = some m' ∧ m'.length = (a ++ m).length ∧
      Holds nul m' (a ++ text nul l) := by
  obtain ⟨m',hstore⟩ : ∃ m', sprintf nul (a ++ m) a.length l = some m' := by
    refine ⟨_,if_pos ?_⟩
    simp only [List.length_append,List.length_singleton]
    omega
  refine ⟨m',hstore,Memory.store_length hstore,?_⟩
  rw [sprintf,Memory.store,if_pos (Memory.store_bound hstore),List.take_left] at hstore
  cases hstore
  rw [List.append_assoc]
  exact (holds_text l _).append ha

/-- `snprintf` keeps to its size, and so do the characters that a reader sees. -/
theorem snprintf_behind {a m : List β} {size : Nat} (ha : nul ∉ a) (h0 : 0 < size)
    (hsize : size ≤ m.length) (l : List β) :
    ∃ m', snprintf nul (a ++ m) a.length size l = some m' ∧ m'.length = (a ++ m).length ∧
      Holds nul m' (a ++ (text nul l).take (size-1)) := by
  have hroom : (l.take (size-1)).length < m.length := by
    rw [List.length_take]
    omega
  rw [snprintf,if_neg (by omega),← text_take]
  exact sprintf_behind ha hroom

theorem sprintf_front (nul : β) {m l : List β} (hroom : l.length < m.length) :
    ∃ m', sprintf nul m 0 l = some m' ∧ m'.length = m.length ∧ Holds nul m' (text nul l) :=
  sprintf_behind List.not_mem_nil hroom

theorem snprintf_front (nul : β) {m : List β} {size : Nat} (h0 : 0 < size)
    (hsize : size ≤ m.length) (l : List β) :
    ∃ m', snprintf nul m 0 size l = some m' ∧ m'.length = m.length ∧
      Holds nul m' ((text nul l).take (size-1)) :=
  snprintf_behind List.not_mem_nil h0 hsize l

theorem Holds.snprintf {m a : List β} {size : Nat} (h : Holds nul m a) (h0 : 0 < size)
    (hsize : a.length + size ≤ m.length) (l : List β) :
    ∃ m', snprintf nul m a.length size l = some m' ∧ m'.length = m.length ∧
      Holds nul m' (a ++ (text nul l).take (size-1)) := by
  obtain ⟨ha,rest,rfl⟩ := h
  exact snprintf_behind ha h0 (by rw [List.length_append] at hsize; omega) l

theorem Holds.strcat {m a : List β} (h : Holds nul m a) {l : List β} (hl : nul ∉ l)
    (hroom : a.length + l.length < m.length) :
    ∃ m', strcat nul m l = some m' ∧ m'.length = m.length ∧ Holds nul m' (a ++ l) := by
  have hlen := h.strlen_eq
  obtain ⟨ha,rest,rfl⟩ := h
  obtain ⟨m',hm',hsame,hholds⟩ := sprintf_behind (m := nul :: rest) (l := l) ha
    (by rw [List.length_append] at hroom; omega)
  refine ⟨m',?_,hsame,?_⟩
  · rw [CString.strcat,hlen]
    exact hm'
  · rwa [text_eq_self hl] at hholds

/-- `strcat` has no size: it needs room for all of `l` behind the string. -/
theorem strcat_eq_none_iff {m a l : List β} (h : Holds nul m a) :
    strcat nul m l = none ↔ m.length ≤ a.length + l.length := by
  rw [CString.strcat,h.strlen_eq,Option.bind_some,sprintf,Memory.store]
  split
  · rename_i hfit
    rw [List.length_append,List.length_singleton] at hfit
    simp
    omega
  · rename_i hfit
    rw [List.length_append,List.length_singleton] at hfit
    simp
    omega

end CString
