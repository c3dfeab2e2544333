import Mathlib.Data.Finset.Card
import Mathlib.Data.Finset.Dedup
import Mathlib.Data.List.Nodup
set_option autoImplicit false

/-! Work lists with a count of what is left, for loops that stop when the count says so. -/

namespace Worklist
variable {α : Type*} [DecidableEq α] {R : Finset α} {l : List α} {n : Int} {x : α}

/-- Of the members of `R`, those in `l` are done, each once, and `n` are left. -/
structure Counts (R : Finset α) (l : List α) (n : Int) : Prop where
  nodup : l.Nodup
  sub : ∀ x ∈ l, x ∈ R
  count : n = (R \ l.toFinset).card

theorem counts_nil (R : Finset α) : Counts R [] R.card := ⟨List.nodup_nil,nofun,by simp⟩

theorem Counts.push (h : Counts R l n) (hx : x ∈ R) (hnew : x ∉ l) :
    Counts R (l ++ [x]) (n - 1) := by
  refine ⟨?_,fun y hy => ?_,?_⟩
  · rw [List.nodup_append_comm]
    exact List.nodup_cons.mpr ⟨hnew,h.nodup⟩
  · rcases List.mem_append.mp hy with hy | hy
    · exact h.sub y hy
    · rwa [List.mem_singleton.mp hy]
  · have hleft : x ∈ R \ l.toFinset := Finset.mem_sdiff.mpr ⟨hx,by simpa using hnew⟩
    have herase : R \ (l ++ [x]).toFinset = (R \ l.toFinset).erase x := by
      ext y
      simp only [Finset.mem_sdiff,List.mem_toFinset,List.mem_append,List.mem_singleton,
        Finset.mem_erase]
      tauto
    have hcard := Finset.card_erase_of_mem hleft
    have hpos := Finset.card_pos.mpr ⟨x,hleft⟩
    rw [herase,h.count]
    omega

/-- When none is left, all are done. -/
theorem Counts.all (h : Counts R l n) (hn : n ≤ 0) : ∀ x ∈ R, x ∈ l := by
  have hcount := h.count
  have hnone := Finset.card_eq_zero.mp (show (R \ l.toFinset).card = 0 by omega)
  exact fun x hx => List.mem_toFinset.mp (Finset.sdiff_eq_empty_iff_subset.mp hnone hx)

end Worklist
