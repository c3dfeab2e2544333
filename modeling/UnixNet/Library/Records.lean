import Mathlib.Data.List.Basic
import Mathlib.Algebra.Order.Ring.Int
set_option autoImplicit false

/-! A loop over a buffer of records, where each record tells its own size. -/

namespace Records
variable {β σ ρ ε : Type}

/-- How the loop ends: with the bytes that it still counts, by leaving it from within a turn, or
not at all within the turns that it was given. -/
inductive Walk (ε σ : Type) where
  | done (s : σ) (left : Int) : Walk ε σ
  | left (e : ε) : Walk ε σ
  | running : Walk ε σ
  deriving DecidableEq, Repr

/-- `body` gets what lies from the record on, and returns the size that the record tells. -/
def walk (body : List β → σ → Except ε (σ × Nat)) : Nat → Int → List β → σ → Walk ε σ
  | 0, n, _, s => if 0 < n then .running else .done s n
  | fuel+1, n, bs, s =>
    if 0 < n then
      match body bs s with
      | .error e => .left e
      | .ok (s,size) => walk body fuel (n - size) (bs.drop size) s
    else .done s n

/-- A body that does with a record, and with what follows it, as `step` does. -/
def Takes (body : List β → σ → Except ε (σ × Nat)) (bytes : ρ → List β)
    (step : σ → ρ → List β → Except ε σ) (r : ρ) : Prop :=
  ∀ rest s, body (bytes r ++ rest) s = (step s r rest).map fun s => (s,(bytes r).length)

/-- The records one after the other, each one with what follows it. -/
def fold (bytes : ρ → List β) (step : σ → ρ → List β → Except ε σ) (rest : List β) :
    List ρ → σ → Except ε σ
  | [], s => .ok s
  | r :: rs, s => (step s r (rs.flatMap bytes ++ rest)).bind (fold bytes step rest rs)

def Walk.ofExcept : Except ε σ → Walk ε σ
  | .error e => .left e
  | .ok s => .done s 0

theorem Walk.ofExcept_done {r : Except ε σ} {s : σ} (h : Walk.ofExcept r = .done s 0) :
    r = .ok s := by
  cases r with
  | error e => cases h
  | ok s' =>
    cases h
    rfl

theorem fold_append (bytes : ρ → List β) (step : σ → ρ → List β → Except ε σ) (rest : List β)
    (rs rs' : List ρ) (s : σ) :
    fold bytes step rest (rs ++ rs') s =
      (fold bytes step (rs'.flatMap bytes ++ rest) rs s).bind (fold bytes step rest rs') := by
  induction rs generalizing s with
  | nil => rfl
  | cons r rs ih =>
    simp only [fold,List.cons_append,List.flatMap_append,List.append_assoc]
    cases step s r (rs.flatMap bytes ++ (rs'.flatMap bytes ++ rest)) with
    | error e => rfl
    | ok s' => exact ih s'

/-- The loop over records is the fold over them. -/
theorem walk_records {body : List β → σ → Except ε (σ × Nat)} {bytes : ρ → List β}
    {step : σ → ρ → List β → Except ε σ} {rs : List ρ}
    (htakes : ∀ r ∈ rs, Takes body bytes step r) (hsize : ∀ r ∈ rs, bytes r ≠ [])
    (rest : List β) (s : σ) {fuel : Nat} (hfuel : rs.length ≤ fuel) :
    walk body fuel (rs.flatMap bytes).length (rs.flatMap bytes ++ rest) s =
      .ofExcept (fold bytes step rest rs s) := by
  induction rs generalizing s fuel with
  | nil => cases fuel <;> simp [walk,fold,Walk.ofExcept]
  | cons r rs ih =>
    obtain ⟨fuel,rfl⟩ := Nat.exists_eq_add_of_lt hfuel
    obtain ⟨hr,hrs⟩ := List.forall_mem_cons.mp htakes
    obtain ⟨hpos,hsizes⟩ := List.forall_mem_cons.mp hsize
    have hlen : 0 < (bytes r).length := List.length_pos_of_ne_nil hpos
    have htotal : (((r :: rs).flatMap bytes).length : Int) =
        (bytes r).length + (rs.flatMap bytes).length := by simp
    rw [htotal,List.flatMap_cons,List.append_assoc,walk,if_pos (by omega),hr,fold]
    cases hstep : step s r (rs.flatMap bytes ++ rest) with
    | error e => rfl
    | ok s' =>
      have hleft : ((bytes r).length + (rs.flatMap bytes).length : Int) - (bytes r).length =
          (rs.flatMap bytes).length := by omega
      simp only [Except.map,hleft,List.drop_left]
      exact ih hrs hsizes s' (by simp)

end Records
