import Mathlib.Data.List.Basic
import Mathlib.Data.List.Nodup
set_option autoImplicit false

/-!
Passes of a loop over places: computations on a state that write a log and may
stop the program. `countdown` is the loop that leaves early by counting.
-/

/-- `stop` is the reason why the program stopped, if it did. -/
structure Pass (σ ε α : Type*) where
  state : σ
  stop : Option ε
  log : List α

namespace Pass
variable {σ ε α ι : Type*}

def done (s : σ) : Pass σ ε α := ⟨s,none,[]⟩

/-- Goes on with `f` unless the program has stopped. -/
def andThen (p : Pass σ ε α) (f : σ → Pass σ ε α) : Pass σ ε α :=
  match p.stop with
  | none => ⟨(f p.state).state,(f p.state).stop,p.log ++ (f p.state).log⟩
  | some _ => p

@[simp] theorem done_state (s : σ) : (done s : Pass σ ε α).state = s := rfl
@[simp] theorem done_stop (s : σ) : (done s : Pass σ ε α).stop = none := rfl
@[simp] theorem done_log (s : σ) : (done s : Pass σ ε α).log = [] := rfl

theorem andThen_none {p : Pass σ ε α} (h : p.stop = none) (f : σ → Pass σ ε α) :
    p.andThen f = ⟨(f p.state).state,(f p.state).stop,p.log ++ (f p.state).log⟩ := by
  simp [andThen,h]

theorem andThen_some {p : Pass σ ε α} (h : p.stop ≠ none) (f : σ → Pass σ ε α) :
    p.andThen f = p := by
  obtain ⟨e,he⟩ := Option.ne_none_iff_exists'.mp h
  simp [andThen,he]

@[simp] theorem andThen_done (p : Pass σ ε α) : p.andThen done = p := by
  obtain ⟨s,stop,log⟩ := p
  cases stop <;> simp [andThen]

theorem andThen_stop {p : Pass σ ε α} {f : σ → Pass σ ε α} :
    (p.andThen f).stop = none ↔ p.stop = none ∧ (f p.state).stop = none := by
  obtain ⟨s,stop,log⟩ := p
  cases stop <;> simp [andThen]

/-- Every place of the list, unless the program stops on the way. -/
def each (serve : ι → σ → Pass σ ε α) : List ι → σ → Pass σ ε α
  | [], s => done s
  | i :: is, s => (serve i s).andThen (each serve is)

/-- `for (i ...) if (hot) { serve; if (--n <= 0) break; }` -/
def countdown (hot : σ → ι → Bool) (serve : ι → σ → Pass σ ε α) :
    List ι → σ → Int → Pass σ ε α
  | [], s, _ => done s
  | i :: is, s, n =>
    if hot s i then
      (serve i s).andThen fun s => if n - 1 ≤ 0 then done s else countdown hot serve is s (n-1)
    else countdown hot serve is s n

@[simp] theorem each_nil (serve : ι → σ → Pass σ ε α) (s : σ) : each serve [] s = done s := rfl

theorem each_cons (serve : ι → σ → Pass σ ε α) (i : ι) (is : List ι) (s : σ) :
    each serve (i :: is) s = (serve i s).andThen (each serve is) := rfl

theorem andThen_assoc (p : Pass σ ε α) (f g : σ → Pass σ ε α) :
    (p.andThen f).andThen g = p.andThen fun s => (f s).andThen g := by
  obtain ⟨s,stop,log⟩ := p
  cases stop with
  | some e => rfl
  | none =>
    cases h : (f s).stop <;> simp [andThen,h]

theorem each_append (serve : ι → σ → Pass σ ε α) (is js : List ι) (s : σ) :
    each serve (is ++ js) s = (each serve is s).andThen (each serve js) := by
  induction is generalizing s with
  | nil => simp [andThen]
  | cons i is ih =>
    simp only [List.cons_append,each_cons,andThen_assoc]
    congr 1
    funext t
    exact ih t

@[simp] theorem each_singleton (serve : ι → σ → Pass σ ε α) (i : ι) (s : σ) :
    each serve [i] s = serve i s := andThen_done _

theorem each_keeps {serve : ι → σ → Pass σ ε α} {I : σ → Prop} {Q : ι → σ → Prop}
    (hserve : ∀ i s, I s → Q i s → I (serve i s).state)
    (hkeep : ∀ i j s, i ≠ j → Q j s → Q j (serve i s).state)
    {is : List ι} (hnd : is.Nodup) {s : σ} (hs : I s) (hq : ∀ i ∈ is, Q i s) :
    I (each serve is s).state := by
  induction is generalizing s with
  | nil => exact hs
  | cons i is ih =>
    obtain ⟨hi,hnd⟩ := List.nodup_cons.mp hnd
    have hI := hserve i s hs (hq i (by simp))
    rw [each_cons]
    by_cases hstop : (serve i s).stop = none
    · rw [andThen_none hstop]
      exact ih hnd hI fun j hj =>
        hkeep i j s (ne_of_mem_of_not_mem hj hi).symm (hq j (by simp [hj]))
    · rw [andThen_some hstop]
      exact hI

/-- Places that are served in any state with `I` and `Q`, where no place spoils
another: nothing stops the loop, and its log is made of theirs. -/
theorem each_served {serve : ι → σ → Pass σ ε α} {I : σ → Prop} {Q : ι → σ → Prop}
    (log : ι → List α) (hserve : ∀ i s, I s → Q i s →
      (serve i s).stop = none ∧ (serve i s).log = log i ∧ I (serve i s).state)
    (hkeep : ∀ i j s, i ≠ j → Q j s → Q j (serve i s).state)
    {is : List ι} (hnd : is.Nodup) {s : σ} (hs : I s) (hq : ∀ i ∈ is, Q i s) :
    (each serve is s).stop = none ∧ (each serve is s).log = is.flatMap log ∧
      I (each serve is s).state := by
  induction is generalizing s with
  | nil => exact ⟨rfl,rfl,hs⟩
  | cons i is ih =>
    obtain ⟨hi,hnd⟩ := List.nodup_cons.mp hnd
    obtain ⟨hstop,hlog,hI⟩ := hserve i s hs (hq i (by simp))
    have hq' : ∀ j ∈ is, Q j (serve i s).state := fun j hj =>
      hkeep i j s (ne_of_mem_of_not_mem hj hi).symm (hq j (by simp [hj]))
    obtain ⟨hrest,hlog',hI'⟩ := ih hnd hI hq'
    rw [each_cons,andThen_none hstop]
    exact ⟨hrest,by rw [hlog,hlog',List.flatMap_cons],hI'⟩

theorem mem_each {serve : ι → σ → Pass σ ε α} {Q : ι → σ → Prop}
    (hkeep : ∀ i j s, i ≠ j → Q j s → Q j (serve i s).state)
    {is : List ι} (hnd : is.Nodup) {s : σ} (hq : ∀ i ∈ is, Q i s) {a : α}
    (ha : a ∈ (each serve is s).log) : ∃ i ∈ is, ∃ t, Q i t ∧ a ∈ (serve i t).log := by
  induction is generalizing s with
  | nil => cases ha
  | cons i is ih =>
    obtain ⟨hi,hnd⟩ := List.nodup_cons.mp hnd
    have hhere : a ∈ (serve i s).log → ∃ j ∈ i :: is, ∃ t, Q j t ∧ a ∈ (serve j t).log :=
      fun h => ⟨i,by simp,s,hq i (by simp),h⟩
    rw [each_cons] at ha
    by_cases hstop : (serve i s).stop = none
    · rw [andThen_none hstop] at ha
      rcases List.mem_append.mp ha with ha | ha
      · exact hhere ha
      · obtain ⟨j,hj,h⟩ := ih hnd (fun j hj => hkeep i j s (ne_of_mem_of_not_mem hj hi).symm
          (hq j (by simp [hj]))) ha
        exact ⟨j,by simp [hj],h⟩
    · rw [andThen_some hstop] at ha
      exact hhere ha

theorem each_stops {serve : ι → σ → Pass σ ε α} {Q : ι → σ → Prop}
    (hserve : ∀ i s, Q i s → (serve i s).stop ≠ none)
    (hkeep : ∀ i j s, i ≠ j → Q j s → Q j (serve i s).state)
    {is : List ι} {i : ι} (hi : i ∈ is) {s : σ} (hq : Q i s) : (each serve is s).stop ≠ none := by
  induction is generalizing s with
  | nil => cases hi
  | cons j is ih =>
    rw [each_cons]
    intro hnone
    obtain ⟨hj,hrest⟩ := andThen_stop.mp hnone
    by_cases hij : i = j
    · subst hij
      exact hserve i s hq hj
    · have hmem := (List.mem_cons.mp hi).resolve_left hij
      exact ih hmem (hkeep j i s (Ne.symm hij) hq) hrest

/-- The loop serves the first `n` hot places, provided that serving one place does
not change whether another is hot. -/
theorem countdown_eq_each {hot : σ → ι → Bool} {serve : ι → σ → Pass σ ε α}
    (hkeep : ∀ i j s, i ≠ j → hot (serve i s).state j = hot s j)
    {is : List ι} (hnd : is.Nodup) {n : Int} (hn : 0 < n) (s : σ) :
    countdown hot serve is s n = each serve ((is.filter (hot s)).take n.toNat) s := by
  induction is generalizing s n with
  | nil => simp [countdown]
  | cons i is ih =>
    obtain ⟨hi,hnd⟩ := List.nodup_cons.mp hnd
    by_cases hhot : hot s i = true
    · have hsame : is.filter (hot (serve i s).state) = is.filter (hot s) := by
        refine List.filter_congr fun j hj => hkeep i j s ?_
        rintro rfl
        exact hi hj
      obtain ⟨k,hk⟩ : ∃ k, n.toNat = k + 1 := ⟨n.toNat - 1,by omega⟩
      rw [countdown,if_pos hhot,List.filter_cons_of_pos hhot,hk,List.take_succ_cons,each_cons]
      by_cases hstop : (serve i s).stop = none
      · rw [andThen_none hstop,andThen_none hstop]
        by_cases hlast : n - 1 ≤ 0
        · have hk0 : k = 0 := by omega
          simp [hlast,hk0]
        · have hk1 : (n - 1).toNat = k := by omega
          rw [if_neg hlast,ih hnd (by omega) (serve i s).state,hsame,hk1]
      · rw [andThen_some hstop,andThen_some hstop]
    · rw [countdown,if_neg hhot,List.filter_cons_of_neg hhot]
      exact ih hnd hn s

/-- Whatever serving a hot place keeps, the loop keeps. -/
theorem countdown_keeps {hot : σ → ι → Bool} {serve : ι → σ → Pass σ ε α} {I : σ → Prop}
    (hserve : ∀ i s, I s → hot s i = true → I (serve i s).state)
    (is : List ι) (n : Int) {s : σ} (hs : I s) : I (countdown hot serve is s n).state := by
  induction is generalizing s n with
  | nil => exact hs
  | cons i is ih =>
    by_cases hhot : hot s i = true
    · have hI := hserve i s hs hhot
      rw [countdown,if_pos hhot]
      by_cases hstop : (serve i s).stop = none
      · rw [andThen_none hstop]
        by_cases hlast : n - 1 ≤ 0
        · simpa [hlast] using hI
        · simpa [hlast] using ih (n-1) hI
      · rw [andThen_some hstop]
        exact hI
    · rw [countdown,if_neg hhot]
      exact ih n hs

theorem countdown_stop {hot : σ → ι → Bool} {serve : ι → σ → Pass σ ε α} {P : Option ε → Prop}
    (hnone : P none) (hserve : ∀ i s, P (serve i s).stop) (is : List ι) (s : σ) (n : Int) :
    P (countdown hot serve is s n).stop := by
  induction is generalizing s n with
  | nil => exact hnone
  | cons i is ih =>
    by_cases hhot : hot s i = true
    · rw [countdown,if_pos hhot]
      by_cases hstop : (serve i s).stop = none
      · rw [andThen_none hstop]
        by_cases hlast : n - 1 ≤ 0
        · simpa [hlast] using hnone
        · simpa [hlast] using ih (serve i s).state (n-1)
      · rw [andThen_some hstop]
        exact hserve i s
    · rw [countdown,if_neg hhot]
      exact ih s n

/-- What a log tells about the state: each place changes `f` as its entries say. -/
theorem each_fold {β : Type*} {serve : ι → σ → Pass σ ε α} {f : σ → β} {g : β → α → β}
    (h : ∀ i s, f (serve i s).state = (serve i s).log.foldl g (f s)) (is : List ι) (s : σ) :
    f (each serve is s).state = (each serve is s).log.foldl g (f s) := by
  induction is generalizing s with
  | nil => rfl
  | cons i is ih =>
    rw [each_cons]
    by_cases hstop : (serve i s).stop = none
    · rw [andThen_none hstop,List.foldl_append,ih,h]
    · rw [andThen_some hstop,h]

section
variable {τ ε' κ : Type*}

/-- Two programs that go on, with the same log and related states. -/
structure Agree (R : σ → τ → Prop) (p : Pass σ ε α) (q : Pass τ ε' α) : Prop where
  left : p.stop = none
  right : q.stop = none
  log : p.log = q.log
  related : R p.state q.state

theorem Agree.andThen {R R' : σ → τ → Prop} {p : Pass σ ε α} {q : Pass τ ε' α}
    (h : Agree R p q) {f : σ → Pass σ ε α} {g : τ → Pass τ ε' α}
    (hfg : Agree R' (f p.state) (g q.state)) : Agree R' (p.andThen f) (q.andThen g) := by
  rw [andThen_none h.left,andThen_none h.right]
  exact ⟨hfg.left,hfg.right,by rw [h.log,hfg.log],hfg.related⟩

theorem each_agree {serve : ι → σ → Pass σ ε α} {serve' : κ → τ → Pass τ ε' α} {f : ι → κ}
    {R : σ → τ → Prop} {Q : ι → σ → Prop}
    (hserve : ∀ i s t, R s t → Q i s → Agree R (serve i s) (serve' (f i) t))
    (hkeep : ∀ i j s, i ≠ j → Q j s → Q j (serve i s).state)
    {is : List ι} (hnd : is.Nodup) {s : σ} {t : τ} (hR : R s t) (hq : ∀ i ∈ is, Q i s) :
    Agree R (each serve is s) (each serve' (is.map f) t) := by
  induction is generalizing s t with
  | nil => exact ⟨rfl,rfl,rfl,hR⟩
  | cons i is ih =>
    obtain ⟨hi,hnd⟩ := List.nodup_cons.mp hnd
    have hhere := hserve i s t hR (hq i (by simp))
    refine hhere.andThen (ih hnd hhere.related fun j hj => ?_)
    exact hkeep i j s (ne_of_mem_of_not_mem hj hi).symm (hq j (by simp [hj]))

end

end Pass
