import UnixNet.Library.Units
set_option autoImplicit false

/-!
Readers that take a sequence in segments and give it out in units. What a segment brings
behind the end of a unit waits in the buffer of the reader.
-/

namespace Units
variable {α : Type*}

/-- A unit that is not cut short by the end of the sequence. -/
def Complete (d : α) (m : Nat) (u : List α) : Prop := d ∈ u ∨ u.length = m

theorem complete_begun {d : α} {m : Nat} {p u : List α} (hp : d ∉ p) (hlen : p.length ≤ m) :
    Complete d m (p ++ u) ↔ Complete d (m - p.length) u := by
  simp only [Complete,List.mem_append,hp,false_or,List.length_append]
  constructor <;> rintro (h | h)
  · exact .inl h
  · exact .inr (by omega)
  · exact .inl h
  · exact .inr (by omega)

variable [DecidableEq α]

instance decidableComplete (d : α) (m : Nat) (u : List α) : Decidable (Complete d m u) :=
  inferInstanceAs (Decidable (_ ∨ _))

theorem unit_append {d : α} {m : Nat} {s : List α} (h : Complete d m (unit d m s)) (t : List α) :
    unit d m (s ++ t) = unit d m s := by
  induction s generalizing m with
  | nil =>
    have hm : m = 0 := by simpa [Complete,eq_comm] using h
    simp [hm]
  | cons c s ih =>
    cases m with
    | zero => simp
    | succ m =>
      by_cases hc : c = d
      · simp [unit,hc]
      · have hs : Complete d m (unit d m s) := by simpa [Complete,unit,hc,Ne.symm hc] using h
        simp [unit,hc,ih hs]

theorem unit_short {d : α} {m : Nat} {s : List α} (h : ¬ Complete d m (unit d m s)) :
    unit d m s = s ∧ d ∉ s ∧ s.length < m := by
  induction s generalizing m with
  | nil =>
    have hm : m ≠ 0 := by simpa [Complete,eq_comm] using h
    exact ⟨unit_nil d m,List.not_mem_nil,Nat.pos_of_ne_zero hm⟩
  | cons c s ih =>
    cases m with
    | zero => simp [Complete] at h
    | succ m =>
      by_cases hc : c = d
      · simp [Complete,unit,hc] at h
      · have hs : ¬ Complete d m (unit d m s) := by simpa [Complete,unit,hc,Ne.symm hc] using h
        obtain ⟨heq,hmem,hlen⟩ := ih hs
        refine ⟨by simp [unit,hc,heq],by simp [hmem,Ne.symm hc],?_⟩
        rw [List.length_cons]
        omega

theorem unit_begun {d : α} {m : Nat} {p : List α} (hp : d ∉ p) (hlen : p.length ≤ m) (s : List α) :
    unit d m (p ++ s) = p ++ unit d (m - p.length) s := by
  induction p generalizing m with
  | nil => rfl
  | cons c p ih =>
    obtain ⟨hc,hp⟩ : d ≠ c ∧ d ∉ p := by simpa using hp
    cases m with
    | zero => simp at hlen
    | succ m =>
      have hrest := ih hp (m := m) (by simpa using hlen)
      simp [unit,Ne.symm hc,hrest]

theorem rest_begun {d : α} {m : Nat} {p : List α} (hp : d ∉ p) (hlen : p.length ≤ m) (s : List α) :
    rest d m (p ++ s) = rest d (m - p.length) s := by
  rw [rest,rest,unit_begun hp hlen,List.length_append,List.drop_append,List.drop_eq_nil_of_le
    (Nat.le_add_right _ _)]
  simp

/-- One unit, from the buffer and then from as many segments as it takes. Returned are the
unit, the buffer and the segments that are left. -/
def gets (d : α) (m : Nat) (buf : List α) : List (List α) → List α × List α × List (List α)
  | [] => (unit d m buf,rest d m buf,[])
  | seg :: segs =>
    let u := unit d m buf
    if Complete d m u then (u,rest d m buf,seg :: segs)
    else
      let r := gets d (m - u.length) seg segs
      (u ++ r.1,r.2)

theorem gets_complete {d : α} {m : Nat} {buf : List α} (h : Complete d m (unit d m buf))
    (segs : List (List α)) : gets d m buf segs = (unit d m buf,rest d m buf,segs) := by
  cases segs with
  | nil => rfl
  | cons seg segs => simp only [gets,if_pos h]

theorem gets_short {d : α} {m : Nat} {buf : List α} (h : ¬ Complete d m (unit d m buf))
    (seg : List α) (segs : List (List α)) : gets d m buf (seg :: segs) =
      (buf ++ (gets d (m - buf.length) seg segs).1,(gets d (m - buf.length) seg segs).2) := by
  simp only [gets,if_neg h]
  rw [(unit_short h).1]

/-- However the sequence is cut into segments, the reader gives its first unit and keeps
the rest. -/
theorem gets_spec (d : α) (m : Nat) (buf : List α) (segs : List (List α)) :
    (gets d m buf segs).1 = unit d m (buf ++ segs.flatten) ∧
      (gets d m buf segs).2.1 ++ (gets d m buf segs).2.2.flatten =
        rest d m (buf ++ segs.flatten) := by
  induction segs generalizing m buf with
  | nil => simp [gets]
  | cons seg segs ih =>
    by_cases h : Complete d m (unit d m buf)
    · have hunit := unit_append h (seg :: segs).flatten
      have hle := (unit_initial d m buf).length_le
      rw [gets_complete h,hunit,rest,rest,hunit,List.drop_append_of_le_length hle]
      exact ⟨rfl,rfl⟩
    · obtain ⟨_,hmem,hlen⟩ := unit_short h
      obtain ⟨hunit,hrest⟩ := ih (m - buf.length) seg
      rw [gets_short h,List.flatten_cons,unit_begun hmem hlen.le,rest_begun hmem hlen.le]
      exact ⟨congrArg (buf ++ ·) hunit,hrest⟩

theorem gets_zero (d : α) (buf : List α) (segs : List (List α)) :
    gets d 0 buf segs = ([],buf,segs) := by
  rw [gets_complete (.inr (by simp))]
  simp [rest]

theorem gets_cons (d : α) (m : Nat) (c : α) (buf : List α) (segs : List (List α)) :
    gets d (m+1) (c :: buf) segs = if c = d then ([c],buf,segs) else
      (c :: (gets d m buf segs).1,(gets d m buf segs).2) := by
  by_cases hc : c = d
  · have hunit : unit d (m+1) (c :: buf) = [c] := by simp [unit,hc]
    have hcomplete : Complete d (m+1) (unit d (m+1) (c :: buf)) := .inl (by rw [hunit,hc]; simp)
    rw [if_pos hc,gets_complete hcomplete,rest,hunit]
    rfl
  · have hunit : unit d (m+1) (c :: buf) = c :: unit d m buf := by simp [unit,hc]
    have hiff : Complete d (m+1) (c :: unit d m buf) ↔ Complete d m (unit d m buf) := by
      simp [Complete,Ne.symm hc]
    rw [if_neg hc]
    cases segs with
    | nil => simp [gets,hunit,rest]
    | cons seg segs =>
      by_cases h : Complete d m (unit d m buf)
      · rw [gets_complete h,gets_complete (hunit ▸ hiff.mpr h),rest,hunit]
        rfl
      · rw [gets_short h,gets_short (fun hbad => h (hiff.mp (hunit ▸ hbad))),List.length_cons,
          Nat.add_sub_add_right]
        rfl

theorem gets_refill (d : α) (m : Nat) (seg : List α) (segs : List (List α)) :
    gets d (m+1) [] (seg :: segs) = gets d (m+1) seg segs := by
  rw [gets_short (by simp [Complete])]
  rfl

/-- What has been read of a unit that is not complete yet. -/
def unfinished (d : α) (m : Nat) (s : List α) : List α :=
  if 0 < m ∧ Complete d m (unit d m s) then unfinished d m (rest d m s) else s
termination_by s.length
decreasing_by
  rename_i h
  refine length_rest_lt h.1 ?_
  rintro rfl
  rcases h.2 with hd | hlen
  · simp at hd
  · rw [unit_nil,List.length_nil] at hlen
    omega

theorem unfinished_complete {d : α} {m : Nat} (hm : 0 < m) {s : List α}
    (h : Complete d m (unit d m s)) : unfinished d m s = unfinished d m (rest d m s) := by
  rw [unfinished,if_pos ⟨hm,h⟩]

theorem unfinished_short {d : α} {m : Nat} {s : List α} (h : ¬ Complete d m (unit d m s)) :
    unfinished d m s = s := by
  rw [unfinished,if_neg fun hbad => h hbad.2]

/-- Each segment, behind the unit that it completes, brings no other delimiter. `p` is what
came before of that unit. -/
def Paced (d : α) (m : Nat) : List α → List (List α) → Prop
  | _, [] => True
  | p, seg :: segs => d ∉ rest d m (p ++ seg) ∧ Paced d m (unfinished d m (p ++ seg)) segs

/-- Between two units: no delimiter waits in the buffer, now or later. -/
def Settled (d : α) (m : Nat) (buf : List α) (segs : List (List α)) : Prop :=
  d ∉ buf ∧ Paced d m (unfinished d m buf) segs

theorem settled_begun {d : α} {m : Nat} (hm : 0 < m) {p : List α} (hp : d ∉ p)
    (hlen : p.length < m) (buf : List α) (segs : List (List α)) :
    d ∉ rest d m (p ++ buf) ∧ Paced d m (unfinished d m (p ++ buf)) segs ↔
      Settled d m (gets d (m - p.length) buf segs).2.1 (gets d (m - p.length) buf segs).2.2 := by
  induction segs generalizing p buf with
  | nil =>
    simp only [gets,Settled,Paced,and_true,rest_begun hp hlen.le]
  | cons seg segs ih =>
    have hiff := complete_begun (u := unit d (m - p.length) buf) hp hlen.le
    rw [← unit_begun hp hlen.le] at hiff
    by_cases h : Complete d (m - p.length) (unit d (m - p.length) buf)
    · rw [gets_complete h,unfinished_complete hm (hiff.mpr h),rest_begun hp hlen.le]
      rfl
    · have hshort := fun hbad => h (hiff.mp hbad)
      obtain ⟨hunit,hmem,hless⟩ := unit_short hshort
      have hnone : rest d m (p ++ buf) = [] := by rw [rest,hunit,List.drop_length]
      have hnext := ih hmem hless seg
      rw [List.length_append,Nat.sub_add_eq] at hnext
      rw [gets_short h,unfinished_short hshort,hnone]
      simpa only [Paced,List.not_mem_nil,not_false_eq_true,true_and] using hnext

/-- One call: where no delimiter is in the buffer, whether the reader settles does not change. -/
theorem settled_gets {d : α} {m : Nat} (hm : 0 < m) {buf : List α} (hbuf : d ∉ buf)
    (segs : List (List α)) :
    Settled d m buf segs ↔ Settled d m (gets d m buf segs).2.1 (gets d m buf segs).2.2 := by
  have hrest : d ∉ rest d m buf := fun h => hbuf (List.mem_of_mem_drop h)
  have h := settled_begun hm (List.not_mem_nil (a := d)) hm buf segs
  rw [List.nil_append,List.length_nil,Nat.sub_zero] at h
  rw [← h]
  simp [Settled,hbuf,hrest]

theorem unfinished_final (d : α) (m : Nat) (s : List α) : unfinished d m s <:+ s := by
  induction s using unfinished.induct d m with
  | case1 s h ih =>
    rw [unfinished_complete h.1 h.2]
    exact ih.trans (List.drop_suffix _ s)
  | case2 s h =>
    rw [unfinished,if_neg h]

theorem paced_of_notMem {d : α} {m : Nat} {p : List α} {segs : List (List α)} (hp : d ∉ p)
    (hsegs : d ∉ segs.flatten) : Paced d m p segs := by
  induction segs generalizing p with
  | nil => trivial
  | cons seg segs ih =>
    obtain ⟨hseg,hsegs⟩ : d ∉ seg ∧ d ∉ segs.flatten := by simpa using hsegs
    have hmem : d ∉ p ++ seg := by simp [hp,hseg]
    refine ⟨fun h => hmem (List.mem_of_mem_drop h),ih (fun h => hmem ?_) hsegs⟩
    exact (unfinished_final d m (p ++ seg)).subset h

/-- A reader that does not settle goes on with a unit, and has less before it then. -/
theorem gets_unsettled {d : α} {m : Nat} (hm : 0 < m) {buf : List α} {segs : List (List α)}
    (hbuf : d ∉ buf) (h : ¬ Settled d m buf segs) :
    let g := gets d m buf segs
    g.1 ≠ [] ∧ ¬ Settled d m g.2.1 g.2.2 ∧
      (g.2.1 ++ g.2.2.flatten).length < (buf ++ segs.flatten).length := by
  have hsome : buf ++ segs.flatten ≠ [] := by
    intro hnil
    obtain ⟨hb,hsegs⟩ := List.append_eq_nil_iff.mp hnil
    have hpaced : Paced d m (unfinished d m buf) segs := by
      refine paced_of_notMem (fun hmem => hbuf ?_) (by simp [hsegs])
      exact (unfinished_final d m buf).subset hmem
    exact h ⟨hbuf,hpaced⟩
  obtain ⟨hunit,hrest⟩ := gets_spec d m buf segs
  refine ⟨?_,fun hset => h ((settled_gets hm hbuf segs).mpr hset),?_⟩
  · rw [hunit]
    exact List.length_pos_iff.mp (unit_pos hm hsome)
  · rw [hrest]
    exact length_rest_lt hm hsome

end Units
