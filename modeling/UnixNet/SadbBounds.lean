import UnixNet.PfKey
set_option autoImplicit false

/-! Which PF_KEY messages `print_sadb_msg` prints without leaving them. -/

namespace UnixNet.PfKey
open Memory Records Sa

/-- The number in the `k` bytes from the `i`-th on. -/
def fieldAt (m : List Byte) (i k : Nat) : Nat := ByteOrder.value ((m.drop i).take k).reverse

/-- `print_sadb_msg` of a message comes to its end, with no read behind the message. -/
def PrintsWithin (msg : List Byte) : Prop :=
  ∃ fuel h s left, printSadbMsg fuel msg msg.length = some (.message h (.done s left))

/-- An address has what `sock_ntop` reads for its family. -/
def AddressReadable (sa : List Byte) : Prop :=
  2 ≤ sa.length ∧
    if fieldAt sa 1 1 = Sa.AF_INET then 8 ≤ sa.length
    else if fieldAt sa 1 1 = Sa.AF_INET6 then 24 ≤ sa.length
    else if fieldAt sa 1 1 = Sa.AF_UNIX then 0 ∈ sa.drop 2
    else if fieldAt sa 1 1 = Sa.AF_LINK then 6 ≤ sa.length ∧ (0 < fieldAt sa 5 1 → 0 ∈ sa.drop 8)
    else True

/-- What the printer of an extension takes from it, beyond its first 4 bytes. -/
def Readable (exttype len : Nat) (ext : List Byte) : Prop :=
  if exttype = SADB_EXT_SA then 16 ≤ ext.length
  else if SADB_EXT_LIFETIME_CURRENT ≤ exttype ∧ exttype ≤ SADB_EXT_LIFETIME_SOFT then
    32 ≤ ext.length
  else if SADB_EXT_ADDRESS_SRC ≤ exttype ∧ exttype ≤ SADB_EXT_ADDRESS_PROXY then
    AddressReadable (ext.drop 8)
  else if exttype = SADB_EXT_KEY_AUTH ∨ exttype = SADB_EXT_KEY_ENCRYPT then
    6 ≤ ext.length ∧ (fieldAt ext 4 2 + 7) / 8 ≤ ext.length - 8
  else if exttype = 14 ∨ exttype = 15 then len * 8 ≤ ext.length + 2 ∨ len ≤ 1
  else True

/-- Extensions one after the other, none of length 0, and only the last one may say that it is
longer than the bytes that are left. -/
inductive Framed : List Byte → Prop where
  | done : Framed []
  | ext {m : List Byte} (header : 4 ≤ m.length) (progress : fieldAt m 0 2 ≠ 0)
      (readable : Readable (fieldAt m 2 2) (fieldAt m 0 2) m)
      (rest : Framed (m.drop (fieldAt m 0 2 * 8))) : Framed m

section
variable {α : Type} {m : List Byte}

theorem loadBig_bind_eq (i k : Nat) (f : Nat → Option α) (a : α) :
    (loadBig m i k).bind f = some a ↔ i + k ≤ m.length ∧ f (fieldAt m i k) = some a := by
  rw [loadBig,load]
  split
  · rename_i h
    exact (and_iff_right h).symm
  · rename_i h
    simp [h]

theorem loadBig_bind (i k : Nat) (f : Nat → Option α) :
    (∃ a, (loadBig m i k).bind f = some a) ↔
      i + k ≤ m.length ∧ ∃ a, f (fieldAt m i k) = some a := by
  simp only [loadBig_bind_eq,exists_and_left]

theorem loadBig_fieldAt {i k : Nat} (h : i + k ≤ m.length) :
    loadBig m i k = some (fieldAt m i k) := by
  rw [loadBig,load,if_pos h]
  rfl

theorem load_bind (i k : Nat) (f : List Byte → Option α) :
    (∃ a, (load m i k).bind f = some a) ↔
      i + k ≤ m.length ∧ ∃ a, f ((m.drop i).take k) = some a := by
  rw [load]
  split
  · rename_i h
    exact (and_iff_right h).symm
  · rename_i h
    simp [h]

theorem stringAt_bind (i : Nat) (f : List Byte → Option α) :
    (∃ a, (stringAt m i).bind f = some a) ↔
      0 ∈ m.drop i ∧ ∃ a, f ((m.drop i).takeWhile fun c => c ≠ 0) = some a := by
  rw [stringAt]
  split
  · rename_i h
    exact (and_iff_right h).symm
  · rename_i h
    simp [h]

theorem bind_some_iff {β : Type} (x : Option α) (f : α → Option β) (hf : ∀ a, ∃ b, f a = some b) :
    (∃ b, x.bind f = some b) ↔ ∃ a, x = some a := by
  cases x with
  | none => simp
  | some a => simp [hf a]

theorem not_exists_none : ¬ ∃ a : α, none = some a := by simp

theorem saPrint_some_iff : (∃ p, saPrint m = some p) ↔ 16 ≤ m.length := by
  simp only [saPrint,Option.bind_eq_bind,Option.pure_def,loadBig_bind,Option.some.injEq,
    exists_eq',and_true]
  omega

theorem lifetimePrint_some_iff (exttype : Nat) :
    (∃ p, lifetimePrint exttype m = some p) ↔ 32 ≤ m.length := by
  simp only [lifetimePrint,Option.bind_eq_bind,Option.pure_def,loadBig_bind,Option.some.injEq,
    exists_eq',and_true]
  omega

theorem sockNtop_some_iff (salen : Nat) : (∃ text, sockNtop m salen = some text) ↔
    AddressReadable m := by
  simp only [sockNtop,Option.bind_eq_bind,Option.pure_def,loadBig_bind,AddressReadable]
  refine and_congr_right fun _ => ?_
  split
  · simp only [load_bind,loadBig_bind,Option.some.injEq,exists_eq',and_true]
    omega
  split
  · simp only [load_bind,loadBig_bind,Option.some.injEq,exists_eq',and_true]
    omega
  split
  · simp only [stringAt_bind,Option.some.injEq,exists_eq',and_true]
  split
  · simp only [loadBig_bind]
    refine and_congr_right fun hnlen => ?_
    by_cases hlt : 0 < fieldAt m 5 1
    · simp only [hlt,if_true,true_imp_iff,starString,stringAt_bind,Option.map_eq_bind,
        Option.bind_assoc,List.drop_zero,Function.comp_apply,Option.bind_some,loadBig_bind,
        Option.some.injEq,exists_eq',and_true]
      exact and_iff_left (by omega)
    · simp only [hlt,if_false,false_imp_iff,iff_true,loadBig_bind,Option.some.injEq,exists_eq',
        and_true]
      omega
  · simp

theorem keyDigits_some_iff (bits : Nat) :
    (∃ ds, keyDigits m bits = some ds) ↔ (bits + 7) / 8 ≤ m.length := by
  induction m, bits using keyDigits.induct with
  | case1 m => simp [keyDigits]
  | case2 bits =>
    simp only [keyDigits,List.length_nil]
    refine iff_of_false not_exists_none ?_
    omega
  | case3 c p bits ih =>
    rw [keyDigits]
    simp only [Option.map_eq_some_iff,List.length_cons]
    rw [exists_comm]
    simp only [exists_and_left,exists_eq',and_true,ih]
    omega

theorem supportedAlgs_some_iff (n : Nat) (m : List Byte) :
    (∃ algs, supportedAlgs n m = some algs) ↔ n * 8 ≤ m.length + 2 ∨ n = 0 := by
  induction n generalizing m with
  | zero => simp [supportedAlgs]
  | succ n ih =>
    simp only [supportedAlgs,Option.bind_eq_bind,Option.pure_def,loadBig_bind]
    rw [bind_some_iff _ _ fun algs => ⟨_,rfl⟩,ih,List.length_drop]
    omega

theorem addressPrint_some_iff (exttype len : Nat) :
    (∃ p, addressPrint exttype len m = some p) ↔ AddressReadable (m.drop 8) := by
  simp only [addressPrint,Option.bind_eq_bind,Option.pure_def]
  by_cases hsa : AddressReadable (m.drop 8)
  · obtain ⟨text,htext⟩ :=
      (sockNtop_some_iff (((len * 8 : Int) - 8) % 2^32).toNat).mpr hsa
    have hlen := hsa.1
    rw [List.length_drop] at hlen
    simp only [htext,Option.bind_some,loadBig_bind,Option.some.injEq,exists_eq',and_true,hsa,
      iff_true]
    omega
  · have hnone : sockNtop (m.drop 8) (((len * 8 : Int) - 8) % 2^32).toNat = none := by
      rw [Option.eq_none_iff_forall_ne_some]
      exact fun text htext => hsa ((sockNtop_some_iff _).mp ⟨text,htext⟩)
    rw [hnone,Option.bind_none]
    exact iff_of_false not_exists_none hsa

theorem keyPrint_some_iff (exttype : Nat) : (∃ p, keyPrint exttype m = some p) ↔
    6 ≤ m.length ∧ (fieldAt m 4 2 + 7) / 8 ≤ m.length - 8 := by
  simp only [keyPrint,Option.bind_eq_bind,Option.pure_def,loadBig_bind]
  rw [bind_some_iff _ _ fun ds => ⟨_,rfl⟩,keyDigits_some_iff,List.length_drop]

theorem supportedPrint_some_iff (exttype len : Nat) :
    (∃ p, supportedPrint exttype len m = some p) ↔ len * 8 ≤ m.length + 2 ∨ len ≤ 1 := by
  simp only [supportedPrint,Option.bind_eq_bind,Option.pure_def]
  rw [bind_some_iff _ _ fun algs => ⟨_,rfl⟩,supportedAlgs_some_iff,List.length_drop]
  omega

theorem printExt_some_iff (exttype len : Nat) :
    (∃ p, printExt exttype len m = some p) ↔ Readable exttype len m := by
  rw [printExt,Readable]
  split
  · exact saPrint_some_iff
  split
  · exact lifetimePrint_some_iff exttype
  split
  · exact addressPrint_some_iff exttype len
  split
  · exact keyPrint_some_iff exttype
  split
  · exact supportedPrint_some_iff exttype len
  · simp

/-- A turn of the loop, by what the extension has. -/
theorem extBody_ok_iff (s : Nat × List (Nat × Printed)) :
    (∃ r, extBody m s = .ok r) ↔
      4 ≤ m.length ∧ Readable (fieldAt m 2 2) (fieldAt m 0 2) m := by
  have hinside (x : Option ((Nat × List (Nat × Printed)) × Nat)) :
      (∃ r, inside x = .ok r) ↔ ∃ r, x = some r := by cases x <;> simp [inside]
  simp only [extBody,hinside,Option.bind_eq_bind,Option.pure_def,loadBig_bind]
  rw [bind_some_iff _ _ fun printed => ⟨_,rfl⟩,printExt_some_iff,← and_assoc]
  refine and_congr_left fun _ => ?_
  omega

theorem extBody_size {s s' : Nat × List (Nat × Printed)} {size : Nat}
    (h : extBody m s = .ok (s',size)) : size = fieldAt m 0 2 * 8 := by
  have hok := (extBody_ok_iff s).mp ⟨_,h⟩
  obtain ⟨printed,hprinted⟩ := (printExt_some_iff _ _).mpr hok.2
  have htype : loadBig m 2 2 = some (fieldAt m 2 2) := loadBig_fieldAt hok.1
  have hlen : loadBig m 0 2 = some (fieldAt m 0 2) := loadBig_fieldAt (by omega)
  simp only [extBody,inside,htype,hlen,hprinted,Option.bind_eq_bind,Option.bind_some,
    Option.pure_def,Except.ok.injEq,Prod.mk.injEq] at h
  exact h.2.symm

/-- The bytes that the loop counts are those that are left, or there are none. -/
def Counts (n : Int) (m : List Byte) : Prop := n = m.length ∨ n ≤ 0 ∧ m = []

theorem Counts.drop {n : Int} (h : Counts n m) (size : Nat) :
    Counts (n - size) (m.drop size) := by
  obtain rfl | ⟨hneg,rfl⟩ := h
  · by_cases hsize : size ≤ m.length
    · rw [Counts,List.length_drop]
      exact .inl (by omega)
    · exact .inr ⟨by omega,List.drop_eq_nil_of_le (by omega)⟩
  · exact .inr ⟨by omega,List.drop_nil⟩

theorem Counts.eq_nil {n : Int} (h : Counts n m) (hn : ¬ 0 < n) : m = [] := by
  obtain rfl | ⟨-,rfl⟩ := h
  · exact List.eq_nil_of_length_eq_zero (by omega)
  · rfl

/-- The loop comes to its end exactly when every extension that it reaches is readable. -/
theorem walk_done_iff (m : List Byte) {n : Int} (s : Nat × List (Nat × Printed))
    (hn : Counts n m) :
    (∃ fuel s' left, walk extBody fuel n m s = .done s' left) ↔ Framed m := by
  constructor
  · rintro ⟨fuel,s',left,h⟩
    induction fuel generalizing n m s with
    | zero =>
      rw [walk] at h
      split at h
      · cases h
      · rename_i hpos
        rw [hn.eq_nil hpos]
        exact .done
    | succ fuel ih =>
      rw [walk] at h
      split at h
      · cases hbody : extBody m s with
        | error e =>
          rw [hbody] at h
          cases h
        | ok r =>
          rw [hbody] at h
          have hok := (extBody_ok_iff s).mp ⟨r,hbody⟩
          have hrest : Framed (m.drop r.2) := ih _ r.1 (hn.drop r.2) h
          rw [extBody_size hbody] at hrest
          -- an extension of length 0 would be seen again, and the loop has come to its end
          by_cases hzero : fieldAt m 0 2 = 0
          · rwa [hzero,Nat.zero_mul,List.drop_zero] at hrest
          · exact .ext hok.1 hzero hok.2 hrest
      · rename_i hpos
        rw [hn.eq_nil hpos]
        exact .done
  · intro hframed
    induction hframed generalizing n s with
    | done =>
      have hpos : ¬ 0 < n := by
        obtain rfl | ⟨hneg,-⟩ := hn
        · exact Int.lt_irrefl 0
        · omega
      exact ⟨0,s,n,if_neg hpos⟩
    | @ext m header progress readable rest ih =>
      obtain ⟨r,hr⟩ := (extBody_ok_iff s).mpr ⟨header,readable⟩
      obtain ⟨fuel,s',left,hwalk⟩ := ih r.1 (hn.drop _)
      rw [← extBody_size hr] at hwalk
      by_cases hpos : 0 < n
      · refine ⟨fuel + 1,s',left,?_⟩
        rw [walk,if_pos hpos,hr]
        exact hwalk
      · exact ⟨0,s,n,if_neg hpos⟩

end

section
variable {msg : List Byte} {len : Nat}

/-- The tests of the header have been passed. -/
theorem printSadbMsg_some_iff (fuel : Nat) (r : Report) (hlen : loadBig msg 4 2 = some len)
    (hmsglen : msg.length = len * 8) (hversion : loadBig msg 0 1 = some PF_KEY_V2) :
    printSadbMsg fuel msg msg.length = some r ↔ 16 ≤ msg.length ∧
      .message ⟨fieldAt msg 1 1,fieldAt msg 2 1,fieldAt msg 3 1,fieldAt msg 8 4,fieldAt msg 12 4⟩
        (if (msg.length : Int) = 16 then .done (16,[]) 0
          else walk extBody fuel (msg.length - 16) (msg.drop 16) (16,[])) = r := by
  have hlenEq : ¬ (msg.length : Int) ≠ len * 8 := by omega
  have hversionEq : ¬ PF_KEY_V2 ≠ PF_KEY_V2 := not_not.mpr rfl
  simp only [printSadbMsg,hlen,hversion,Option.bind_eq_bind,Option.bind_some,Option.pure_def,
    if_neg hlenEq,if_neg hversionEq,loadBig_bind_eq,← and_assoc]
  refine and_congr (by omega) ?_
  split
  · exact Option.some_inj
  · exact Option.some_inj

end

/-- A message with an extension of length 0, and one with a key of 65535 bits. -/
def endless : List Byte := [2,10,0,0, 0,3,0,0, 0,0,0,0, 0,0,0,0, 0,0,0,0, 0,0,0,0]
def longKey : List Byte := [2,10,0,0, 0,3,0,0, 0,0,0,0, 0,0,0,0, 0,1,0,8, 255,255,0,0]

theorem walk_endless (fuel : Nat) (s : Nat × List (Nat × Printed)) :
    walk extBody fuel 8 [0,0,0,0, 0,0,0,0] s = .running := by
  induction fuel generalizing s with
  | zero => rfl
  | succ fuel ih => exact ih (s.1 + 0,s.2 ++ [(s.1,.named 0)])

end UnixNet.PfKey
