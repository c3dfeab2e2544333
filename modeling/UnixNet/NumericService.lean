import UnixNet.Numerals
import UnixNet.ServiceExpansion
set_option autoImplicit false

/-! `ga_serv` on a service string that starts with a digit. -/

namespace UnixNet.Gai

/-- The whole string is the number of a port. -/
def PortNumber (serv : List Byte) (port : Nat) : Prop :=
  (∀ c ∈ serv, isdigit c = true) ∧ decimal serv = port ∧ port ≤ 65535

/-- The socket types of the calls of `ga_port`. -/
def socktypes (hintsp : Hints) : List Int :=
  if hintsp.ai_socktype ≠ 0 then [hintsp.ai_socktype] else [SOCK_STREAM,SOCK_DGRAM]

/-- An entry that `ga_port` does not pass over. -/
def Matches (socktype : Int) (s : Nat × Entry) : Prop :=
  s.1 &&& AI_CLONE ≠ 0 ∨ s.2.ai_socktype = socktype

/-- What `ga_serv` makes of the entries: a port for all that match, or an error and no new port. -/
structure Numeric (hintsp : Hints) (serv : List Byte) (before after : List (Nat × Entry))
    (error : Option Eai) : Prop where
  stored : ∀ port, PortNumber serv port → ∀ s ∈ after, s ∈ before ∨
    ∀ sa, s.2.ai_addr = some sa → sa.port = port
  all : ∀ port, PortNumber serv port → ∀ socktype ∈ socktypes hintsp, ∀ s ∈ before,
    Matches socktype s → ∃ flags, (flags,s.2.serve port socktype) ∈ after
  refused : (∀ port, ¬ PortNumber serv port) → error ≠ none ∧
    ∀ s ∈ after, ∃ s' ∈ before, s.2.ai_addr = s'.2.ai_addr

section
variable {port socktype : Int} {socktypes' : List Int} {s : Nat × Entry} {ss : List (Nat × Entry)}

theorem portSlot_stays (hset : s.2.ai_socktype ≠ 0) (hne : s.2.ai_socktype ≠ socktype) :
    s ∈ portSlot port socktype s := by
  unfold portSlot
  rw [if_pos hset,if_pos hne]
  split
  · exact List.mem_cons_self
  · exact List.mem_cons_self

variable (port) in
theorem portSlot_served (h : Matches socktype s) :
    ∃ flags, (flags,s.2.serve port socktype) ∈ portSlot port socktype s := by
  unfold portSlot
  split
  · split
    · exact ⟨0,List.mem_cons_of_mem _ List.mem_cons_self⟩
    · exact ⟨s.1,List.mem_cons_self⟩
  · rename_i hclone
    rw [if_neg (not_not.mpr (h.resolve_left hclone))]
    exact ⟨s.1,List.mem_cons_self⟩

variable (port) in
/-- A turn for another type leaves an entry that still matches. -/
theorem portSlot_waits {socktype' : Int} (h : Matches socktype' s) (hne : socktype' ≠ socktype) :
    ∃ t ∈ portSlot port socktype s, Matches socktype' t ∧
      t.2.serve port socktype' = s.2.serve port socktype' := by
  unfold portSlot
  split
  · rename_i hclone
    split
    · exact ⟨s,List.mem_cons_self,h,rfl⟩
    · exact ⟨_,List.mem_cons_self,.inl hclone,serve_serve _ _ _ _ _⟩
  · rename_i hclone
    have htype := h.resolve_left hclone
    rw [if_pos (htype ▸ hne)]
    exact ⟨s,List.mem_cons_self,h,rfl⟩

theorem portSlot_ports {t : Nat × Entry} (h : t ∈ portSlot port socktype s) :
    t = s ∨ Matches socktype s ∧ t.2 = s.2.serve port socktype := by
  unfold portSlot at h
  split at h
  · rename_i hclone
    split at h
    · rcases List.mem_cons.mp h with rfl | h
      · exact .inl rfl
      · rw [List.mem_singleton.mp h]
        exact .inr ⟨.inl hclone,rfl⟩
    · rw [List.mem_singleton.mp h]
      exact .inr ⟨.inl hclone,rfl⟩
  · split at h
    · exact .inl (List.mem_singleton.mp h)
    · rename_i htype
      rw [List.mem_singleton.mp h]
      exact .inr ⟨.inr (not_not.mp htype),rfl⟩

/-! ## All calls with one port -/

theorem passes_stays (ts : List Int) (hset : s.2.ai_socktype ≠ 0) (hne : s.2.ai_socktype ∉ ts)
    (h : s ∈ ss) : s ∈ (passes (ts.map fun t => (port,t)) ss).2 := by
  induction ts generalizing ss with
  | nil => exact h
  | cons t ts ih =>
    obtain ⟨ht,hts⟩ := not_or.mp (mt List.mem_cons.mpr hne)
    exact ih hts (List.mem_flatMap.mpr ⟨s,h,portSlot_stays hset ht⟩)

variable (port) in
theorem passes_served {ts : List Int} (hnd : ts.Nodup) (h0 : 0 ∉ ts) (ht : socktype ∈ ts)
    (h : Matches socktype s) (hs : s ∈ ss) :
    ∃ flags, (flags,s.2.serve port socktype) ∈ (passes (ts.map fun t => (port,t)) ss).2 := by
  induction ts generalizing s ss with
  | nil => cases ht
  | cons t ts ih =>
    obtain ⟨hnotin,hnd⟩ := List.nodup_cons.mp hnd
    obtain ⟨hzero,h0⟩ := not_or.mp (mt List.mem_cons.mpr h0)
    by_cases hsame : socktype = t
    · subst hsame
      obtain ⟨flags,hserved⟩ := portSlot_served port h
      exact ⟨flags,passes_stays ts (Ne.symm hzero) hnotin (List.mem_flatMap.mpr ⟨s,hs,hserved⟩)⟩
    · obtain ⟨u,hu,hmatch,hserve⟩ := portSlot_waits port h hsame
      obtain ⟨flags,hserved⟩ := ih hnd h0 ((List.mem_cons.mp ht).resolve_left hsame) hmatch
        (List.mem_flatMap.mpr ⟨s,hs,hu⟩)
      rw [hserve] at hserved
      exact ⟨flags,hserved⟩

theorem passes_ports (ts : List Int) {t : Nat × Entry}
    (h : t ∈ (passes (ts.map fun t => (port,t)) ss).2) :
    t ∈ ss ∨ ∀ sa, t.2.ai_addr = some sa → sa.port = (port % 65536).toNat := by
  induction ts generalizing ss with
  | nil => exact .inl h
  | cons socktype ts ih =>
    obtain hmid | hport := ih h
    · obtain ⟨s,hs,hslot⟩ := List.mem_flatMap.mp hmid
      obtain rfl | ⟨_,hserve⟩ := portSlot_ports hslot
      · exact .inl hs
      · refine .inr fun sa hsa => ?_
        rw [hserve] at hsa
        obtain ⟨sa',_,rfl⟩ := Option.map_eq_some_iff.mp hsa
        rfl
    · exact .inr hport

theorem found_zero_iff : found socktype s = 0 ↔ ¬ Matches socktype s := by
  unfold found Matches
  split <;> simp_all

theorem pass_zero_iff : (pass port socktype ss).1 = 0 ↔ ∀ s ∈ ss, ¬ Matches socktype s := by
  rw [pass,List.sum_eq_zero_iff_forall_eq_nat]
  simp only [List.forall_mem_map,found_zero_iff]

theorem pass_same (h : ∀ s ∈ ss, ¬ Matches socktype s) : (pass port socktype ss).2 = ss := by
  have hone : ∀ s ∈ ss, portSlot port socktype s = [s] := by
    intro s hs
    obtain ⟨hclone,htype⟩ := not_or.mp (h s hs)
    rw [portSlot,if_neg hclone,if_pos htype]
  rw [pass,List.flatMap_congr hone,List.flatMap_singleton']

/-- Nothing is found exactly when nothing matches, and then nothing changes. -/
theorem passes_zero_iff (ts : List Int) :
    (passes (ts.map fun t => (port,t)) ss).1 = 0 ↔ ∀ t ∈ ts, ∀ s ∈ ss, ¬ Matches t s := by
  induction ts with
  | nil => simp [passes]
  | cons t ts ih =>
    have hadd : (passes ((t :: ts).map fun t => (port,t)) ss).1 = 0 ↔
        (pass port t ss).1 = 0 ∧
          (passes (ts.map fun t => (port,t)) (pass port t ss).2).1 = 0 := Nat.add_eq_zero_iff
    rw [hadd,pass_zero_iff,List.forall_mem_cons]
    refine and_congr_right fun hnone => ?_
    rw [pass_same hnone,ih]

theorem passes_same {ts : List Int} (h : ∀ t ∈ ts, ∀ s ∈ ss, ¬ Matches t s) :
    (passes (ts.map fun t => (port,t)) ss).2 = ss := by
  induction ts with
  | nil => rfl
  | cons t ts ih =>
    obtain ⟨ht,hts⟩ := List.forall_mem_cons.mp h
    show (passes (ts.map fun t => (port,t)) (pass port t ss).2).2 = ss
    rw [pass_same ht,ih hts]

end

/-! ## The number -/

theorem atoi_port {serv : List Byte} {port : Nat} (hdigit : isdigit (serv.headD 0) = true)
    (h : PortNumber serv port) : htons (atoi serv) = port := by
  obtain ⟨hall,hvalue,hsmall⟩ := h
  cases serv with
  | nil => exact absurd hdigit (by decide)
  | cons c cs =>
    obtain ⟨hspace,hminus,hplus⟩ := digit_not_sign (c := c) hdigit
    have htake : (c :: cs).takeWhile isdigit = c :: cs := List.takeWhile_eq_self_iff.mpr hall
    have hdrop : (c :: cs).dropWhile isspace = c :: cs := by
      rw [List.dropWhile_cons,hspace]
      rfl
    have hatol : atol (c :: cs) = saturate port := by
      rw [atol,hdrop]
      simp only [if_neg hminus,if_neg hplus,htake,hvalue]
    have hsaturate : saturate (port : Int) = port := by
      unfold saturate LONG_MIN LONG_MAX
      omega
    rw [htons,atoi,hatol,hsaturate,toInt,Int.bmod_eq_of_le (by omega) (by omega)]
    omega

theorem gaServPorts_numeric {getservbyname : List Byte → Proto → Option Int} (hintsp : Hints)
    {serv : List Byte} (hdigit : isdigit (serv.headD 0) = true) :
    gaServPorts getservbyname hintsp serv =
      (socktypes hintsp).map fun t => (htons (atoi serv),t) := by
  rw [gaServPorts,if_pos hdigit,socktypes]
  split <;> rfl

theorem socktypes_spec (hintsp : Hints) : (socktypes hintsp).Nodup ∧ 0 ∉ socktypes hintsp := by
  unfold socktypes
  split
  · rename_i h
    exact ⟨List.nodup_singleton _,by simpa using Ne.symm h⟩
  · decide

/-- The ports are as the string says when it is the number of a port, or when no entry is there to
take one. -/
theorem gaServ_numeric_iff (getservbyname : List Byte → Proto → Option Int) (hintsp : Hints)
    (serv : List Byte) (hdigit : isdigit (serv.headD 0) = true) (ais : List AddrInfo)
    (mem : Memory) (hheld : ∀ ai ∈ ais, Held mem ai) (hnd : (addrs ais).Nodup) :
    ∃ error ais' mem', gaServ getservbyname hintsp serv ais mem = some (error,ais',mem') ∧
      (error = some .EAI_MEMORY → ∃ i, mem.grant i = false) ∧
      (error ≠ some .EAI_MEMORY →
        (Numeric hintsp serv (ais.map (slot mem)) (ais'.map (slot mem')) error ↔
          (∃ port, PortNumber serv port) ∨
            ∀ socktype ∈ socktypes hintsp, ∀ ai ∈ ais, ¬ Matches socktype (slot mem ai))) := by
  obtain ⟨hunique,hzero⟩ := socktypes_spec hintsp
  obtain ⟨r,heq,hr⟩ := gaPorts_ported (gaServPorts getservbyname hintsp serv) hheld hnd
  rw [gaServPorts_numeric hintsp hdigit] at hr
  cases hr with
  | nomem hfail => exact ⟨_,_,_,gaServ_nomem heq,fun _ => hfail,fun h => absurd rfl h⟩
  | @done ais' mem' hgrow hheld' hslots =>
    obtain ⟨error,hserv,hok,hfound⟩ := gaServ_found heq
    refine ⟨error,ais',mem',hserv,fun h => absurd h hok,fun _ => ?_⟩
    have hnone : error ≠ none ↔
        ∀ t ∈ socktypes hintsp, ∀ ai ∈ ais, ¬ Matches t (slot mem ai) := by
      rw [ne_eq,hfound,not_not,passes_zero_iff]
      simp only [List.forall_mem_map]
    rw [hslots]
    constructor
    · intro h
      by_contra hbad
      obtain ⟨hinvalid,hmatch⟩ := not_or.mp hbad
      exact hmatch (hnone.mp (h.refused (not_exists.mp hinvalid)).1)
    · intro h
      refine ⟨fun port hport s hs => ?_,fun port hport t ht s hs hmatch => ?_,fun hinvalid => ?_⟩
      · refine (passes_ports _ hs).imp_right fun hstored sa hsa => ?_
        rw [hstored sa hsa,atoi_port hdigit hport]
        have hsmall := hport.2.2
        omega
      · have hserved := passes_served (htons (atoi serv)) hunique hzero ht hmatch hs
        rw [atoi_port hdigit hport] at hserved ⊢
        exact hserved
      · have hmatch := h.resolve_left (not_exists.mpr hinvalid)
        refine ⟨hnone.mpr hmatch,fun s hs => ⟨s,?_,rfl⟩⟩
        rwa [passes_same (by simpa only [List.forall_mem_map] using hmatch)] at hs

/-- A stream entry for 127.0.0.1. -/
def loopback : Search :=
  (gaAistructs ⟨0,SOCK_STREAM,0⟩ [(AF_INET,[127,0,0,1])] ⟨[],.empty fun _ => true,[]⟩).2

theorem loopback_held : (∀ ai ∈ loopback.aihead, Held loopback.mem ai) ∧
    (addrs loopback.aihead).Nodup := by
  have hstart : Built (.empty fun _ => true) [] ⟨[],.empty fun _ => true,[]⟩ :=
    ⟨.refl (by simp) (by simp),by simp,rfl⟩
  have hlist : gaAistructs ⟨0,SOCK_STREAM,0⟩ [(AF_INET,[127,0,0,1])]
      ⟨[],.empty fun _ => true,[]⟩ = (none,loopback) := Prod.ext (by decide) rfl
  have hbuilt := gaAistructs_built hstart (by simp) hlist
  exact ⟨hbuilt.held,hbuilt.grown.nodup⟩

/-- "80". -/
theorem gaServ_numeric_iff_80 :
    ∃ error ais' mem', gaServ (fun _ _ => none) ⟨0,SOCK_STREAM,0⟩ [56,48] loopback.aihead
        loopback.mem = some (error,ais',mem') ∧
      (error = some .EAI_MEMORY → ∃ i, loopback.mem.grant i = false) ∧
      (error ≠ some .EAI_MEMORY →
        (Numeric ⟨0,SOCK_STREAM,0⟩ [56,48] (loopback.aihead.map (slot loopback.mem))
            (ais'.map (slot mem')) error ↔
          (∃ port, PortNumber [56,48] port) ∨ ∀ socktype ∈ socktypes ⟨0,SOCK_STREAM,0⟩,
            ∀ ai ∈ loopback.aihead, ¬ Matches socktype (slot loopback.mem ai))) :=
  gaServ_numeric_iff (fun _ _ => none) ⟨0,SOCK_STREAM,0⟩ [56,48] (by decide) loopback.aihead
    loopback.mem loopback_held.1 loopback_held.2

/-- "80abc" and "65616" give the port 80. -/
theorem gaServ_accepts :
    (∀ serv ∈ [[56,48,97,98,99],[54,53,54,49,54]],
      (gaServ (fun _ _ => none) ⟨0,SOCK_STREAM,0⟩ serv loopback.aihead loopback.mem).map
        (fun r => (r.1,r.2.1.map fun ai => (sockaddr r.2.2 ai.ai_addr).map SockAddr.port)) =
          some (none,[some 80])) ∧
    ¬ ∀ (getservbyname : List Byte → Proto → Option Int) (hintsp : Hints) (serv : List Byte)
      (ais : List AddrInfo) (mem : Memory), isdigit (serv.headD 0) = true →
      (∀ ai ∈ ais, Held mem ai) → (addrs ais).Nodup → ∀ error ais' mem',
      gaServ getservbyname hintsp serv ais mem = some (error,ais',mem') →
      error ≠ some .EAI_MEMORY →
      Numeric hintsp serv (ais.map (slot mem)) (ais'.map (slot mem')) error := by
  have hruns : ∀ serv ∈ [[56,48,97,98,99],[54,53,54,49,54]],
      (gaServ (fun _ _ => none) ⟨0,SOCK_STREAM,0⟩ serv loopback.aihead loopback.mem).map
        (fun r => (r.1,r.2.1.map fun ai => (sockaddr r.2.2 ai.ai_addr).map SockAddr.port)) =
          some (none,[some 80]) := by decide
  refine ⟨hruns,fun h => ?_⟩
  obtain ⟨⟨error,ais',mem'⟩,hrun,hresult⟩ := Option.map_eq_some_iff.mp
    (hruns [56,48,97,98,99] List.mem_cons_self)
  obtain rfl : error = none := congrArg Prod.fst hresult
  have hnumeric := h _ _ _ _ _ (by decide) loopback_held.1 loopback_held.2 _ _ _ hrun (by simp)
  refine (hnumeric.refused fun port hport => ?_).1 rfl
  exact absurd (hport.1 97 (by decide)) (by decide)

end UnixNet.Gai
