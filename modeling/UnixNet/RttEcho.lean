import UnixNet.LineClient
import UnixNet.RttClient
set_option autoImplicit false

/-! rtt: `dg_cli`, which sends its lines with `Dg_send_recv` to `dg_echo` and prints the answers. -/

namespace UnixNet

/-- What `Fgets` can leave in `sendline`. -/
structure IsLine (line : List Byte) : Prop where
  nonempty : line ≠ []
  fits : line.length ≤ MAXLINE - 1
  noNul : 0 ∉ line

instance decidableIsLine (line : List Byte) : Decidable (IsLine line) :=
  decidable_of_iff (line ≠ [] ∧ line.length ≤ MAXLINE - 1 ∧ 0 ∉ line)
    ⟨fun h => ⟨h.1,h.2.1,h.2.2⟩,fun h => ⟨h.nonempty,h.fits,h.noNul⟩⟩

/-- `rtt` is all that `dg_send_recv` keeps and `output` each line with the text printed for it.
The program has quit once `exited`. -/
structure RttDgCli where
  rtt : RttClient
  output : List (List Byte × List Byte)
  exited : Bool
  deriving DecidableEq, Repr

namespace RttDgCli

/-- `recvline[n] = 0;` and `Fputs`, when `dg_send_recv` is about to return `n`. -/
def printed (s : RttDgCli) : List Byte :=
  match s.rtt.pc with
  | .got n _ => cString (s.rtt.inbuff.take (n - sizeofHdr) ++ [0])
  | _ => []

/-- The steps of `dg_send_recv`, called with a line and a `recvline` of `MAXLINE` bytes and one
more. -/
def step (s : RttDgCli) : RttAct → Option RttDgCli
  | .call line inbytes now =>
    if s.exited = false ∧ s.rtt.pc = .idle ∧ IsLine line ∧ inbytes = MAXLINE then
      some { s with rtt := s.rtt.call line inbytes now }
    else none
  | .stop now =>
    (s.rtt.step (.stop now)).map fun u =>
      { s with rtt := u, output := s.output ++ [(s.rtt.outbuff,s.printed)] }
  | .alarm => (s.rtt.step .alarm).map fun u => { s with rtt := u, exited := u.pc = .idle }
  | a => (s.rtt.step a).map fun u => { s with rtt := u }

end RttDgCli

def rttDgCli : Machine RttDgCli RttAct := ⟨⟨dgSendRecv.init,[],false⟩,RttDgCli.step⟩

/-- The payload bytes that `dg_echo` has room for behind the header. -/
def echoRoom : Nat := MAXLINE - sizeofHdr

theorem dgEcho_append (h : Hdr) (payload : List Byte) :
    dgEcho (h.bytes ++ payload) = h.bytes ++ payload.take echoRoom := by
  have hle : h.bytes.length ≤ MAXLINE := by
    rw [hdr_length]
    decide
  rw [dgEcho,List.take_append,List.take_of_length_le hle,hdr_length,echoRoom]

namespace RttDgCli
variable {s t : RttDgCli}

/-- A datagram of some call: its header and the line of the call. -/
structure Formed (s : RttDgCli) (c : Copy) : Prop where
  call : c.call ≤ s.rtt.calls
  bytes : ∃ ts, c.bytes = Hdr.bytes ⟨c.call % 2 ^ 32,ts⟩ ++ c.payload
  current : c.call = s.rtt.calls → c.payload = s.rtt.outbuff

theorem Formed.keep {c : Copy} (h : s.Formed c) (hcalls : t.rtt.calls = s.rtt.calls)
    (hline : t.rtt.outbuff = s.rtt.outbuff) : t.Formed c := by
  obtain ⟨hcall,hbytes,hcurrent⟩ := h
  refine ⟨hcalls ▸ hcall,hbytes,fun heq => ?_⟩
  rw [hcurrent (heq.trans hcalls),hline]

/-- What `inbuff` holds once an answer has been accepted. -/
def At (s : RttDgCli) : Prop :=
  match s.rtt.pc with
  | .got n _ => s.rtt.inbuff.take (n - sizeofHdr) = s.rtt.outbuff.take echoRoom
  | _ => True

structure Inv (s : RttDgCli) : Prop where
  formed : ∀ c ∈ s.rtt.sent, s.Formed c
  seq : s.rtt.sendhdr.seq = s.rtt.calls % 2 ^ 32
  noNul : 0 ∉ s.rtt.outbuff
  inbytes : s.rtt.pc ≠ .idle → s.rtt.inbytes = MAXLINE
  place : s.At
  output : ∀ line text, (line,text) ∈ s.output → text = line.take echoRoom

theorem init_inv : rttDgCli.init.Inv := ⟨nofun,rfl,nofun,fun h => absurd rfl h,trivial,nofun⟩

theorem call_inv {line : List Byte} {now : Timeval} (h : s.Inv) (hline : IsLine line) :
    Inv { s with rtt := s.rtt.call line MAXLINE now } := by
  refine ⟨fun c hc => ?_,?_,hline.noNul,fun _ => rfl,trivial,h.output⟩
  · obtain ⟨hcall,hbytes,_⟩ := h.formed c hc
    refine ⟨Nat.le_succ_of_le hcall,hbytes,fun heq => ?_⟩
    simp only [RttClient.call] at heq
    omega
  · simp only [RttClient.call,h.seq]
    omega

theorem send_inv {now : Timeval} (h : s.Inv) (hpc : s.rtt.pc = .send) :
    Inv { s with rtt := s.rtt.sendagain now } := by
  refine ⟨fun c hc => ?_,h.seq,h.noNul,fun _ => h.inbytes (by simp [hpc]),trivial,h.output⟩
  rcases List.mem_append.mp hc with hc | hc
  · exact (h.formed c hc).keep rfl rfl
  · rw [List.mem_singleton.mp hc]
    exact ⟨Nat.le_refl _,⟨_,by rw [← h.seq]⟩,fun _ => rfl⟩

/-- An answer is accepted for its sequence number, and then it is one to the line that waits. -/
theorem recv_inv {c : Copy} {copy : Nat} (h : s.Inv) (hpc : s.rtt.pc = .recv)
    (hc : c ∈ s.rtt.sent) (hage : s.rtt.calls - c.call ≤ 2 ^ 32 - 1) :
    Inv { s with rtt := s.rtt.recvmsg (dgEcho c.bytes) copy } := by
  obtain ⟨hcall,⟨ts,hbytes⟩,hcurrent⟩ := h.formed c hc
  have hroom : echoRoom ≤ MAXLINE := by decide
  rw [hbytes,dgEcho_append]
  unfold RttClient.recvmsg
  dsimp only
  split
  · refine ⟨fun d hd => (h.formed d hd).keep rfl rfl,h.seq,h.noNul,
      fun _ => h.inbytes (by simp [hpc]),?_,h.output⟩
    simp only [At,hpc]
  · rename_i htest
    have hseq := not_not.mp (not_or.mp htest).2
    have hhead : (Hdr.bytes ⟨c.call % 2 ^ 32,ts⟩ ++ c.payload.take echoRoom).take sizeofHdr =
        Hdr.bytes ⟨c.call % 2 ^ 32,ts⟩ := List.take_left' (hdr_length _)
    rw [hhead,parse_append,h.seq] at hseq
    have hnow : c.call = s.rtt.calls := by
      simp only at hseq
      omega
    have hmax : s.rtt.inbytes = MAXLINE := h.inbytes (by simp [hpc])
    have hanswer : (s.rtt.outbuff.take echoRoom).length ≤ MAXLINE :=
      (List.length_take_le _ _).trans hroom
    refine ⟨fun d hd => (h.formed d hd).keep rfl rfl,h.seq,h.noNul,fun _ => hmax,?_,h.output⟩
    simp only [At]
    rw [List.drop_left' (hdr_length _),hcurrent hnow,hmax,List.take_of_length_le hanswer,
      List.take_of_length_le]
    rw [List.length_append,hdr_length]
    omega

theorem timeout_inv (h : s.Inv) (hpc : s.rtt.pc ≠ .idle) :
    Inv { s with rtt := s.rtt.timeout, exited := s.rtt.timeout.pc = .idle } := by
  have hmax := h.inbytes hpc
  unfold RttClient.timeout
  dsimp only
  split
  · exact ⟨fun c hc => (h.formed c hc).keep rfl rfl,h.seq,h.noNul,fun _ => hmax,trivial,h.output⟩
  · exact ⟨fun c hc => (h.formed c hc).keep rfl rfl,h.seq,h.noNul,fun _ => hmax,trivial,h.output⟩

theorem printed_eq {n copy : Nat} (h : s.Inv) (hpc : s.rtt.pc = .got n copy) :
    s.printed = s.rtt.outbuff.take echoRoom := by
  have hplace := h.place
  simp only [At,hpc] at hplace
  simp only [printed,hpc,hplace]
  exact CString.text_append (fun hmem => h.noNul (List.mem_of_mem_take hmem)) []

theorem stop_inv {n copy : Nat} {now : Timeval} (h : s.Inv) (hpc : s.rtt.pc = .got n copy) :
    Inv { s with
      rtt := s.rtt.stop n copy now, output := s.output ++ [(s.rtt.outbuff,s.printed)] } := by
  refine ⟨fun c hc => (h.formed c hc).keep rfl rfl,h.seq,h.noNul,
    fun hidle => absurd rfl hidle,trivial,fun line text hmem => ?_⟩
  rcases List.mem_append.mp hmem with hmem | hmem
  · exact h.output line text hmem
  · cases List.mem_singleton.mp hmem
    exact printed_eq h hpc

theorem step_inv (s : RttDgCli) (a : RttAct) (t : RttDgCli) (h : s.Inv) (ht : s.step a = some t) :
    t.Inv := by
  cases a with
  | call line inbytes now =>
    obtain ⟨hguard,ht⟩ := Option.ite_none_right_eq_some.mp ht
    obtain ⟨_,_,hline,rfl⟩ := hguard
    cases ht
    exact call_inv h hline
  | send now =>
    obtain ⟨u,hu,rfl⟩ := Option.map_eq_some_iff.mp ht
    cases RttClient.step_moves hu with
    | send hpc => exact send_inv h hpc
  | recv copy =>
    obtain ⟨u,hu,rfl⟩ := Option.map_eq_some_iff.mp ht
    cases RttClient.step_moves hu with
    | recv hc hpc hage => exact recv_inv h hpc (List.mem_of_getElem? hc) hage
  | alarm =>
    obtain ⟨u,hu,rfl⟩ := Option.map_eq_some_iff.mp ht
    cases RttClient.step_moves hu with
    | alarm hpc => exact timeout_inv h (by rcases hpc with hpc | ⟨n,copy,hpc⟩ <;> simp [hpc])
  | stop now =>
    obtain ⟨u,hu,rfl⟩ := Option.map_eq_some_iff.mp ht
    cases RttClient.step_moves hu with
    | stop hpc => exact stop_inv h hpc

theorem reachable_inv (h : rttDgCli.Reachable s) : s.Inv := h.invariant init_inv step_inv

theorem recvmsg_got {r : RttClient} {hdr : Hdr} (hseq : hdr.seq % 2 ^ 32 = r.sendhdr.seq)
    (rest : List Byte) (copy : Nat) :
    ∃ n, (r.recvmsg (hdr.bytes ++ rest) copy).pc = .got n copy := by
  have hhead : (hdr.bytes ++ rest).take sizeofHdr = hdr.bytes := List.take_left' (hdr_length _)
  have htest : ¬ (min (hdr.bytes ++ rest).length (sizeofHdr + r.inbytes) < sizeofHdr ∨
      (Hdr.parse ((hdr.bytes ++ rest).take sizeofHdr ++
        r.recvhdr.drop (hdr.bytes ++ rest).length)).seq ≠ r.sendhdr.seq) := by
    rw [hhead,parse_append,List.length_append,hdr_length]
    rintro (hshort | hne)
    · omega
    · exact hne hseq
  unfold RttClient.recvmsg
  dsimp only
  rw [if_neg htest]
  exact ⟨_,rfl⟩

theorem answered {c : Copy} {copy : Nat} (h : s.Inv) (hpc : s.rtt.pc = .recv)
    (hc : s.rtt.sent[copy]? = some c) (hcall : c.call = s.rtt.calls) :
    ∃ t n, s.step (.recv copy) = some t ∧ t.Inv ∧ t.rtt.pc = .got n copy ∧
      t.rtt.outbuff = s.rtt.outbuff ∧ t.output = s.output := by
  have hmem := List.mem_of_getElem? hc
  have hage : s.rtt.calls - c.call ≤ 2 ^ 32 - 1 := by omega
  obtain ⟨ts,hbytes⟩ := (h.formed c hmem).bytes
  have hseq : (Hdr.mk (c.call % 2 ^ 32) ts).seq % 2 ^ 32 = s.rtt.sendhdr.seq := by
    rw [h.seq,hcall]
    exact Nat.mod_mod _ _
  obtain ⟨n,hgot⟩ := recvmsg_got hseq (c.payload.take echoRoom) copy
  rw [← dgEcho_append,← hbytes] at hgot
  have hout : (s.rtt.recvmsg (dgEcho c.bytes) copy).outbuff = s.rtt.outbuff := by
    simp only [RttClient.recvmsg]
    split <;> rfl
  refine ⟨{ s with rtt := s.rtt.recvmsg (dgEcho c.bytes) copy },n,?_,recv_inv h hpc hmem hage,hgot,
    hout,rfl⟩
  simp only [step,RttClient.step,hc]
  rw [if_pos ⟨hpc,hage⟩]
  rfl

theorem stopped {n copy : Nat} (h : s.Inv) (hpc : s.rtt.pc = .got n copy) (now : Timeval) :
    ∃ t, s.step (.stop now) = some t ∧
      t.output = s.output ++ [(s.rtt.outbuff,s.rtt.outbuff.take echoRoom)] := by
  let t : RttDgCli := { s with
    rtt := s.rtt.stop n copy now, output := s.output ++ [(s.rtt.outbuff,s.printed)] }
  refine ⟨t,?_,?_⟩
  · simp only [step,RttClient.step,hpc]
    rfl
  · change s.output ++ [(s.rtt.outbuff,s.printed)] = _
    rw [printed_eq h hpc]

/-- Over a network that delivers at once the call returns, and the line is printed as far as it
has come back. -/
theorem delivered {line : List Byte} (h : s.Inv) (hpc : s.rtt.pc = .idle) (hruns : s.exited = false)
    (hline : IsLine line) (now sent back : Timeval) :
    ∃ t, rttDgCli.run s [.call line MAXLINE now,.send sent,.recv s.rtt.sent.length,.stop back] =
        some t ∧ t.output = s.output ++ [(line,line.take echoRoom)] := by
  let u : RttDgCli := { s with rtt := s.rtt.call line MAXLINE now }
  let v : RttDgCli := { u with rtt := u.rtt.sendagain sent }
  have hcall : s.step (.call line MAXLINE now) = some u := if_pos ⟨hruns,hpc,hline,rfl⟩
  have hsend : u.step (.send sent) = some v := rfl
  have hu : u.Inv := call_inv h hline
  have hcopy : v.rtt.sent[s.rtt.sent.length]? = some ⟨u.rtt.calls,sent,line,_⟩ :=
    List.getElem?_concat_length
  obtain ⟨w,n,hrecv,hw,hgot,hline',hsame⟩ := answered (send_inv hu rfl) rfl hcopy rfl
  obtain ⟨t,hstop,hout⟩ := stopped hw hgot back
  refine ⟨t,?_,?_⟩
  · simp only [Machine.run,rttDgCli,hcall,hsend,Option.bind_some]
    rw [hrecv,Option.bind_some,hstop,Option.bind_some]
  · rw [hout,hline',hsame]
    rfl

end RttDgCli

/-- The text printed for a line is the line exactly if the server has room for it behind the
header, and a network that delivers makes the program print it. -/
theorem rttDgCli_echoes_iff (s : RttDgCli) (h : rttDgCli.Reachable s) :
    (∀ line text, (line,text) ∈ s.output → (text = line ↔ line.length ≤ MAXLINE - sizeofHdr)) ∧
    (s.rtt.pc = .idle → s.exited = false → ∀ line, IsLine line → ∀ now sent back,
      ∃ t, rttDgCli.run s [.call line MAXLINE now,.send sent,.recv s.rtt.sent.length,.stop back] =
        some t ∧ ∃ text, t.output = s.output ++ [(line,text)]) := by
  have hinv := RttDgCli.reachable_inv h
  refine ⟨fun line text hmem => ?_,fun hpc hruns line hline now sent back => ?_⟩
  · rw [hinv.output line text hmem]
    exact List.take_eq_self_iff line
  · obtain ⟨t,ht,hout⟩ := RttDgCli.delivered hinv hpc hruns hline now sent back
    exact ⟨t,ht,_,hout⟩

/-- One line has been echoed and the program can take the next. -/
theorem rttDgCli_echoes_hello :
    let acts := [.call [104,105,10] MAXLINE ⟨5,0⟩,.send ⟨5,1000⟩,.recv 0,.stop ⟨5,2000⟩]
    ∃ s, rttDgCli.run rttDgCli.init acts = some s ∧ s.output = [([104,105,10],[104,105,10])] ∧
      ∃ t, rttDgCli.run s
        [.call [7] MAXLINE ⟨6,0⟩,.send ⟨6,0⟩,.recv s.rtt.sent.length,.stop ⟨6,9⟩] = some t ∧
      ∃ text, t.output = s.output ++ [([7],text)] := by
  intro acts
  have hrun : (rttDgCli.run rttDgCli.init acts).map (fun s => (s.output,s.rtt.pc,s.exited)) =
      some ([([104,105,10],[104,105,10])],.idle,false) := by decide +kernel
  obtain ⟨s,hs,hstate⟩ := Option.map_eq_some_iff.mp hrun
  simp only [Prod.mk.injEq] at hstate
  obtain ⟨hout,hpc,hruns⟩ := hstate
  exact ⟨s,hs,hout,(rttDgCli_echoes_iff s ⟨acts,hs⟩).2 hpc hruns [7] (by decide) _ _ _⟩

theorem isLine_replicate {n : Nat} {b : Byte} (hpos : 0 < n) (hle : n ≤ MAXLINE - 1)
    (hb : b ≠ 0) : IsLine (List.replicate n b) := by
  refine ⟨?_,?_,fun hmem => hb (List.eq_of_mem_replicate hmem).symm⟩
  · rwa [← List.length_pos_iff_ne_nil,List.length_replicate]
  · rwa [List.length_replicate]

/-- A line of 4089 bytes comes back without its last byte. -/
theorem rttDgCli_cuts_line :
    ¬ ∀ s, rttDgCli.Reachable s → ∀ line text, (line,text) ∈ s.output → text = line := by
  intro h
  have hline : IsLine (List.replicate 4089 1) :=
    isLine_replicate (by decide) (by decide) (by decide)
  obtain ⟨t,ht,hout⟩ := RttDgCli.delivered RttDgCli.init_inv rfl rfl hline ⟨5,0⟩ ⟨5,1000⟩ ⟨5,2000⟩
  have hmem : (List.replicate 4089 1,(List.replicate 4089 1).take echoRoom) ∈ t.output := by
    rw [hout]
    exact List.mem_append_right _ (List.mem_singleton_self _)
  have hlength := congrArg List.length (h t ⟨_,ht⟩ _ _ hmem)
  rw [List.length_take,List.length_replicate] at hlength
  exact absurd hlength (by decide)

end UnixNet
