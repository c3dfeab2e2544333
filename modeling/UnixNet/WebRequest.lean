import UnixNet.FullTransfer
import UnixNet.Numerals
set_option autoImplicit false

/-! What `test_client` asks for, and what `web_child` makes of a request line. -/

namespace UnixNet
open Units
open LineReader (Transient readline_unit readline_pos)

/-- `l` is a line of the stream and `s` comes after it: it ends with a newline or the stream. -/
inductive NextLine : List Byte → List Byte → Prop where
  | ended {b s : List Byte} : newline ∉ b → NextLine (b ++ [newline]) s
  | last {b : List Byte} : newline ∉ b → b ≠ [] → NextLine b []

theorem NextLine.ne_nil {l s : List Byte} (h : NextLine l s) : l ≠ [] := by
  cases h with
  | ended _ => simp
  | last _ hne => exact hne

/-- `Readline` takes the line as far as it fits. -/
theorem NextLine.unit_eq {l s : List Byte} (h : NextLine l s) (m : Nat) :
    unit newline m (l ++ s) = l.take m ∧ rest newline m (l ++ s) = l.drop m ++ s := by
  have hunit : unit newline m (l ++ s) = l.take m := by
    cases h with
    | ended hb => simpa using unit_delimited hb m s
    | last hb _ => rw [List.append_nil,unit_of_notMem hb]
  refine ⟨hunit,?_⟩
  have hcat := unit_append_rest newline m (l ++ s)
  rw [hunit] at hcat
  refine List.append_cancel_left (hcat.trans ?_)
  rw [← List.append_assoc,List.take_append_drop]

/-- The bytes of `result` that a pass of `web_child` puts on the socket. -/
def WebPass.sent (result : Nat → Byte) (gs : List Grant) : WebPass → List Byte
  | .reply n => (writen ((List.range n).map result) gs).sent
  | _ => []

def InRange (v : Int) : Prop := 1 ≤ v ∧ v ≤ MAXN

instance decidableInRange (v : Int) : Decidable (InRange v) := inferInstanceAs (Decidable (_ ∧ _))

/-- The low 32 bits of a number that fits in a `long` are in the range. -/
def Wraps (v : Int) : Prop := LONG_MIN ≤ v ∧ v ≤ LONG_MAX ∧ InRange (v % 2^32)

instance decidableWraps (v : Int) : Decidable (Wraps v) :=
  inferInstanceAs (Decidable (_ ∧ _ ∧ _))

/-- The line is consumed and `v` bytes are written, or nothing is and the process quits. -/
def Answered (result : Nat → Byte) (gs : List Grant) (l s : List Byte) (r : ReadlineResult) :
    Prop :=
  if InRange (numeral l) then
    (∃ n, webChild r = .reply n) ∧ ((webChild r).sent result gs).length = numeral l ∧
      pending r.lb r.rest = s
  else (∃ n, webChild r = .quit n) ∧ (webChild r).sent result gs = []

theorem wraps_of_inRange {v : Int} (h : InRange v) : Wraps v := by
  unfold Wraps InRange LONG_MIN LONG_MAX MAXN at *
  omega

theorem wellFormed_iff (line : List Byte) : wellFormed line = true ↔ Wraps (numeral line) := by
  simp only [wellFormed,Bool.and_eq_true,decide_eq_true_eq,atol_eq,toInt,saturate,Wraps,InRange,
    LONG_MIN,LONG_MAX,MAXN,Int.bmod_def]
  generalize numeral line = v
  omega

theorem toInt_atol {line : List Byte} (h : InRange (numeral line)) :
    toInt (atol line) = numeral line := by
  rw [atol_eq]
  unfold toInt saturate InRange LONG_MIN LONG_MAX MAXN at *
  generalize numeral line = v at *
  rw [Int.bmod_def]
  omega

theorem webChild_line {r : ReadlineResult} (hret : 0 < r.ret) :
    webChild r = if wellFormed r.line then .reply (toInt (atol r.line)).toNat
      else .quit (toInt (atol r.line)) := by
  unfold webChild wellFormed
  rw [if_neg (by omega),if_neg (by omega)]
  simp only [Bool.and_eq_true,decide_eq_true_eq]
  split <;> split <;> first | rfl | omega

theorem sent_reply (result : Nat → Byte) {gs : List Grant} (hgs : ∀ g ∈ gs, g.Moves) {n : Nat}
    (hn : n ≤ MAXN) : (WebPass.reply n).sent result gs = (List.range n).map result := by
  refine (writen_moves ?_ hgs).2.1
  unfold MAXN at hn
  unfold SSIZE_MAX
  simp only [List.length_map,List.length_range]
  omega

theorem readline_line {lb : LineBuffer} {es : List Arrival} (hes : Transient es) {l s : List Byte}
    (hl : NextLine l s) (hp : pending lb es = l ++ s) :
    let r := readline MAXLINE lb es
    0 < r.ret ∧ r.line = l.take (MAXLINE - 1) ∧
      pending r.lb r.rest = l.drop (MAXLINE - 1) ++ s := by
  obtain ⟨_,hline,hrest,_⟩ := readline_unit MAXLINE lb hes
  obtain ⟨hunit,hleft⟩ := hl.unit_eq (MAXLINE - 1)
  have hne : pending lb es ≠ [] := by simp [hp,hl.ne_nil]
  rw [hp,hunit] at hline
  rw [hp,hleft] at hrest
  exact ⟨readline_pos (by decide) hes hne,hline,hrest⟩

theorem answered_iff (result : Nat → Byte) {gs : List Grant} (hgs : ∀ g ∈ gs, g.Moves)
    {lb : LineBuffer} {es : List Arrival} (hes : Transient es) {l s : List Byte}
    (hl : NextLine l s) (hp : pending lb es = l ++ s) :
    Answered result gs l s (readline MAXLINE lb es) ↔
      if InRange (numeral l) then l.length ≤ MAXLINE - 1
      else ¬ Wraps (numeral (l.take (MAXLINE - 1))) := by
  obtain ⟨hret,hline,hrest⟩ := readline_line hes hl hp
  have hpass := webChild_line hret
  have hwf := wellFormed_iff (l.take (MAXLINE - 1))
  rw [hline] at hpass
  unfold Answered
  split
  · rename_i hin
    rw [hrest]
    constructor
    · rintro ⟨_,_,hs⟩
      have hnil : l.drop (MAXLINE - 1) = [] := List.append_left_eq_self.mp hs
      exact List.drop_eq_nil_iff.mp hnil
    · intro hlen
      rw [List.take_of_length_le hlen] at hpass hwf
      rw [hwf.mpr (wraps_of_inRange hin),if_pos rfl,toInt_atol hin] at hpass
      have hle : (numeral l).toNat ≤ MAXN := by
        have hmax := hin.2
        omega
      rw [List.drop_eq_nil_of_le hlen,hpass,sent_reply result hgs hle]
      refine ⟨⟨_,rfl⟩,?_,rfl⟩
      have hmin := hin.1
      simp only [List.length_map,List.length_range]
      omega
  · rw [← hwf]
    constructor
    · rintro ⟨⟨n,hquit⟩,_⟩ hyes
      rw [hpass,if_pos hyes] at hquit
      cases hquit
    · intro hno
      rw [hpass,if_neg hno]
      exact ⟨⟨_,rfl⟩,rfl⟩

/-- How a turn of the loop in a child of `test_client` ends. -/
inductive ClientTurn where
  | closed : ClientTurn
  | errSys (text : String) : ClientTurn
  | errQuit (text : String) (n : Int) : ClientTurn
  deriving DecidableEq, Repr

/-- `snprintf(request, sizeof(request), "%d\n", nbytes);` -/
def request (nbytes : Int) : List Byte := snprintf MAXLINE (longText nbytes ++ [newline])

/-- From `Write` to `Close`; `wrote` is what `write` returned, and `es` is what comes back. -/
def testClient (nbytes : Nat) (wrote : Int) (es : List Arrival) : ClientTurn :=
  if wrote ≠ (request nbytes).length then .errSys "write error"
  else
    let n := (readn nbytes es).ret
    if n < 0 then .errSys "readn error"
    else if n ≠ nbytes then .errQuit "server returned %d bytes" n
    else .closed

theorem request_eq {nbytes : Nat} (h : nbytes ≤ MAXN) :
    request nbytes = longText nbytes ++ [newline] ∧
      (longText nbytes ++ [newline]).length ≤ MAXLINE - 1 := by
  have hsize : (nbytes : Int).natAbs < 10 ^ 5 := by
    unfold MAXN at h
    omega
  have hlen := longText_length (by decide) hsize
  have hfits : (longText nbytes ++ [newline]).length ≤ MAXLINE - 1 := by
    rw [List.length_append,List.length_singleton]
    unfold MAXLINE
    omega
  exact ⟨snprintf_eq (Nat.lt_of_le_of_lt hfits (by decide)),hfits⟩

theorem request_line {nbytes : Nat} (h : nbytes ≤ MAXN) (s : List Byte) :
    NextLine (request nbytes) s ∧ numeral (request nbytes) = nbytes ∧
      (request nbytes).length ≤ MAXLINE - 1 := by
  obtain ⟨heq,hlen⟩ := request_eq h
  have hend : ∀ c u, [newline] = c :: u → isdigit c = false := by
    intro c u hcu
    obtain ⟨rfl,_⟩ := List.cons.inj hcu
    decide
  rw [heq]
  exact ⟨.ended (longText_plain nbytes).1,numeral_of_integer (integer_longText nbytes hend),hlen⟩

/-- `web_child` answers a line as it should exactly when a number in the range stands in a line
that `Readline` takes as a whole, and another number is not taken for one in the range. What
`test_client` asks for comes back. -/
theorem webChild_answers_iff (result : Nat → Byte) (gs : List Grant) (hgs : ∀ g ∈ gs, g.Moves)
    (lb : LineBuffer) (es : List Arrival) (hes : Transient es) :
    let r := readline MAXLINE lb es
    (∀ l s, NextLine l s → pending lb es = l ++ s → (Answered result gs l s r ↔
      if InRange (numeral l) then l.length ≤ MAXLINE - 1
      else ¬ Wraps (numeral (l.take (MAXLINE - 1))))) ∧
    ∀ (nbytes : Nat) (s s' : List Byte) (es' : List Arrival), 1 ≤ nbytes → nbytes ≤ MAXN →
      pending lb es = request nbytes ++ s → Transient es' →
      stream es' = (webChild r).sent result gs ++ s' →
        (readn nbytes es').ret = nbytes ∧
          testClient nbytes (request nbytes).length es' = .closed := by
  refine ⟨fun l s hl hp => answered_iff result hgs hes hl hp,?_⟩
  intro nbytes s s' es' hmin hmax hp hes' hstream
  obtain ⟨hl,hnum,hlen⟩ := request_line hmax s
  have hin : InRange (numeral (request nbytes)) := by
    rw [hnum]
    unfold InRange
    omega
  have hans := (answered_iff result hgs hes hl hp).mpr (by rw [if_pos hin]; exact hlen)
  rw [Answered,if_pos hin,hnum] at hans
  have hret : (readn nbytes es').ret = nbytes := by
    have hsize : nbytes ≤ SSIZE_MAX := by
      unfold MAXN at hmax
      unfold SSIZE_MAX
      omega
    rw [(readn_spec hsize hes').1,hstream,List.length_append]
    omega
  refine ⟨hret,?_⟩
  simp only [testClient,hret]
  rw [if_neg (by simp),if_neg (by omega),if_neg (by simp)]

/-- The request for 5 bytes arrives in two pieces, and so does the answer. -/
theorem webChild_answers_five :
    webChild (readline MAXLINE .init [.data 53 [],.fail .eintr,.data 10 []]) = .reply 5 ∧
      testClient 5 (request 5).length [.data 0 [0,0],.data 0 [0]] = .closed := by
  have hreply : webChild (readline MAXLINE .init [.data 53 [],.fail .eintr,.data 10 []]) =
      .reply 5 := by decide +kernel
  have hrequest : pending .init [.data 53 [],.fail .eintr,.data 10 []] = request 5 ++ [] := by
    have hrange : 5 ≤ MAXN := by decide
    have hfive : request 5 = longText 5 ++ [newline] := (request_eq hrange).1
    have htext : longText 5 = [53] := by
      rw [longText,if_neg (by decide),decimalText]
      rfl
    rw [hfive,htext]
    rfl
  refine ⟨hreply,((webChild_answers_iff (fun _ => 0) [] (by simp) .init _ ?_).2 5 [] [] _
    (by decide) (by decide) hrequest ?_ ?_).2⟩
  · intro e he
    simpa using he
  · intro e he
    simp at he
  · rw [hreply]
    decide +kernel

/-- "4294967301\n" is answered with 5 bytes. -/
theorem webChild_misanswers : ¬ ∀ (result : Nat → Byte) (gs : List Grant) (lb : LineBuffer)
    (es : List Arrival) (l s : List Byte), (∀ g ∈ gs, g.Moves) → Transient es → NextLine l s →
      pending lb es = l ++ s → Answered result gs l s (readline MAXLINE lb es) := by
  intro h
  let digits : List Byte := [52,50,57,52,57,54,55,51,48,49]
  let es : List Arrival := [.data 52 [50,57,52,57,54,55,51,48,49,10]]
  have hans := h (fun _ => 0) [] .init es (digits ++ [newline]) [] (by simp)
    (fun e he => by simp [es] at he) (.ended (by decide)) rfl
  have hbig : ¬ InRange (numeral (digits ++ [newline])) := by decide +kernel
  have hreply : webChild (readline MAXLINE .init es) = .reply 5 := by decide +kernel
  rw [Answered,if_neg hbig,hreply] at hans
  obtain ⟨n,hn⟩ := hans.1
  cases hn

end UnixNet
