import UnixNet.Library.CyclicBuffer
import UnixNet.Library.Machine
set_option autoImplicit false

/-! `produce` and `consume` on the bounded buffer of example03, one thread for each. -/

namespace UnixNet

def BUFFSIZE : Nat := 10

/-- `wait` is in `pthread_cond_wait`, and `woken` where that call has been woken and has yet to
lock the mutex again. -/
inductive ProducerPc where
  | idle : ProducerPc
  | lock (val : Int) : ProducerPc
  | wait (val : Int) : ProducerPc
  | woken (val : Int) : ProducerPc
  deriving DecidableEq, Repr

inductive ConsumerPc where
  | idle : ConsumerPc
  | lock : ConsumerPc
  | wait : ConsumerPc
  | woken : ConsumerPc
  deriving DecidableEq, Repr

/-- The buffer and its two threads. `passed` are the values of the calls of `produce`, and
`returned` those that `consume` has returned. -/
structure BoundedBuffer where
  b_buf : Nat → Int
  b_nitems : Int
  b_nextget : Nat
  b_nextput : Nat
  producer : ProducerPc
  consumer : ConsumerPc
  passed : List Int
  returned : List Int

/-- A call starts; a thread goes through its locked section; a thread that waits is woken
without a signal. -/
inductive BufferAct where
  | callProduce (val : Int) : BufferAct
  | callConsume : BufferAct
  | produce : BufferAct
  | consume : BufferAct
  | spuriousProducer : BufferAct
  | spuriousConsumer : BufferAct
  deriving DecidableEq, Repr

/-- `pthread_cond_signal(&bptr->b_cond_consumer)`, on which only the consumer waits. -/
def ConsumerPc.signal : ConsumerPc → ConsumerPc
  | .wait => .woken
  | pc => pc

def ProducerPc.signal : ProducerPc → ProducerPc
  | .wait val => .woken val
  | pc => pc

namespace BoundedBuffer

/-- `produce` from where it holds the mutex to where it gives it up. -/
def produce (s : BoundedBuffer) (val : Int) : BoundedBuffer :=
  if s.b_nitems ≥ BUFFSIZE then { s with producer := .wait val }
  else
    { s with
      b_buf := Function.update s.b_buf s.b_nextput val
      b_nextput := CyclicBuffer.next BUFFSIZE s.b_nextput
      b_nitems := s.b_nitems + 1
      producer := .idle
      consumer := s.consumer.signal }

def consume (s : BoundedBuffer) : BoundedBuffer :=
  if s.b_nitems ≤ 0 then { s with consumer := .wait }
  else
    { s with
      b_nextget := CyclicBuffer.next BUFFSIZE s.b_nextget
      b_nitems := s.b_nitems - 1
      producer := s.producer.signal
      consumer := .idle
      returned := s.returned ++ [s.b_buf s.b_nextget] }

def step (s : BoundedBuffer) : BufferAct → Option BoundedBuffer
  | .callProduce val =>
    if s.producer = .idle then some { s with producer := .lock val, passed := s.passed ++ [val] }
    else none
  | .callConsume => if s.consumer = .idle then some { s with consumer := .lock } else none
  | .produce =>
    match s.producer with
    | .lock val | .woken val => some (s.produce val)
    | _ => none
  | .consume => if s.consumer = .lock ∨ s.consumer = .woken then some s.consume else none
  | .spuriousProducer =>
    match s.producer with
    | .wait val => some { s with producer := .woken val }
    | _ => none
  | .spuriousConsumer => if s.consumer = .wait then some { s with consumer := .woken } else none

end BoundedBuffer

/-- `buf_t` starts as zeros. -/
def boundedBuffer : Machine BoundedBuffer BufferAct :=
  ⟨⟨fun _ => 0,0,0,0,.idle,.idle,[],[]⟩,BoundedBuffer.step⟩

/-- The value that a call of `produce` has yet to store. -/
def ProducerPc.held : ProducerPc → List Int
  | .idle => []
  | .lock val | .wait val | .woken val => [val]

namespace BoundedBuffer

/-- The buffer holds `count` items. -/
structure Inv (s : BoundedBuffer) (count : Nat) : Prop where
  nitems : s.b_nitems = count
  room : count ≤ BUFFSIZE
  nextget : s.b_nextget < BUFFSIZE
  nextput : s.b_nextput = (s.b_nextget + count) % BUFFSIZE
  fifo : s.returned ++ CyclicBuffer.slice s.b_buf BUFFSIZE s.b_nextget count ++ s.producer.held =
    s.passed
  full : ∀ val, s.producer = .wait val → count = BUFFSIZE
  empty : s.consumer = .wait → count = 0

variable {s t : BoundedBuffer} {count : Nat}

theorem init_inv : Inv boundedBuffer.init 0 :=
  ⟨rfl,Nat.zero_le _,Nat.zero_lt_succ _,rfl,rfl,by simp [boundedBuffer],by simp [boundedBuffer]⟩

theorem ConsumerPc.signal_ne (pc : ConsumerPc) : pc.signal ≠ .wait := by
  cases pc <;> simp [ConsumerPc.signal]

theorem ProducerPc.signal_ne (pc : ProducerPc) (val : Int) : pc.signal ≠ .wait val := by
  cases pc <;> simp [ProducerPc.signal]

theorem ProducerPc.signal_held (pc : ProducerPc) : pc.signal.held = pc.held := by
  cases pc <;> rfl

theorem produce_inv {val : Int} (h : Inv s count) (hheld : s.producer.held = [val]) :
    ∃ count', Inv (s.produce val) count' := by
  have hcount := h.nitems
  unfold produce
  split
  · have hfull : count = BUFFSIZE := by
      have := h.room
      omega
    have hfifo := h.fifo
    rw [hheld] at hfifo
    exact ⟨count,h.nitems,h.room,h.nextget,h.nextput,hfifo,fun _ _ => hfull,h.empty⟩
  · have hput : s.b_nextput < BUFFSIZE := h.nextput ▸ Nat.mod_lt _ (by decide)
    refine ⟨count + 1,?_,by omega,h.nextget,?_,?_,by simp,?_⟩
    · simp only
      omega
    · rw [CyclicBuffer.next_eq hput,h.nextput,Nat.mod_add_mod]
      rfl
    · simp only [h.nextput,← h.fifo]
      rw [CyclicBuffer.slice_put (by omega),hheld]
      simp [ProducerPc.held]
    · exact fun hw => absurd hw (ConsumerPc.signal_ne s.consumer)

theorem consume_inv (h : Inv s count) : ∃ count', Inv s.consume count' := by
  have hcount := h.nitems
  unfold consume
  split
  · have hempty : count = 0 := by omega
    exact ⟨count,h.nitems,h.room,h.nextget,h.nextput,h.fifo,h.full,fun _ => hempty⟩
  · obtain ⟨n,rfl⟩ := Nat.exists_eq_add_one.mpr (show 0 < count by omega)
    have hroom := h.room
    have hnext := CyclicBuffer.next_eq h.nextget
    refine ⟨n,?_,by omega,CyclicBuffer.next_lt (by decide) _,?_,?_,?_,by simp⟩
    · simp only
      omega
    · rw [hnext,Nat.mod_add_mod,h.nextput]
      congr 1
      omega
    · simp only [ProducerPc.signal_held,← h.fifo,hnext,CyclicBuffer.slice_mod]
      rw [CyclicBuffer.slice_take,Nat.mod_eq_of_lt h.nextget]
      simp
    · exact fun val hw => absurd hw (ProducerPc.signal_ne s.producer val)

theorem step_inv {a : BufferAct} (h : Inv s count) (ht : s.step a = some t) :
    ∃ count', Inv t count' := by
  cases a with
  | callProduce val =>
    obtain ⟨hidle,ht⟩ := Option.ite_none_right_eq_some.mp ht
    cases ht
    have hfifo := h.fifo
    rw [hidle] at hfifo
    refine ⟨count,h.nitems,h.room,h.nextget,h.nextput,?_,by simp,h.empty⟩
    rw [← hfifo]
    simp [ProducerPc.held]
  | callConsume =>
    obtain ⟨-,ht⟩ := Option.ite_none_right_eq_some.mp ht
    cases ht
    exact ⟨count,h.nitems,h.room,h.nextget,h.nextput,h.fifo,h.full,by simp⟩
  | produce =>
    simp only [step] at ht
    split at ht
    · rename_i val hpc
      cases ht
      exact produce_inv h (by rw [hpc]; rfl)
    · rename_i val hpc
      cases ht
      exact produce_inv h (by rw [hpc]; rfl)
    · cases ht
  | consume =>
    obtain ⟨-,ht⟩ := Option.ite_none_right_eq_some.mp ht
    cases ht
    exact consume_inv h
  | spuriousProducer =>
    simp only [step] at ht
    split at ht
    · rename_i val hpc
      cases ht
      have hfifo := h.fifo
      rw [hpc] at hfifo
      exact ⟨count,h.nitems,h.room,h.nextget,h.nextput,hfifo,by simp,h.empty⟩
    · cases ht
  | spuriousConsumer =>
    obtain ⟨-,ht⟩ := Option.ite_none_right_eq_some.mp ht
    cases ht
    exact ⟨count,h.nitems,h.room,h.nextget,h.nextput,h.fifo,h.full,by simp⟩

theorem reachable_inv (h : boundedBuffer.Reachable s) : ∃ count, Inv s count :=
  h.invariant (I := fun s => ∃ count, Inv s count) ⟨0,init_inv⟩
    fun _ _ _ ⟨_,hs⟩ ht => step_inv hs ht

structure Sound (s : BoundedBuffer) : Prop where
  nitems : 0 ≤ s.b_nitems ∧ s.b_nitems ≤ BUFFSIZE
  nextput : (s.b_nextput : Int) = (s.b_nextget + s.b_nitems) % BUFFSIZE
  inside : s.b_nextget < BUFFSIZE ∧ s.b_nextput < BUFFSIZE
  order : s.returned <+: s.passed
  /-- The values that are not returned yet are in the buffer or with the producer. -/
  kept : (s.passed.length : Int) = s.returned.length + s.b_nitems + s.producer.held.length
  awake : ¬ ((∃ val, s.producer = .wait val) ∧ s.consumer = .wait)

end BoundedBuffer

theorem boundedBuffer_sound (s : BoundedBuffer) (h : boundedBuffer.Reachable s) : s.Sound := by
  obtain ⟨count,hinv⟩ := BoundedBuffer.reachable_inv h
  have hnitems := hinv.nitems
  have hroom := hinv.room
  refine ⟨by omega,?_,⟨hinv.nextget,hinv.nextput ▸ Nat.mod_lt _ (by decide)⟩,
    ⟨_,(List.append_assoc _ _ _).symm.trans hinv.fifo⟩,?_,?_⟩
  · rw [hinv.nextput,hnitems]
    simp
  · rw [← hinv.fifo,hnitems]
    simp [Int.add_assoc]
  · rintro ⟨⟨val,hp⟩,hc⟩
    have hfull := hinv.full val hp
    rw [hinv.empty hc] at hfull
    cases hfull

/-- The consumer waits on the empty buffer and is woken by the first value. -/
theorem boundedBuffer_sound_signalled :
    let acts := [.callConsume,.consume,.callProduce 5,.produce,.callProduce 6,.consume]
    ∃ s, boundedBuffer.run boundedBuffer.init acts = some s ∧ s.passed = [5,6] ∧
      s.returned = [5] ∧ s.Sound := by
  intro acts
  exact ⟨_,rfl,rfl,rfl,boundedBuffer_sound _ ⟨acts,rfl⟩⟩

end UnixNet
