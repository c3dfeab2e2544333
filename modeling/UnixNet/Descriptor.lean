import Mathlib.Data.List.Basic
import Mathlib.Data.List.Flatten
set_option autoImplicit false

/-! Bytes, errors and what `read` gives on one descriptor. -/

namespace UnixNet

abbrev Byte := UInt8

def newline : Byte := 10

/-- `MAXLINE` and `MAXN` as unp.h and 4_client_server_model.h define them. -/
def MAXLINE : Nat := 4096
def MAXN : Nat := 16384

inductive Errno where
  | eintr | econnreset | econnaborted | eproto | echild | ewouldblock
  | other : Nat → Errno
  deriving DecidableEq, Repr

/-- What the kernel holds ready for the reads of one descriptor: a segment of at
least one byte, or a failure. After the last arrival every read sees end of file. -/
inductive Arrival where
  | data : Byte → List Byte → Arrival
  | fail : Errno → Arrival
  deriving DecidableEq, Repr

def Arrival.bytes : Arrival → List Byte
  | .data b bs => b :: bs
  | .fail _ => []

/-- The byte stream that the arrivals split. -/
def stream (es : List Arrival) : List Byte := es.flatMap Arrival.bytes

@[simp] theorem stream_nil : stream [] = [] := rfl

@[simp] theorem stream_data (b : Byte) (bs : List Byte) (es : List Arrival) :
    stream (.data b bs :: es) = b :: (bs ++ stream es) := rfl

@[simp] theorem stream_fail (e : Errno) (es : List Arrival) :
    stream (.fail e :: es) = stream es := rfl

inductive ReadResult where
  | data : List Byte → ReadResult
  | eof : ReadResult
  | fail : Errno → ReadResult
  deriving DecidableEq, Repr

/-- `read(fd, buf, n)`: at most one segment, cut at `n` bytes. -/
def read (n : Nat) : List Arrival → ReadResult × List Arrival
  | [] => (.eof,[])
  | .fail e :: es => (.fail e,es)
  | .data b bs :: es =>
    match (b :: bs).drop n with
    | [] => (.data (b :: bs),es)
    | c :: cs => (.data ((b :: bs).take n),.data c cs :: es)

theorem read_data {n : Nat} (hn : 0 < n) {es es' : List Arrival} {bs : List Byte}
    (h : read n es = (.data bs,es')) :
    bs ≠ [] ∧ bs.length ≤ n ∧ stream es = bs ++ stream es' := by
  cases es with
  | nil => simp [read] at h
  | cons a es =>
    cases a with
    | fail e => simp [read] at h
    | data b cs =>
      simp only [read] at h
      split at h
      · rename_i hd
        obtain ⟨rfl,rfl⟩ := by simpa using h
        have hle := List.drop_eq_nil_iff.mp hd
        exact ⟨by simp,hle,rfl⟩
      · rename_i c ds hd
        obtain ⟨rfl,rfl⟩ := by simpa using h
        have hcat := List.take_append_drop n (b :: cs)
        refine ⟨?_,List.length_take_le n _,?_⟩
        · cases n with
          | zero => omega
          | succ n => simp
        · rw [hd] at hcat
          calc stream (.data b cs :: es)
              = (b :: cs) ++ stream es := rfl
            _ = ((b :: cs).take n ++ c :: ds) ++ stream es := by rw [hcat]
            _ = (b :: cs).take n ++ stream (.data c ds :: es) := by
              rw [List.append_assoc]; rfl

theorem read_length {n : Nat} {es es' : List Arrival} {bs : List Byte}
    (h : read n es = (.data bs,es')) : es'.length ≤ es.length := by
  cases es with
  | nil => simp [read] at h
  | cons a es =>
    cases a with
    | fail e => simp [read] at h
    | data b cs =>
      simp only [read] at h
      split at h
      · obtain ⟨_,rfl⟩ := by simpa using h
        simp
      · obtain ⟨_,rfl⟩ := by simpa using h
        simp

theorem read_eof {n : Nat} {es es' : List Arrival}
    (h : read n es = (.eof,es')) : es = [] ∧ es' = [] := by
  cases es with
  | nil => simpa [read,eq_comm] using h
  | cons a es =>
    cases a with
    | fail e => simp [read] at h
    | data b bs =>
      simp only [read] at h
      split at h <;> simp at h

theorem read_fail {n : Nat} {es es' : List Arrival} {e : Errno}
    (h : read n es = (.fail e,es')) : es = .fail e :: es' := by
  cases es with
  | nil => simp [read] at h
  | cons a es =>
    cases a with
    | fail f => simpa [read] using h
    | data b bs =>
      simp only [read] at h
      split at h <;> simp at h

/-- The calls of a program that its peers can see, in the order it makes them. -/
inductive Action where
  | accept : Int → Action
  | read : Int → ReadResult → Action
  | write : Int → List Byte → Action
  | close : Int → Action
  | shutdown : Int → Action
  deriving DecidableEq, Repr

@[simp] def Action.receivedOn (fd : Int) : Action → List Byte
  | .read f (.data bs) => if f = fd then bs else []
  | _ => []

@[simp] def Action.sentOn (fd : Int) : Action → List Byte
  | .write f bs => if f = fd then bs else []
  | _ => []

/-- All bytes read from a descriptor, and all bytes written to it. -/
def received (fd : Int) (log : List Action) : List Byte := log.flatMap (Action.receivedOn fd)
def sent (fd : Int) (log : List Action) : List Byte := log.flatMap (Action.sentOn fd)

@[simp] theorem received_nil (fd : Int) : received fd [] = [] := rfl
@[simp] theorem sent_nil (fd : Int) : sent fd [] = [] := rfl

@[simp] theorem received_append (fd : Int) (l m : List Action) :
    received fd (l ++ m) = received fd l ++ received fd m := List.flatMap_append

@[simp] theorem sent_append (fd : Int) (l m : List Action) :
    sent fd (l ++ m) = sent fd l ++ sent fd m := List.flatMap_append

@[simp] theorem received_cons (fd : Int) (a : Action) (l : List Action) :
    received fd (a :: l) = a.receivedOn fd ++ received fd l := rfl

@[simp] theorem sent_cons (fd : Int) (a : Action) (l : List Action) :
    sent fd (a :: l) = a.sentOn fd ++ sent fd l := rfl

end UnixNet
