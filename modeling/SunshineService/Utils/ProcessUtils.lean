import Mathlib.Data.Nat.Digits.Defs
import SunshineService.Foundation.ByteBuffer

/-! # The shared request processing and the two senders

`process` answers a request, the `doSend` overloads serialise a message into a
buffer and hand it to a channel. The blocking-style overload writes once; the
asynchronous one writes again from its completion handler while bytes remain.
Encodings are a parameter of the senders, since `getBytes()` takes the default
charset of the platform.
-/
namespace SunshineService

inductive Throwable
  | ioException
  | nullPointer
  | cancelledKey
  | rejectedExecution
  | buffer (e : BufferError)
  deriving DecidableEq, Repr

namespace Constant

def queryTimeOrder : String := "QUERY TIME ORDER"

def badOrder : String := "BAD ORDER"

end Constant

namespace ProcessUtils
open Constant Utf8

/-! ## Requests -/

/-- The characters outside ASCII whose upper or lower case is an ASCII letter are
the dotless and the dotted I, the long S and the Kelvin sign. -/
def toUpperCase (c : Char) : Char :=
  if c = '\u0131' then 'I' else if c = '\u017F' then 'S' else c.toUpper

def toLowerCase (c : Char) : Char :=
  if c = '\u0130' then 'i' else if c = '\u212A' then 'k' else c.toLower

/-- The case test of `String.equalsIgnoreCase`, exact when one side is ASCII. -/
def sameLetter (a b : Char) : Bool :=
  a == b || toUpperCase a == toUpperCase b ||
    toLowerCase (toUpperCase a) == toLowerCase (toUpperCase b)

def equalsIgnoreCase (s t : String) : Bool :=
  s.length == t.length && (s.toList.zip t.toList).all (fun p => sameLetter p.1 p.2)

def valueOf (x : Int64) : String := toString x.toInt

def process (reqBody : String) (currentTimeMillis : Int64) : String :=
  if equalsIgnoreCase queryTimeOrder reqBody then valueOf currentTimeMillis else badOrder

/-- The overload with a counter prints it and otherwise answers in the same way. -/
def processCounted (reqBody : String) (_counter : Int32) (currentTimeMillis : Int64) : String :=
  if equalsIgnoreCase queryTimeOrder reqBody then valueOf currentTimeMillis else badOrder

theorem processCounted_eq (reqBody : String) (counter : Int32) (t : Int64) :
    processCounted reqBody counter t = process reqBody t := rfl

theorem process_query (t : Int64) : process queryTimeOrder t = valueOf t :=
  if_pos (by decide)

theorem process_time_or_badOrder (reqBody : String) (t : Int64) :
    process reqBody t = badOrder ∨ process reqBody t = valueOf t := by
  unfold process
  split
  · exact Or.inr rfl
  · exact Or.inl rfl

theorem process_of_length_ne {reqBody : String} (h : reqBody.length ≠ queryTimeOrder.length)
    (t : Int64) : process reqBody t = badOrder := by
  have hno : equalsIgnoreCase queryTimeOrder reqBody = false := by
    simp [equalsIgnoreCase,Ne.symm h]
  rw [process,hno]
  rfl

theorem ascii_queryTimeOrder : Ascii queryTimeOrder := by
  have hall : queryTimeOrder.toList.all (fun c => decide (c.val ≤ 127)) = true := by decide
  intro c hc
  exact of_decide_eq_true (List.all_eq_true.mp hall c hc)

theorem valueOf_char {x : Int64} {c : Char} (hc : c ∈ (valueOf x).toList) :
    c = '-' ∨ c.isDigit = true := by
  unfold valueOf at hc
  cases hx : x.toInt with
  | ofNat n =>
    rw [hx] at hc
    change c ∈ n.repr.toList at hc
    rw [Nat.toList_repr] at hc
    exact Or.inr (Nat.isDigit_of_mem_toDigits (by omega) (by omega) hc)
  | negSucc n =>
    rw [hx] at hc
    change c ∈ ("-" ++ n.succ.repr).toList at hc
    rw [String.toList_append,Nat.toList_repr] at hc
    rcases List.mem_append.mp hc with h | h
    · exact Or.inl (by simpa using h)
    · exact Or.inr (Nat.isDigit_of_mem_toDigits (by omega) (by omega) h)

theorem length_valueOf_le (x : Int64) : (valueOf x).length ≤ 20 := by
  have hlo := x.le_toInt
  have hhi := x.toInt_lt
  unfold valueOf
  cases hx : x.toInt with
  | ofNat n =>
    have hn : n < 10 ^ 19 := by
      rw [hx,Int.ofNat_eq_natCast] at hhi
      omega
    have hlen := Nat.repr_length n 19 (by omega) hn
    change n.repr.length ≤ 20
    omega
  | negSucc n =>
    have hn : n.succ < 10 ^ 19 := by omega
    have hlen := Nat.repr_length n.succ 19 (by omega) hn
    change ("-" ++ n.succ.repr).length ≤ 20
    rw [String.length_append]
    have hminus : "-".length = 1 := rfl
    omega

theorem valueOf_ne_empty (x : Int64) : valueOf x ≠ "" := by
  unfold valueOf
  cases x.toInt with
  | ofNat n =>
    intro h
    have hlist := congrArg String.toList h
    change n.repr.toList = [] at hlist
    rw [Nat.toList_repr] at hlist
    exact absurd hlist Nat.toDigits_ne_nil
  | negSucc n =>
    intro h
    have hlist := congrArg String.toList h
    change ("-" ++ n.succ.repr).toList = [] at hlist
    rw [String.toList_append] at hlist
    simp at hlist

theorem isDigit_val_le {c : Char} (h : c.isDigit = true) : c.val ≤ 57 := by
  simp only [Char.isDigit,Bool.and_eq_true,decide_eq_true_eq] at h
  exact h.2

theorem ascii_valueOf (x : Int64) : Ascii (valueOf x) := by
  intro c hc
  rcases valueOf_char hc with rfl | h
  · decide
  · exact UInt32.le_trans (isDigit_val_le h) (by decide)

/-- A printed clock value never reads as the error reply. -/
theorem valueOf_ne_badOrder (x : Int64) : valueOf x ≠ badOrder := by
  intro h
  have hmem : 'B' ∈ (valueOf x).toList := by
    rw [h]
    decide
  rcases valueOf_char hmem with hc | hc
  · exact absurd hc (by decide)
  · exact absurd hc (by decide)

/-! ## Sending -/

inductive WriteOutcome
  | accepts (n : ℕ)
  | ioException
  deriving DecidableEq, Repr

/-- The bytes that the channel took and whether "发送消息完毕!" was printed. -/
structure Sent where
  bytes : Bytes
  finished : Bool
  deriving DecidableEq, Repr

variable {Str : Type*} (getBytes : Str → Bytes)

/-- The serialised message in a flipped buffer, as both overloads build it. -/
def messageBuffer (msg : Str) : Except Throwable ByteBuffer := do
  let msgBytes := getBytes msg
  let msgBuffer ← ((ByteBuffer.allocate msgBytes.length).put msgBytes).mapError Throwable.buffer
  return msgBuffer.flip

/-- `doSend(SocketChannel, String)`: one write, whatever it accepts. -/
def doSend (msg : Str) (write : WriteOutcome) : Except Throwable Sent := do
  let msgBuffer ← messageBuffer getBytes msg
  match write with
  | .ioException => throw .ioException
  | .accepts n =>
    let (bytes,msgBuffer) := msgBuffer.transfer n
    return ⟨bytes,!msgBuffer.hasRemaining⟩

/-- `doSend(AsynchronousSocketChannel, String)`: the buffer of the write it starts. -/
def doSendAsync (msg : Str) : Except Throwable ByteBuffer := messageBuffer getBytes msg

/-- Its completion handler: the buffer of the next write, if there is one. -/
def sendCompleted (buffer : ByteBuffer) : Option ByteBuffer :=
  if buffer.hasRemaining then some buffer else none

/-- Everything a channel takes when its successive writes accept the given counts. -/
def drain : Option ByteBuffer → List ℕ → Bytes
  | none, _ => []
  | some _, [] => []
  | some buffer, n :: ns =>
    let (bytes,buffer) := buffer.transfer n
    bytes ++ drain (sendCompleted buffer) ns

theorem messageBuffer_eq (msg : Str) :
    ∃ b, messageBuffer getBytes msg = .ok b ∧ b.contents = getBytes msg := by
  obtain ⟨b,hb,hcontents⟩ := ByteBuffer.put_allocate (le_refl (getBytes msg).length)
  refine ⟨b.flip,?_,hcontents⟩
  simp [messageBuffer,hb,Except.mapError,bind,Except.bind,pure,Except.pure]

theorem doSend_accepts (msg : Str) (n : ℕ) :
    doSend getBytes msg (.accepts n) =
      .ok ⟨(getBytes msg).take n,decide ((getBytes msg).length ≤ n)⟩ := by
  obtain ⟨b,hb,hcontents⟩ := messageBuffer_eq getBytes msg
  have hlen : b.remaining = (getBytes msg).length := by rw [← hcontents,b.length_contents]
  have hdone : (!(b.transfer n).2.hasRemaining) = decide ((getBytes msg).length ≤ n) := by
    apply Bool.eq_iff_iff.mpr
    rw [Bool.not_eq_true',← Bool.not_eq_true,ByteBuffer.hasRemaining_iff,
      ByteBuffer.remaining_transfer,hlen,decide_eq_true_eq]
    omega
  rw [← hcontents] at hdone ⊢
  simp [doSend,hb,bind,Except.bind,pure,Except.pure,hdone]

theorem doSend_ioException (msg : Str) :
    doSend getBytes msg .ioException = .error .ioException := by
  obtain ⟨b,hb,_⟩ := messageBuffer_eq getBytes msg
  simp only [doSend,hb]
  rfl

/-- The loop of completions: taken bytes and remaining bytes make up the contents, so
enough accepted bytes take all of it. -/
theorem drain_eq (b : ByteBuffer) (ns : List ℕ) :
    drain (sendCompleted b) ns = b.contents.take ns.sum := by
  induction ns generalizing b with
  | nil =>
    unfold sendCompleted
    split <;> simp [drain]
  | cons n ns ih =>
    unfold sendCompleted
    by_cases hrem : b.hasRemaining = true
    · simp only [hrem,↓reduceIte,drain]
      rw [ih,ByteBuffer.contents_transfer,ByteBuffer.transfer_fst,List.sum_cons,List.take_add]
    · have hzero : b.remaining = 0 := by
        have h := mt (ByteBuffer.hasRemaining_iff b).mpr hrem
        omega
      have hnil : b.contents = [] := List.length_eq_zero_iff.mp (by rw [b.length_contents,hzero])
      simp [hrem,drain,hnil]

theorem drain_some (b : ByteBuffer) (ns : List ℕ) : drain (some b) ns = b.contents.take ns.sum := by
  cases ns with
  | nil => rfl
  | cons n ns =>
    simp only [drain]
    rw [drain_eq,ByteBuffer.contents_transfer,ByteBuffer.transfer_fst,List.sum_cons,List.take_add]

/-! ## Both overloads against one schedule of accepted counts -/

def deliveredSync (msg : Str) (schedule : List ℕ) : Except Throwable Bytes :=
  (doSend getBytes msg (.accepts (schedule.headD 0))).map Sent.bytes

def deliveredAsync (msg : Str) (schedule : List ℕ) : Except Throwable Bytes :=
  (doSendAsync getBytes msg).map (fun b => drain (some b) schedule)

theorem deliveredSync_eq (msg : Str) (schedule : List ℕ) :
    deliveredSync getBytes msg schedule = .ok ((getBytes msg).take (schedule.headD 0)) := by
  rw [deliveredSync,doSend_accepts]
  rfl

theorem deliveredAsync_eq (msg : Str) (schedule : List ℕ) :
    deliveredAsync getBytes msg schedule = .ok ((getBytes msg).take schedule.sum) := by
  obtain ⟨b,hb,hcontents⟩ := messageBuffer_eq getBytes msg
  rw [deliveredAsync,doSendAsync,hb,← hcontents,← drain_some]
  rfl

/-- On a schedule with room for the message the asynchronous overload always delivers
it, so both do exactly when the first write already accepts the whole message. -/
theorem doSend_overloads_deliver_iff (msg : Str) (schedule : List ℕ)
    (hroom : (getBytes msg).length ≤ schedule.sum) :
    (deliveredSync getBytes msg schedule = .ok (getBytes msg) ∧
      deliveredAsync getBytes msg schedule = .ok (getBytes msg)) ↔
      (getBytes msg).length ≤ schedule.headD 0 := by
  have hasync : deliveredAsync getBytes msg schedule = .ok (getBytes msg) := by
    rw [deliveredAsync_eq,List.take_of_length_le hroom]
  simp only [hasync,and_true]
  rw [deliveredSync_eq,Except.ok.injEq,List.take_eq_self_iff]

theorem doSend_overloads_deliver_in_one_write :
    deliveredSync encode queryTimeOrder [16] = .ok (encode queryTimeOrder) ∧
      deliveredAsync encode queryTimeOrder [16] = .ok (encode queryTimeOrder) :=
  (doSend_overloads_deliver_iff encode queryTimeOrder [16] (by decide)).mpr (by decide)

/-- Two writes of 3 and 13 bytes: the blocking-style overload hands over only "QUE". -/
theorem doSend_short_write_loses_tail :
    (encode queryTimeOrder).length ≤ [3,13].sum ∧
      deliveredSync encode queryTimeOrder [3,13] = .ok (encode "QUE") ∧
      deliveredSync encode queryTimeOrder [3,13] ≠ .ok (encode queryTimeOrder) ∧
      deliveredAsync encode queryTimeOrder [3,13] = .ok (encode queryTimeOrder) := by
  rw [deliveredSync_eq,deliveredAsync_eq]
  decide

end ProcessUtils
end SunshineService
