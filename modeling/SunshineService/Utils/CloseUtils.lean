import SunshineService.Utils.ProcessUtils

/-! # Channels, reads and the close helpers

The parts of the channel contracts that the handlers rely on. A channel counts as
closed from the start of its `close()` call, so the outcome of that call does not
matter to the helpers, which catch what it throws.
-/
namespace SunshineService
open Utf8

inductive Call
  | returns
  | ioException
  deriving DecidableEq, Repr

structure SelectedChannel where
  isOpen : Bool
  keyValid : Bool
  deriving DecidableEq, Repr

structure AsyncChannel where
  isOpen : Bool
  written : Bytes
  deriving DecidableEq, Repr

structure ServerSocket where
  isOpen : Bool
  deriving DecidableEq, Repr

namespace CloseUtils

def closeKey (ch : SelectedChannel) : SelectedChannel :=
  let cancelled := { ch with keyValid := false }
  { cancelled with isOpen := false }

def closeAsync (ch : AsyncChannel) : AsyncChannel := { ch with isOpen := false }

/-- `close(ServerSocket)`, which does nothing to a null reference. -/
def closeServer : Option ServerSocket → Option ServerSocket
  | none => none
  | some s => some { s with isOpen := false }

@[simp] theorem closeKey_isOpen (ch : SelectedChannel) : (closeKey ch).isOpen = false := rfl

@[simp] theorem closeKey_keyValid (ch : SelectedChannel) : (closeKey ch).keyValid = false := rfl

end CloseUtils

/-! ## Reading into a buffer of 1024 bytes -/

def readCapacity : ℕ := 1024

structure Chunk where
  bytes : Bytes
  ne_nil : bytes ≠ []
  length_le : bytes.length ≤ readCapacity
  deriving DecidableEq

inductive ReadOutcome
  | bytes (chunk : Chunk)
  | zero
  | endOfStream
  | ioException
  deriving DecidableEq

/-- Read into a fresh buffer, flip it, copy it out and decode the copy. -/
def receive (bytes : Bytes) : Except Throwable String := do
  let readBuffer ← ((ByteBuffer.allocate readCapacity).put bytes).mapError Throwable.buffer
  let readBuffer := readBuffer.flip
  let (body,_) ← (readBuffer.get readBuffer.remaining).mapError Throwable.buffer
  return decode body

theorem receive_eq {bytes : Bytes} (h : bytes.length ≤ readCapacity) :
    receive bytes = .ok (decode bytes) := by
  obtain ⟨b,hb,hcontents⟩ := ByteBuffer.put_allocate h
  obtain ⟨c,hc⟩ := b.flip.get_remaining
  simp only [receive,hb,Except.mapError,bind,Except.bind]
  rw [hc,hcontents]
  rfl

theorem Chunk.receive_eq (chunk : Chunk) : receive chunk.bytes = .ok (decode chunk.bytes) :=
  SunshineService.receive_eq chunk.length_le

/-! ## The objects of a blocking connection -/

/-- What `readLine` will find: lines, each with the clock at its answer, and an end. -/
inductive Incoming
  | endOfStream
  | ioException
  | line (body : String) (currentTimeMillis : Int64) (rest : Incoming)
  deriving DecidableEq

structure Peer where
  inputStream : Call
  outputStream : Call
  incoming : Incoming
  deriving DecidableEq

/-- An object and whether its `close()` has been called. -/
structure Closeable (α : Type*) where
  value : α
  closeAttempted : Bool
  deriving DecidableEq

abbrev Socket := Closeable Peer

/-- The lines it has returned. -/
abbrev BufferedReader := Closeable (List String)

/-- The lines it was given to print. -/
abbrev PrintWriter := Closeable (List String)

/-- The call counts as made whether or not it throws. -/
def Closeable.close {α : Type*} (x : Closeable α) (outcome : Except Throwable Unit) :
    Except (Throwable × Closeable α) (Closeable α) :=
  match outcome with
  | .ok () => .ok { x with closeAttempted := true }
  | .error e => .error (e,{ x with closeAttempted := true })

/-- The locals `in` and `out` of a handler and its socket. -/
structure Connection where
  input : Option BufferedReader
  out : Option PrintWriter
  socket : Option Socket
  deriving DecidableEq

structure CloseOutcomes where
  input : Except Throwable Unit
  out : Except Throwable Unit
  socket : Except Throwable Unit

namespace CloseUtils

/-- The body of the overloads for one object: a null check around a `close()` whose
exceptions are caught and printed. -/
def closeQuietly {α : Type*} (outcome : Except Throwable Unit) :
    Option (Closeable α) → Option (Closeable α)
  | none => none
  | some x =>
    match x.close outcome with
    | .ok x => some x
    | .error (_,x) => some x

def closeReader (outcome : Except Throwable Unit) (input : Option BufferedReader) :
    Option BufferedReader := closeQuietly outcome input

def closeWriter (outcome : Except Throwable Unit) (out : Option PrintWriter) :
    Option PrintWriter := closeQuietly outcome out

def closeSocket (outcome : Except Throwable Unit) (socket : Option Socket) :
    Option Socket := closeQuietly outcome socket

/-- `close(BufferedReader, PrintWriter, Socket)`. -/
def closeConnection (outcomes : CloseOutcomes) (c : Connection) : Connection :=
  let c := { c with input := closeReader outcomes.input c.input }
  let c := { c with out := closeWriter outcomes.out c.out }
  { c with socket := closeSocket outcomes.socket c.socket }

theorem closeQuietly_eq {α : Type*} (outcome : Except Throwable Unit) (x : Option (Closeable α)) :
    closeQuietly outcome x = x.map (fun y => { y with closeAttempted := true }) := by
  cases x with
  | none => rfl
  | some x =>
    cases outcome with
    | ok u => rfl
    | error e => rfl

/-- No exception of one `close()` keeps the next from being called. -/
theorem closeConnection_eq (outcomes : CloseOutcomes) (c : Connection) :
    closeConnection outcomes c = {
      input := c.input.map (fun y => { y with closeAttempted := true })
      out := c.out.map (fun y => { y with closeAttempted := true })
      socket := c.socket.map (fun y => { y with closeAttempted := true }) } := by
  simp only [closeConnection,closeReader,closeWriter,closeSocket,closeQuietly_eq]

end CloseUtils
end SunshineService
