import SunshineService.Aio.Operation
import SunshineService.Foundation.TransitionRun

/-! # One accepted connection of the AIO server

The accept callback starts a read into a fresh buffer. `ReadCompletionHandler` answers
what that read delivered and starts no other read, so a connection is read once in its
life. The writes of the reply go on from their own completion handler.
-/
namespace SunshineService.AIOServerHandler
open TransitionRun ProcessUtils Utf8 Constant

/-- `requests` lists the arguments of `process`, which prints them, `replies` its results. -/
structure Connection where
  channel : AsyncChannel
  outstanding : List Operation
  requests : List String
  replies : List String
  uncaught : List Throwable
  deriving DecidableEq

def Connection.start (s : Connection) (op : Operation) : Connection :=
  { s with outstanding := s.outstanding ++ [op] }

/-- The accept callback, for the channel that it is called with. -/
def accepted : Connection :=
  Connection.start ⟨⟨true,[]⟩,[],[],[],[]⟩ (.read (.allocate readCapacity))

/-- `ReadCompletionHandler.completed`; the number of bytes read is not looked at. -/
def readCompleted (s : Connection) (attachment : ByteBuffer) (currentTimeMillis : Int64) :
    Except Throwable Connection := do
  let attachment := attachment.flip
  let (body,_) ← (attachment.get attachment.remaining).mapError Throwable.buffer
  let req := decode body
  let currTime := process req currentTimeMillis
  let msgBuffer ← doSendAsync encode currTime
  return Connection.start
    { s with requests := s.requests ++ [req], replies := s.replies ++ [currTime] } (.write msgBuffer)

/-- The completion handler of the write in `doSend`. -/
def writeCompleted (s : Connection) (buffer : ByteBuffer) : Connection :=
  match sendCompleted buffer with
  | some buffer => s.start (.write buffer)
  | none => s

def failed (s : Connection) : Connection := { s with channel := CloseUtils.closeAsync s.channel }

def handle (s : Connection) (currentTimeMillis : Int64) : Completed → Except Throwable Connection
  | .connected => .ok s
  | .written bytes src =>
    .ok (writeCompleted { s with channel.written := s.channel.written ++ bytes } src)
  | .filled dst => readCompleted s dst currentTimeMillis
  | .failed => .ok (failed s)

def callback (s : Connection) (currentTimeMillis : Int64) (c : Completed) : Connection :=
  match handle s currentTimeMillis c with
  | .ok t => t
  | .error e => { s with uncaught := s.uncaught ++ [e] }

def step (s : Connection) (a : ℕ × Completion × Int64) : Option Connection :=
  (Operation.completeAt s.outstanding a.1 a.2.1).map
    (fun p => callback { s with outstanding := p.1 } a.2.2 p.2)

theorem callback_of_ok {s t : Connection} {now : Int64} {c : Completed} (h : handle s now c = .ok t) :
    callback s now c = t := by
  simp only [callback,h]

theorem step_single {s t : Connection} {op : Operation} {a : ℕ × Completion × Int64}
    (hs : s.outstanding = [op]) (h : step s a = some t) :
    ∃ c, op.complete a.2.1 = some c ∧ t = callback { s with outstanding := [] } a.2.2 c := by
  obtain ⟨⟨rest,c⟩,hp,rfl⟩ := Option.map_eq_some_iff.mp h
  rw [hs] at hp
  obtain ⟨rfl,hc⟩ := Operation.completeAt_singleton hp
  exact ⟨c,hc,rfl⟩

theorem step_idle {s : Connection} (hs : s.outstanding = []) (a : ℕ × Completion × Int64) :
    step s a = none := by
  simp only [step,hs,Operation.completeAt_nil,Option.map_none]

theorem readCompleted_eq (s : Connection) (attachment : ByteBuffer) (now : Int64) :
    ∃ msgBuffer, msgBuffer.contents = encode (process (decode attachment.flip.contents) now) ∧
      readCompleted s attachment now = .ok (Connection.start
        { s with
          requests := s.requests ++ [decode attachment.flip.contents]
          replies := s.replies ++ [process (decode attachment.flip.contents) now] }
        (.write msgBuffer)) := by
  obtain ⟨c,hc⟩ := attachment.flip.get_remaining
  obtain ⟨b,hb,hcontents⟩ := messageBuffer_eq encode (process (decode attachment.flip.contents) now)
  refine ⟨b,hcontents,?_⟩
  simp only [readCompleted,hc,Except.mapError,bind,Except.bind,doSendAsync,hb]
  rfl

/-! ## The stages of a connection -/

def replying (req currTime : String) (written : Bytes) (src : ByteBuffer) : Connection :=
  ⟨⟨true,written⟩,[.write src],[req],[currTime],[]⟩

def replied (req currTime : String) (written : Bytes) : Connection :=
  ⟨⟨true,written⟩,[],[req],[currTime],[]⟩

theorem callback_filled (dst : ByteBuffer) (now : Int64) :
    ∃ src, src.contents = encode (process (decode dst.flip.contents) now) ∧
      callback { accepted with outstanding := [] } now (.filled dst) =
        replying (decode dst.flip.contents) (process (decode dst.flip.contents) now) [] src := by
  obtain ⟨src,hsrc,hok⟩ := readCompleted_eq { accepted with outstanding := [] } dst now
  refine ⟨src,hsrc,?_⟩
  rw [callback_of_ok (c := .filled dst) hok]
  rfl

theorem step_accepted {t : Connection} {a : ℕ × Completion × Int64} (h : step accepted a = some t) :
    (∃ dst src, Operation.complete (.read (.allocate readCapacity)) a.2.1 = some (.filled dst) ∧
      src.contents = encode (process (decode dst.flip.contents) a.2.2) ∧
      t = replying (decode dst.flip.contents) (process (decode dst.flip.contents) a.2.2) [] src) ∨
      (a.2.1 = .failed ∧ t = ⟨⟨false,[]⟩,[],[],[],[]⟩) := by
  obtain ⟨c,hc,rfl⟩ := step_single rfl h
  rcases Operation.complete_read hc with ⟨dst,rfl⟩ | ⟨ha,rfl⟩
  · obtain ⟨src,hsrc,hcallback⟩ := callback_filled dst a.2.2
    exact Or.inl ⟨dst,src,hc,hsrc,hcallback⟩
  · exact Or.inr ⟨ha,rfl⟩

theorem step_accepted_filled {o : Completion} {dst : ByteBuffer}
    (h : Operation.complete (.read (.allocate readCapacity)) o = some (.filled dst)) (now : Int64) :
    ∃ src, src.contents = encode (process (decode dst.flip.contents) now) ∧
      step accepted (0,o,now) = some (replying (decode dst.flip.contents)
        (process (decode dst.flip.contents) now) [] src) := by
  obtain ⟨src,hsrc,hcallback⟩ := callback_filled dst now
  have hcomplete : Operation.completeAt accepted.outstanding 0 o = some ([],.filled dst) :=
    Operation.completeAt_of_complete h
  exact ⟨src,hsrc,by rw [step,hcomplete,Option.map_some,hcallback]⟩

theorem writeCompleted_eq (req currTime : String) (written bytes : Bytes) (src rest : ByteBuffer)
    (now : Int64) :
    callback { replying req currTime written src with outstanding := [] } now (.written bytes rest) =
      if rest.hasRemaining then replying req currTime (written ++ bytes) rest
      else replied req currTime (written ++ bytes) := by
  rw [callback_of_ok rfl,writeCompleted,sendCompleted]
  cases rest.hasRemaining with
  | true => rfl
  | false => rfl

theorem step_replying {req currTime : String} {written : Bytes} {src : ByteBuffer} {t : Connection}
    {a : ℕ × Completion × Int64} (hsrc : written ++ src.contents = encode currTime)
    (h : step (replying req currTime written src) a = some t) :
    (∃ bytes rest, bytes ++ rest.contents = encode currTime ∧ t = replying req currTime bytes rest) ∨
      t = replied req currTime (encode currTime) ∨
      (a.2.1 = .failed ∧ t = ⟨⟨false,written⟩,[],[req],[currTime],[]⟩) := by
  obtain ⟨c,hc,rfl⟩ := step_single rfl h
  rcases Operation.complete_write hc with ⟨bytes,rest,rfl,hbytes⟩ | ⟨ha,rfl⟩
  · rw [← hbytes,← List.append_assoc] at hsrc
    rw [writeCompleted_eq]
    by_cases hrem : rest.hasRemaining = true
    · rw [if_pos hrem]
      exact Or.inl ⟨_,rest,hsrc,rfl⟩
    · have hempty : rest.contents = [] := rest.contents_eq_nil_iff.mpr hrem
      rw [hempty,List.append_nil] at hsrc
      rw [if_neg hrem,hsrc]
      exact Or.inr (Or.inl rfl)
  · exact Or.inr (Or.inr ⟨ha,rfl⟩)

theorem step_replying_whole (req currTime : String) (written : Bytes) (src : ByteBuffer) (now : Int64) :
    step (replying req currTime written src) (0,.accepted src.remaining,now) =
      some (replied req currTime (written ++ src.contents)) := by
  have hcomplete : Operation.completeAt (replying req currTime written src).outstanding 0
      (.accepted src.remaining) = some ([],.written src.contents (src.transfer src.remaining).2) :=
    Operation.completeAt_of_complete (Operation.complete_write_remaining src)
  rw [step,hcomplete,Option.map_some,writeCompleted_eq,if_neg src.transfer_remaining.2]

end SunshineService.AIOServerHandler
