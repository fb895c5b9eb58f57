import SunshineService.Aio.Operation
import SunshineService.Foundation.TransitionRun

/-! # The nested completion handlers of the AIO time client

`run()` starts a connect and waits on a latch of one. Every callback either starts the
next operation or releases the latch, and the stages of a run say which: what is
outstanding, what the latch shows and how much of the request the channel took.
-/
namespace SunshineService.AIOClientHandler
open TransitionRun ProcessUtils Utf8 Constant
variable (getBytes : String → Bytes)

/-- `countDowns` counts the calls, `uncaught` lists what callbacks let escape and
`printed` what follows "当前时间为:" on the console. -/
structure State where
  channel : AsyncChannel
  latch : ℕ
  countDowns : ℕ
  outstanding : List Operation
  uncaught : List Throwable
  printed : List String
  deriving DecidableEq

/-- `run()` has created the latch and started to connect. -/
def init : State := ⟨⟨true,[]⟩,1,0,[.connect],[],[]⟩

def State.start (s : State) (op : Operation) : State := { s with outstanding := s.outstanding ++ [op] }

def State.countDown (s : State) : State :=
  { s with latch := s.latch - 1, countDowns := s.countDowns + 1 }

def connectCompleted (s : State) : Except Throwable State := do
  let msgBuffer ← messageBuffer getBytes queryTimeOrder
  return s.start (.write msgBuffer)

def writeCompleted (s : State) (attachment : ByteBuffer) : State :=
  if attachment.hasRemaining then s.start (.write attachment)
  else s.start (.read (.allocate readCapacity))

/-- The zeroed array is put into the flipped buffer and then decoded. -/
def readCompleted (s : State) (readBuffer : ByteBuffer) : Except Throwable State := do
  let readBuffer := readBuffer.flip
  let readBytes := List.replicate readBuffer.remaining 0
  let _ ← (readBuffer.put readBytes).mapError Throwable.buffer
  return State.countDown { s with printed := s.printed ++ [decode readBytes] }

/-- The same in all three handlers. -/
def failed (s : State) : State :=
  State.countDown { s with channel := CloseUtils.closeAsync s.channel }

def handle (s : State) : Completed → Except Throwable State
  | .connected => connectCompleted getBytes s
  | .written bytes src =>
    .ok (writeCompleted { s with channel.written := s.channel.written ++ bytes } src)
  | .filled dst => readCompleted s dst
  | .failed => .ok (failed s)

def callback (s : State) (c : Completed) : State :=
  match handle getBytes s c with
  | .ok t => t
  | .error e => { s with uncaught := s.uncaught ++ [e] }

def step (s : State) (a : ℕ × Completion) : Option State :=
  (Operation.completeAt s.outstanding a.1 a.2).map
    (fun p => callback getBytes { s with outstanding := p.1 } p.2)

theorem callback_of_ok {s t : State} {c : Completed} (h : handle getBytes s c = .ok t) :
    callback getBytes s c = t := by
  simp only [callback,h]

theorem step_single {s t : State} {op : Operation} {a : ℕ × Completion}
    (hs : s.outstanding = [op]) (h : step getBytes s a = some t) :
    ∃ c, op.complete a.2 = some c ∧ t = callback getBytes { s with outstanding := [] } c := by
  obtain ⟨⟨rest,c⟩,hp,rfl⟩ := Option.map_eq_some_iff.mp h
  rw [hs] at hp
  obtain ⟨rfl,hc⟩ := Operation.completeAt_singleton hp
  exact ⟨c,hc,rfl⟩

theorem step_idle {s : State} (hs : s.outstanding = []) (a : ℕ × Completion) :
    step getBytes s a = none := by
  simp only [step,hs,Operation.completeAt_nil,Option.map_none]

theorem readCompleted_eq (s : State) (readBuffer : ByteBuffer) :
    readCompleted s readBuffer = .ok (State.countDown { s with
      printed := s.printed ++ [decode (List.replicate readBuffer.flip.remaining 0)] }) := by
  have hlength : (List.replicate readBuffer.flip.remaining (0 : UInt8)).length ≤
      readBuffer.flip.remaining := by simp
  obtain ⟨b,hb,_⟩ := ByteBuffer.put_of_le hlength
  simp only [readCompleted,hb]
  rfl

/-! ## The stages of a run -/

def writing (written : Bytes) (src : ByteBuffer) : State :=
  ⟨⟨true,written⟩,1,0,[.write src],[],[]⟩

def reading (written : Bytes) : State :=
  ⟨⟨true,written⟩,1,0,[.read (.allocate readCapacity)],[],[]⟩

def answered (written : Bytes) (res : String) : State := ⟨⟨true,written⟩,0,1,[],[],[res]⟩

def broken (written : Bytes) : State := ⟨⟨false,written⟩,0,1,[],[],[]⟩

/-- What is outstanding in each stage, and what the channel has taken by then. -/
inductive Stage : State → Prop
  | connecting : Stage init
  | writing (written : Bytes) (src : ByteBuffer)
      (hsrc : written ++ src.contents = getBytes queryTimeOrder) : Stage (writing written src)
  | reading : Stage (reading (getBytes queryTimeOrder))
  | answered (res : String) : Stage (answered (getBytes queryTimeOrder) res)
  | broken (written : Bytes) (hwritten : written <+: getBytes queryTimeOrder) : Stage (broken written)

theorem callback_connected : ∃ src, src.contents = getBytes queryTimeOrder ∧
    callback getBytes { init with outstanding := [] } .connected = writing [] src := by
  obtain ⟨src,hsrc,hcontents⟩ := messageBuffer_eq getBytes queryTimeOrder
  have hok : handle getBytes { init with outstanding := [] } .connected = .ok (writing [] src) := by
    simp only [handle,connectCompleted,hsrc]
    rfl
  exact ⟨src,hcontents,callback_of_ok getBytes hok⟩

theorem step_connecting {t : State} {a : ℕ × Completion} (h : step getBytes init a = some t) :
    (∃ src, src.contents = getBytes queryTimeOrder ∧ t = writing [] src) ∨
      (a.2 = .failed ∧ t = broken []) := by
  obtain ⟨c,hc,rfl⟩ := step_single getBytes rfl h
  rcases Operation.complete_connect hc with rfl | ⟨ha,rfl⟩
  · exact Or.inl (callback_connected getBytes)
  · exact Or.inr ⟨ha,rfl⟩

theorem step_connecting_connected : ∃ src, src.contents = getBytes queryTimeOrder ∧
    step getBytes init (0,.connected) = some (writing [] src) := by
  obtain ⟨src,hsrc,hcallback⟩ := callback_connected getBytes
  exact ⟨src,hsrc,congrArg some hcallback⟩

theorem writeCompleted_eq (written bytes : Bytes) (src rest : ByteBuffer) :
    callback getBytes { writing written src with outstanding := [] } (.written bytes rest) =
      if rest.hasRemaining then writing (written ++ bytes) rest else reading (written ++ bytes) := by
  rw [callback_of_ok getBytes rfl,writeCompleted]
  cases rest.hasRemaining with
  | true => rfl
  | false => rfl

theorem step_writing {written : Bytes} {src : ByteBuffer} {t : State} {a : ℕ × Completion}
    (hsrc : written ++ src.contents = getBytes queryTimeOrder)
    (h : step getBytes (writing written src) a = some t) :
    (∃ bytes rest, bytes ++ rest.contents = getBytes queryTimeOrder ∧ t = writing bytes rest) ∨
      t = reading (getBytes queryTimeOrder) ∨ (a.2 = .failed ∧ t = broken written) := by
  obtain ⟨c,hc,rfl⟩ := step_single getBytes rfl h
  rcases Operation.complete_write hc with ⟨bytes,rest,rfl,hbytes⟩ | ⟨ha,rfl⟩
  · rw [← hbytes,← List.append_assoc] at hsrc
    rw [writeCompleted_eq]
    by_cases hrem : rest.hasRemaining = true
    · rw [if_pos hrem]
      exact Or.inl ⟨_,rest,hsrc,rfl⟩
    · have hempty : rest.contents = [] := rest.contents_eq_nil_iff.mpr hrem
      rw [hempty,List.append_nil] at hsrc
      rw [if_neg hrem,hsrc]
      exact Or.inr (Or.inl rfl)
  · exact Or.inr (Or.inr ⟨ha,rfl⟩)

theorem step_reading {written : Bytes} {t : State} {a : ℕ × Completion}
    (h : step getBytes (reading written) a = some t) :
    (∃ dst, Operation.complete (.read (.allocate readCapacity)) a.2 = some (.filled dst) ∧
      t = answered written (decode (List.replicate dst.flip.remaining 0))) ∨
      (a.2 = .failed ∧ t = broken written) := by
  obtain ⟨c,hc,rfl⟩ := step_single getBytes rfl h
  rcases Operation.complete_read hc with ⟨dst,rfl⟩ | ⟨ha,rfl⟩
  · refine Or.inl ⟨dst,hc,?_⟩
    rw [callback_of_ok (c := .filled dst) getBytes (readCompleted_eq _ dst)]
    rfl
  · exact Or.inr ⟨ha,rfl⟩

theorem step_writing_whole (written : Bytes) (src : ByteBuffer) :
    step getBytes (writing written src) (0,.accepted src.remaining) =
      some (reading (written ++ src.contents)) := by
  have hcomplete : Operation.completeAt (writing written src).outstanding 0
      (.accepted src.remaining) = some ([],.written src.contents (src.transfer src.remaining).2) :=
    Operation.completeAt_of_complete (Operation.complete_write_remaining src)
  rw [step,hcomplete,Option.map_some,writeCompleted_eq,if_neg src.transfer_remaining.2]

theorem step_reading_received (written : Bytes) {bytes : Bytes} (h : bytes.length ≤ readCapacity) :
    ∃ res, step getBytes (reading written) (0,.received bytes) = some (answered written res) := by
  obtain ⟨dst,hdst,_⟩ := Operation.complete_received h
  have hcomplete : Operation.completeAt (reading written).outstanding 0 (.received bytes) =
      some ([],.filled dst) := Operation.completeAt_of_complete hdst
  refine ⟨decode (List.replicate dst.flip.remaining 0),?_⟩
  rw [step,hcomplete,Option.map_some,
    callback_of_ok (c := .filled dst) getBytes (readCompleted_eq _ dst)]
  rfl

theorem stage_of_step (s : State) (a : ℕ × Completion) (t : State) (hs : Stage getBytes s)
    (h : step getBytes s a = some t) : Stage getBytes t := by
  cases hs with
  | connecting =>
    rcases step_connecting getBytes h with ⟨src,hsrc,rfl⟩ | ⟨_,rfl⟩
    · exact Stage.writing [] src hsrc
    · exact Stage.broken [] List.nil_prefix
  | writing written src hsrc =>
    rcases step_writing getBytes hsrc h with ⟨bytes,rest,hrest,rfl⟩ | rfl | ⟨_,rfl⟩
    · exact Stage.writing bytes rest hrest
    · exact Stage.reading
    · exact Stage.broken written ⟨_,hsrc⟩
  | reading =>
    rcases step_reading getBytes h with ⟨dst,_,rfl⟩ | ⟨_,rfl⟩
    · exact Stage.answered _
    · exact Stage.broken _ List.prefix_rfl
  | answered res =>
    rw [step_idle getBytes rfl] at h
    contradiction
  | broken written hwritten =>
    rw [step_idle getBytes rfl] at h
    contradiction

/-! ## The latch -/

/-- The latch is released exactly when nothing is outstanding, and released once. -/
structure LatchInvariant (s : State) : Prop where
  one_outstanding : s.outstanding.length ≤ 1
  latch_one_iff : s.latch = 1 ↔ s.outstanding.length = 1
  latch_zero_iff : s.latch = 0 ↔ s.outstanding = []
  countDown_once : s.countDowns ≤ 1
  handed_over : s.channel.written <+: getBytes queryTimeOrder
  read_after_request : ∀ dst, .read dst ∈ s.outstanding → s.channel.written = getBytes queryTimeOrder
  nothing_uncaught : s.uncaught = []

theorem latchInvariant_of_stage {s : State} (h : Stage getBytes s) : LatchInvariant getBytes s := by
  cases h with
  | connecting =>
    exact ⟨by decide,by decide,by decide,by decide,List.nil_prefix,by simp [init],rfl⟩
  | writing written src hsrc =>
    exact ⟨le_refl 1,by simp [writing],by simp [writing],Nat.zero_le 1,⟨_,hsrc⟩,by simp [writing],rfl⟩
  | reading =>
    exact ⟨le_refl 1,by simp [reading],by simp [reading],Nat.zero_le 1,List.prefix_rfl,
      fun _ _ => rfl,rfl⟩
  | answered res =>
    exact ⟨Nat.zero_le 1,by simp [answered],by simp [answered],le_refl 1,List.prefix_rfl,
      by simp [answered],rfl⟩
  | broken written hwritten =>
    exact ⟨Nat.zero_le 1,by simp [broken],by simp [broken],le_refl 1,hwritten,by simp [broken],rfl⟩

theorem step_failed_closes {s t : State} {k : ℕ} (h : step getBytes s (k,.failed) = some t) :
    t.channel.isOpen = false := by
  obtain ⟨⟨rest,c⟩,hp,rfl⟩ := Option.map_eq_some_iff.mp h
  obtain rfl : c = .failed := Operation.completeAt_failed hp
  rfl

/-- The client thread never waits with nothing pending. -/
theorem latch_invariant {s : State} (h : Reachable (step getBytes) init s) :
    LatchInvariant getBytes s ∧
      ∀ k t, step getBytes s (k,.failed) = some t → t.channel.isOpen = false :=
  ⟨latchInvariant_of_stage getBytes (h.invariant (stage_of_step getBytes) Stage.connecting),
    fun _ _ => step_failed_closes getBytes⟩

/-- Three bytes of the query are on the wire when the second write fails. -/
theorem latch_invariant_after_failed_write :
    ∃ s, run (step encode) init [(0,.connected),(0,.accepted 3),(0,.accepted 0),(0,.failed)] = some s ∧
      s.channel = ⟨false,[81,85,69]⟩ ∧ s.latch = 0 ∧ s.countDowns = 1 ∧ LatchInvariant encode s :=
  ⟨_,rfl,by decide,rfl,rfl,
    (latch_invariant encode ⟨[(0,.connected),(0,.accepted 3),(0,.accepted 0),(0,.failed)],rfl⟩).1⟩

end SunshineService.AIOClientHandler
