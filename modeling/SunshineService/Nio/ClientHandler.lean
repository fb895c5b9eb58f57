import SunshineService.Foundation.TransitionRun
import SunshineService.Utils.CloseUtils

/-! # The selector loop of the NIO time client

The client owns one channel. `start` is `run()` up to the loop, `step` one iteration
of the loop. The flag `stop` is set in one place, after a read that delivered bytes,
whereas many calls can end the life of the channel.
-/
namespace SunshineService.NIOClientHandler
open TransitionRun ProcessUtils Utf8 Constant

inductive Interest
  | connect
  | read
  deriving DecidableEq, Repr

/-- `interest` is that of the key, once there is one; `printed` lists the values
printed after "接收到的时间为:"; `exited` records `System.exit(1)`. -/
structure State extends SelectedChannel where
  interest : Interest
  stop : Bool
  exited : Bool
  sent : Bytes
  printed : List String
  deriving DecidableEq, Repr

def init : State := ⟨⟨true,false⟩,.connect,false,false,[],[]⟩

def State.close (s : State) : State :=
  { s with toSelectedChannel := CloseUtils.closeKey s.toSelectedChannel }

inductive ConnectOutcome
  | connected (register : Call) (write : WriteOutcome)
  | pending (register : Call)
  | ioException
  deriving DecidableEq

inductive FinishOutcome
  | connected
  | notYet
  | ioException
  deriving DecidableEq

/-- What `select(1000)` reports in one iteration, with the outcomes of the calls. -/
inductive Round
  | selectFails
  | timeout
  | connectable (finish : FinishOutcome) (register : Call) (write : WriteOutcome)
  | readable (read : ReadOutcome)
  deriving DecidableEq

def sendRequest (s : State) (register : Call) (write : WriteOutcome) :
    Except (Throwable × State) State :=
  match register with
  | .ioException => .error (.ioException,s)
  | .returns =>
    let s := { s with keyValid := true, interest := .read }
    match doSend encode queryTimeOrder write with
    | .error e => .error (e,s)
    | .ok sent => .ok { s with sent := s.sent ++ sent.bytes }

/-- A `connect` that throws leaves the channel closed. -/
def doConnect (s : State) : ConnectOutcome → Except (Throwable × State) State
  | .ioException => .error (.ioException,{ s with isOpen := false })
  | .connected register write => sendRequest s register write
  | .pending register =>
    match register with
    | .ioException => .error (.ioException,s)
    | .returns => .ok { s with keyValid := true, interest := .connect }

/-- `run()` up to the loop: an exception of `doConnect` is printed and forgotten. -/
def start (o : ConnectOutcome) : State :=
  match doConnect init o with
  | .ok s => s
  | .error (_,s) => s

def connectReady (s : State) (finish : FinishOutcome) (register : Call) (write : WriteOutcome) :
    Except (Throwable × State) State :=
  match finish with
  | .ioException => .error (.ioException,s)
  | .notYet => .ok { s with exited := true }
  | .connected => sendRequest s register write

def readReady (s : State) : ReadOutcome → Except (Throwable × State) State
  | .ioException => .error (.ioException,s)
  | .zero => .ok s
  | .endOfStream => .ok s.close
  | .bytes chunk =>
    match receive chunk.bytes with
    | .error e => .error (e,s)
    | .ok body => .ok { s with printed := s.printed ++ [body], stop := true }

/-- `isWritable` and `isAcceptable` throw on a key that was just cancelled. -/
def testKey (s : State) : Except (Throwable × State) State :=
  if s.keyValid then .ok s else .error (.cancelledKey,s)

def caught : Except (Throwable × State) State → State
  | .ok s => s
  | .error (_,s) => s.close

/-- One iteration of the loop, possible while `stop` is false and for the event that
the key is registered for. -/
def step (s : State) (round : Round) : Option State :=
  if s.stop || s.exited then none
  else match round with
    | .selectFails => some s
    | .timeout => some s
    | .connectable finish register write =>
      if s.isOpen && s.keyValid && s.interest == .connect then
        some (caught ((connectReady s finish register write).bind testKey))
      else none
    | .readable read =>
      if s.isOpen && s.keyValid && s.interest == .read then
        some (caught ((readReady s read).bind testKey))
      else none

/-! ## What one iteration can do -/

theorem step_running {s t : State} {round : Round} (h : step s round = some t) :
    s.stop = false ∧ s.exited = false := by
  unfold step at h
  split at h
  · contradiction
  · rename_i hc
    simpa using hc

theorem step_connectable {s t : State} {finish : FinishOutcome} {register : Call}
    {write : WriteOutcome} (h : step s (.connectable finish register write) = some t) :
    s.isOpen = true ∧ s.keyValid = true ∧ s.interest = .connect ∧
      t = caught ((connectReady s finish register write).bind testKey) := by
  have hrun := step_running h
  simp only [step,hrun,Bool.or_self,Bool.false_eq_true,↓reduceIte] at h
  split at h
  · rename_i hc
    simp only [Bool.and_eq_true,beq_iff_eq] at hc
    cases h
    exact ⟨hc.1.1,hc.1.2,hc.2,rfl⟩
  · contradiction

theorem step_readable {s t : State} {read : ReadOutcome} (h : step s (.readable read) = some t) :
    s.isOpen = true ∧ s.keyValid = true ∧ s.interest = .read ∧
      t = caught ((readReady s read).bind testKey) := by
  have hrun := step_running h
  simp only [step,hrun,Bool.or_self,Bool.false_eq_true,↓reduceIte] at h
  split at h
  · rename_i hc
    simp only [Bool.and_eq_true,beq_iff_eq] at hc
    cases h
    exact ⟨hc.1.1,hc.1.2,hc.2,rfl⟩
  · contradiction

theorem step_idle {s t : State} {round : Round} (hround : round = .selectFails ∨ round = .timeout)
    (h : step s round = some t) : t = s := by
  have hrun := step_running h
  rcases hround with rfl | rfl
  · simp only [step,hrun,Bool.or_self,Bool.false_eq_true,↓reduceIte] at h
    exact (Option.some.inj h).symm
  · simp only [step,hrun,Bool.or_self,Bool.false_eq_true,↓reduceIte] at h
    exact (Option.some.inj h).symm

theorem caught_connected (s : State) (n : ℕ) :
    caught ((connectReady s .connected .returns (.accepts n)).bind testKey) =
      { s with
        keyValid := true
        interest := .read
        sent := s.sent ++ (encode queryTimeOrder).take n } := by
  simp only [connectReady,sendRequest,doSend_accepts,Except.bind,testKey,↓reduceIte,caught]

theorem caught_bytes {s : State} (hkey : s.keyValid = true) (chunk : Chunk) :
    caught ((readReady s (.bytes chunk)).bind testKey) =
      { s with printed := s.printed ++ [decode chunk.bytes], stop := true } := by
  simp only [readReady,chunk.receive_eq,Except.bind,testKey,hkey,↓reduceIte,caught]

/-! ## Dead channels -/

def Dead (s : State) : Prop := s.isOpen = false ∨ s.keyValid = false

/-- At the head of the loop a dead channel comes with the stop flag. -/
def NoDeadPolling (s : State) : Prop := Dead s → s.stop = true

def ConnectOutcome.Registers : ConnectOutcome → Prop
  | .connected register _ => register = .returns
  | .pending register => register = .returns
  | .ioException => False

/-- Outcomes of an iteration that do not end in the catch block or in a close. -/
def Round.Survives : Round → Prop
  | .selectFails => True
  | .timeout => True
  | .connectable finish register write =>
    finish = .notYet ∨ (finish = .connected ∧ register = .returns ∧ write ≠ .ioException)
  | .readable read => read = .zero ∨ ∃ chunk, read = .bytes chunk

def Alive (s : State) : Prop := s.isOpen = true ∧ s.keyValid = true

theorem Alive.noDeadPolling {s : State} (h : Alive s) : NoDeadPolling s := by
  rintro (hd | hd)
  · rw [h.1] at hd
    contradiction
  · rw [h.2] at hd
    contradiction

theorem alive_start {o : ConnectOutcome} (h : o.Registers) : Alive (start o) := by
  cases o with
  | ioException => exact absurd h id
  | pending register =>
    cases h
    exact ⟨rfl,rfl⟩
  | connected register write =>
    cases h
    cases write with
    | accepts n => simp [start,doConnect,sendRequest,doSend_accepts,Alive,init]
    | ioException => simp [start,doConnect,sendRequest,doSend_ioException,Alive,init]

theorem dead_start {o : ConnectOutcome} (h : ¬ o.Registers) : ¬ NoDeadPolling (start o) := by
  intro hn
  cases o with
  | ioException => exact absurd (hn (Or.inl rfl)) (by decide)
  | pending register =>
    cases register with
    | returns => exact h rfl
    | ioException => exact absurd (hn (Or.inr rfl)) (by decide)
  | connected register write =>
    cases register with
    | returns => exact h rfl
    | ioException => exact absurd (hn (Or.inr rfl)) (by simp [start,doConnect,sendRequest,init])

theorem alive_of_step {s t : State} {round : Round} (hs : Alive s) (h : step s round = some t)
    (hround : round.Survives) : Alive t := by
  cases round with
  | selectFails => exact step_idle (Or.inl rfl) h ▸ hs
  | timeout => exact step_idle (Or.inr rfl) h ▸ hs
  | connectable finish register write =>
    obtain ⟨hopen,hkey,_,rfl⟩ := step_connectable h
    rcases hround with rfl | ⟨rfl,rfl,hw⟩
    · simp [connectReady,Except.bind,testKey,hkey,caught,Alive,hopen]
    · cases write with
      | ioException => exact absurd rfl hw
      | accepts n =>
        rw [caught_connected]
        exact ⟨hopen,rfl⟩
  | readable read =>
    obtain ⟨hopen,hkey,_,rfl⟩ := step_readable h
    rcases hround with rfl | ⟨chunk,rfl⟩
    · simp [readReady,Except.bind,testKey,hkey,caught,Alive,hopen]
    · rw [caught_bytes hkey]
      exact ⟨hopen,hkey⟩

/-- Any other outcome closes the channel without setting the stop flag. -/
theorem closed_of_step {s t : State} {round : Round} (h : step s round = some t)
    (hround : ¬ round.Survives) : t.isOpen = false ∧ t.stop = false := by
  have hstop := (step_running h).1
  cases round with
  | selectFails => exact absurd trivial hround
  | timeout => exact absurd trivial hround
  | connectable finish register write =>
    obtain ⟨_,_,_,rfl⟩ := step_connectable h
    cases finish with
    | notYet => exact absurd (Or.inl rfl) hround
    | ioException => exact ⟨rfl,hstop⟩
    | connected =>
      cases register with
      | ioException => exact ⟨rfl,hstop⟩
      | returns =>
        cases write with
        | accepts n => exact absurd (Or.inr ⟨rfl,rfl,by simp⟩) hround
        | ioException =>
          simp only [connectReady,sendRequest,doSend_ioException,Except.bind,caught,State.close]
          exact ⟨rfl,hstop⟩
  | readable read =>
    obtain ⟨_,_,_,rfl⟩ := step_readable h
    cases read with
    | zero => exact absurd (Or.inl rfl) hround
    | bytes chunk => exact absurd (Or.inr ⟨chunk,rfl⟩) hround
    | endOfStream => exact ⟨rfl,hstop⟩
    | ioException => exact ⟨rfl,hstop⟩

/-- A dead channel with the flag down is never left again: the loop goes on for ever
and no event reaches it. -/
theorem dead_run {s t : State} {rounds : List Round} (hd : Dead s)
    (hr : run step s rounds = some t) :
    t = s ∧ ∀ round ∈ rounds, round = .selectFails ∨ round = .timeout := by
  induction rounds with
  | nil =>
    cases hr
    exact ⟨rfl,by simp⟩
  | cons round rounds ih =>
    obtain ⟨u,hu,hr⟩ := Option.bind_eq_some_iff.mp hr
    have hidle : round = .selectFails ∨ round = .timeout := by
      cases round with
      | selectFails => exact Or.inl rfl
      | timeout => exact Or.inr rfl
      | connectable finish register write =>
        obtain ⟨hopen,hkey,_⟩ := step_connectable hu
        rcases hd with h | h
        · rw [h] at hopen
          contradiction
        · rw [h] at hkey
          contradiction
      | readable read =>
        obtain ⟨hopen,hkey,_⟩ := step_readable hu
        rcases hd with h | h
        · rw [h] at hopen
          contradiction
        · rw [h] at hkey
          contradiction
    rw [step_idle hidle hu] at hr
    obtain ⟨ht,hrest⟩ := ih hr
    exact ⟨ht,List.forall_mem_cons.mpr ⟨hidle,hrest⟩⟩

/-- The client polls a dead channel unless the connection was registered and every
later outcome lets the channel live. -/
theorem noDeadPolling_iff {o : ConnectOutcome} {rounds : List Round} {s : State}
    (hr : run step (start o) rounds = some s) :
    Throughout step NoDeadPolling (start o) rounds ↔
      o.Registers ∧ ∀ round ∈ rounds, round.Survives := by
  by_cases ho : o.Registers
  · have hbreak : ∀ s round t, Alive s → step s round = some t → ¬ round.Survives →
        ¬ NoDeadPolling t := by
      intro s round t _ h hround hn
      obtain ⟨hclosed,hstop⟩ := closed_of_step h hround
      rw [hn (Or.inl hclosed)] at hstop
      contradiction
    rw [throughout_iff_eachStep (fun _ => Alive.noDeadPolling) (fun _ _ _ => alive_of_step)
      hbreak (alive_start ho) hr,eachStep_action_iff hr]
    exact (and_iff_right ho).symm
  · constructor
    · intro h
      exact absurd (h [] (start o) List.nil_prefix rfl) (dead_start ho)
    · intro h
      exact absurd h.1 ho

theorem noDeadPolling_answered :
    Throughout step NoDeadPolling (start (.pending .returns)) [.timeout,
      .connectable .connected .returns (.accepts 16),.readable .zero,
      .readable (.bytes ⟨[0x31],by decide,by decide⟩)] :=
  (noDeadPolling_iff rfl).mpr (by simp [ConnectOutcome.Registers,Round.Survives])

/-- A refused connection: the loop starts with a closed channel and polls it. -/
theorem refused_connection_polls_dead_channel :
    run step (start .ioException) [.timeout,.timeout] = some (start .ioException) ∧
      Dead (start .ioException) ∧ (start .ioException).stop = false ∧
      ¬ NoDeadPolling (start .ioException) := by
  refine ⟨rfl,Or.inl rfl,rfl,?_⟩
  intro h
  exact absurd (h (Or.inl rfl)) (by decide)

end SunshineService.NIOClientHandler
