import SunshineService.Utils.CloseUtils

/-! # One client of the blocking server

`run` opens the two streams, answers line after line and returns when the peer has
ended its stream. The catch block closes what has been opened. There is no finally
block, so the way out of the loop through `break` closes nothing.
-/
namespace SunshineService.BIOHandler
open ProcessUtils CloseUtils

/-! ## The handler -/

def getInputStream (socket : Socket) : Except Throwable Incoming :=
  match socket.value.inputStream with
  | .returns => .ok socket.value.incoming
  | .ioException => .error .ioException

def getOutputStream (socket : Socket) : Except Throwable Unit :=
  match socket.value.outputStream with
  | .returns => .ok ()
  | .ioException => .error .ioException

/-- Lines that `in` has returned or that `out` has printed. -/
def record (ls : List String) (x : Closeable (List String)) : Closeable (List String) :=
  { x with value := x.value ++ ls }

/-- The loop, which ends with the stream or with what `readLine` throws. -/
def serve : Incoming → Connection → Except (Throwable × Connection) Connection
  | .endOfStream,c => .ok c
  | .ioException,c => .error (.ioException,c)
  | .line body currentTimeMillis rest,c =>
    let c := { c with input := c.input.map (record [body]) }
    serve rest { c with out := c.out.map (record [process body currentTimeMillis]) }

def tryBlock (c : Connection) : Except (Throwable × Connection) Connection :=
  match c.socket with
  | none => .error (.nullPointer,c)
  | some socket => do
    let incoming ← (getInputStream socket).mapError (fun e => (e,c))
    let c := { c with input := some ⟨[],false⟩ }
    (getOutputStream socket).mapError (fun e => (e,c))
    let c := { c with out := some ⟨[],false⟩ }
    serve incoming c

def run (outcomes : CloseOutcomes) (socket : Option Socket) :
    Except (Throwable × Connection) Connection :=
  match tryBlock ⟨none,none,socket⟩ with
  | .ok c => .ok c
  | .error (.ioException,c) => .ok (closeConnection outcomes c)
  | .error (e,c) => .error (e,c)

/-! ## What the loop leaves -/

def lines : Incoming → List (String × Int64)
  | .endOfStream => []
  | .ioException => []
  | .line body currentTimeMillis rest => (body,currentTimeMillis) :: lines rest

def ending : Incoming → Call
  | .endOfStream => .returns
  | .ioException => .ioException
  | .line _ _ rest => ending rest

def replies (ls : List (String × Int64)) : List String := ls.map (fun l => process l.1 l.2)

def answer (ls : List (String × Int64)) (c : Connection) : Connection :=
  { c with
    input := c.input.map (record (ls.map Prod.fst))
    out := c.out.map (record (replies ls)) }

theorem map_record (as bs : List String) (x : Option (Closeable (List String))) :
    (x.map (record as)).map (record bs) = x.map (record (as ++ bs)) := by
  cases x with
  | none => rfl
  | some x => simp [record]

theorem map_record_nil (x : Option (Closeable (List String))) : x.map (record []) = x := by
  cases x with
  | none => rfl
  | some x => simp [record]

theorem answer_nil (c : Connection) : answer [] c = c := by
  simp only [answer,replies,List.map_nil,map_record_nil]

/-- Both exits of the loop leave every line answered. -/
theorem serve_eq (incoming : Incoming) (c : Connection) :
    serve incoming c = match ending incoming with
      | .returns => .ok (answer (lines incoming) c)
      | .ioException => .error (.ioException,answer (lines incoming) c) := by
  induction incoming generalizing c with
  | endOfStream => simp only [serve,ending,lines,answer_nil]
  | ioException => simp only [serve,ending,lines,answer_nil]
  | line body currentTimeMillis rest ih =>
    rw [serve,ih]
    simp only [ending,lines,answer,replies,map_record,List.map_cons,List.singleton_append]

/-! ## What the try block leaves -/

section
variable {socket : Socket}

theorem tryBlock_input_fails (hinput : socket.value.inputStream = .ioException) :
    tryBlock ⟨none,none,some socket⟩ = .error (.ioException,⟨none,none,some socket⟩) := by
  simp only [tryBlock,getInputStream,hinput]
  rfl

theorem tryBlock_out_fails (hinput : socket.value.inputStream = .returns)
    (hout : socket.value.outputStream = .ioException) :
    tryBlock ⟨none,none,some socket⟩ =
      .error (.ioException,⟨some ⟨[],false⟩,none,some socket⟩) := by
  simp only [tryBlock,getInputStream,getOutputStream,hinput,hout]
  rfl

theorem tryBlock_opened (hinput : socket.value.inputStream = .returns)
    (hout : socket.value.outputStream = .returns) :
    tryBlock ⟨none,none,some socket⟩ =
      serve socket.value.incoming ⟨some ⟨[],false⟩,some ⟨[],false⟩,some socket⟩ := by
  simp only [tryBlock,getInputStream,getOutputStream,hinput,hout]
  rfl

end

/-! ## The way `run` ends -/

def linesRead (peer : Peer) : List (String × Int64) :=
  match peer.inputStream,peer.outputStream with
  | .returns,.returns => lines peer.incoming
  | _,_ => []

/-- An `IOException` ends the connection, not the end of its stream. -/
def Breaks (peer : Peer) : Prop :=
  peer.inputStream = .ioException ∨ peer.outputStream = .ioException ∨
    ending peer.incoming = .ioException

instance (peer : Peer) : Decidable (Breaks peer) := inferInstanceAs (Decidable (_ ∨ _ ∨ _))

/-- `run` returns with this connection, whatever its `close()` calls do. -/
def left (peer : Peer) : Connection where
  input := match peer.inputStream with
    | .returns => some ⟨(linesRead peer).map Prod.fst,decide (Breaks peer)⟩
    | .ioException => none
  out := match peer.inputStream,peer.outputStream with
    | .returns,.returns => some ⟨replies (linesRead peer),decide (Breaks peer)⟩
    | _,_ => none
  socket := some ⟨peer,decide (Breaks peer)⟩

theorem run_eq (outcomes : CloseOutcomes) (peer : Peer) :
    run outcomes (some ⟨peer,false⟩) = .ok (left peer) := by
  obtain ⟨inputStream,outputStream,incoming⟩ := peer
  cases inputStream with
  | ioException =>
    rw [run,tryBlock_input_fails rfl]
    simp [closeConnection_eq,left,Breaks]
  | returns =>
    cases outputStream with
    | ioException =>
      rw [run,tryBlock_out_fails rfl rfl]
      simp [closeConnection_eq,left,Breaks,linesRead]
    | returns =>
      rw [run,tryBlock_opened rfl rfl,serve_eq]
      cases h : ending incoming with
      | returns => simp [h,answer,record,left,Breaks,linesRead]
      | ioException => simp [h,closeConnection_eq,answer,record,left,Breaks,linesRead]

/-- The replies printed, none if `out` was not created. -/
def printed (c : Connection) : List String :=
  match c.out with
  | none => []
  | some out => out.value

/-- `close()` has been attempted on the socket and on each stream that was created. -/
structure Released (c : Connection) : Prop where
  socket : ∃ socket, c.socket = some socket ∧ socket.closeAttempted = true
  input : ∀ input, c.input = some input → input.closeAttempted = true
  out : ∀ out, c.out = some out → out.closeAttempted = true

/-- `run` returns, has answered every line and has released the connection. -/
def Handled (peer : Peer) (result : Except (Throwable × Connection) Connection) : Prop :=
  ∃ c, result = .ok c ∧ printed c = replies (linesRead peer) ∧ Released c

theorem printed_left (peer : Peer) : printed (left peer) = replies (linesRead peer) := by
  obtain ⟨inputStream,outputStream,incoming⟩ := peer
  cases inputStream with
  | ioException => rfl
  | returns =>
    cases outputStream with
    | ioException => rfl
    | returns => rfl

theorem released_left_iff (peer : Peer) : Released (left peer) ↔ Breaks peer := by
  constructor
  · intro h
    obtain ⟨socket,hsocket,hclose⟩ := h.socket
    cases hsocket
    exact of_decide_eq_true hclose
  · intro h
    have hclosed : decide (Breaks peer) = true := decide_eq_true h
    refine ⟨⟨_,rfl,hclosed⟩,?_,?_⟩
    · intro input hinput
      simp only [left] at hinput
      split at hinput
      · cases hinput
        exact hclosed
      · contradiction
    · intro out hout
      simp only [left] at hout
      split at hout
      · cases hout
        exact hclosed
      · contradiction

/-- The handler keeps its promise precisely to the peers that break the connection. -/
theorem handled_iff (outcomes : CloseOutcomes) (peer : Peer) :
    Handled peer (run outcomes (some ⟨peer,false⟩)) ↔ Breaks peer := by
  rw [run_eq,← released_left_iff]
  constructor
  · rintro ⟨c,hc,_,hreleased⟩
    cases hc
    exact hreleased
  · intro hreleased
    exact ⟨left peer,rfl,printed_left peer,hreleased⟩

/-- One query and the end of the stream: the reply is printed, nothing is closed. -/
theorem end_of_stream_leaks_connection :
    (∃ c, run ⟨.ok (),.ok (),.ok ()⟩ (some ⟨⟨.returns,.returns,
        .line "QUERY TIME ORDER" 7 .endOfStream⟩,false⟩) = .ok c ∧ printed c = ["7"] ∧
        c.input.map Closeable.closeAttempted = some false ∧
        c.out.map Closeable.closeAttempted = some false ∧
        c.socket.map Closeable.closeAttempted = some false) ∧
      ¬ Handled ⟨.returns,.returns,.line "QUERY TIME ORDER" 7 .endOfStream⟩
        (run ⟨.ok (),.ok (),.ok ()⟩ (some ⟨⟨.returns,.returns,
          .line "QUERY TIME ORDER" 7 .endOfStream⟩,false⟩)) := by
  refine ⟨⟨_,rfl,by decide,rfl,rfl,rfl⟩,?_⟩
  rintro ⟨c,hc,_,hreleased⟩
  cases hc
  obtain ⟨socket,hsocket,hclose⟩ := hreleased.socket
  cases hsocket
  contradiction

end SunshineService.BIOHandler
