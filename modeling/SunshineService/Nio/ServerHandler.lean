import SunshineService.Foundation.TransitionRun
import SunshineService.Utils.CloseUtils

/-! # The selector loop of the NIO time server

One pass of the loop handles the ready keys in the order in which the iterator
returns them, and every JDK call takes its outcome from the pass. An exception
inside `processKey` carries the state at its throw to the one catch block, which
closes the key being handled, whether it belongs to a client or to the acceptor.
-/
namespace SunshineService.NIOServerHandler
open TransitionRun ProcessUtils Utf8
variable {ι : Type*} [DecidableEq ι]

structure Channel extends SelectedChannel where
  written : Bytes
  replies : List String
  deriving DecidableEq, Repr

/-- `channels c` is `none` until `accept` has returned the channel `c`. -/
structure State (ι : Type*) where
  acceptor : SelectedChannel
  channels : ι → Option Channel
  stop : Bool

def init : State ι := ⟨⟨true,true⟩,fun _ => none,false⟩

inductive AcceptOutcome (ι : Type*)
  | channel (c : ι) (configureBlocking register : Call)
  | null
  | ioException
  deriving DecidableEq

structure Serving where
  currentTimeMillis : Int64
  read : ReadOutcome
  write : WriteOutcome

inductive ReadyKey (ι : Type*)
  | acceptor (accept : AcceptOutcome ι)
  | client (c : ι) (serving : Serving)

inductive Pass (ι : Type*)
  | selectFails
  | ready (keys : List (ReadyKey ι))

/-! ## processKey -/

def readReady (ch : Channel) (o : Serving) : Except (Throwable × Channel) Channel :=
  match o.read with
  | .ioException => .error (.ioException,ch)
  | .zero => .ok ch
  | .endOfStream => .ok { ch with toSelectedChannel := CloseUtils.closeKey ch.toSelectedChannel }
  | .bytes chunk =>
    match receive chunk.bytes with
    | .error e => .error (e,ch)
    | .ok body =>
      let currTime := process body o.currentTimeMillis
      match doSend encode currTime o.write with
      | .error e => .error (e,ch)
      | .ok sent => .ok { ch with
          written := ch.written ++ sent.bytes
          replies := ch.replies ++ [currTime] }

/-- `isConnectable` and `isWritable` throw on a key that was just cancelled. -/
def testKey (ch : Channel) : Except (Throwable × Channel) Channel :=
  if ch.keyValid then .ok ch else .error (.cancelledKey,ch)

def processClientKey (ch : Channel) (o : Serving) : Channel :=
  if ch.keyValid then
    match (readReady ch o).bind testKey with
    | .ok ch => ch
    | .error (_,ch) => { ch with toSelectedChannel := CloseUtils.closeKey ch.toSelectedChannel }
  else ch

/-- The branch of `OP_ACCEPT`: an accepted channel is open before it is registered. -/
def acceptReady (s : State ι) : AcceptOutcome ι → Except (Throwable × State ι) (State ι)
  | .ioException => .error (.ioException,s)
  | .null => .error (.nullPointer,s)
  | .channel c configureBlocking register =>
    let accepted := { s with channels := Function.update s.channels c (some ⟨⟨true,false⟩,[],[]⟩) }
    match configureBlocking, register with
    | .ioException, _ => .error (.ioException,accepted)
    | .returns, .ioException => .error (.ioException,accepted)
    | .returns, .returns =>
      .ok { s with channels := Function.update s.channels c (some ⟨⟨true,true⟩,[],[]⟩) }

def processAcceptorKey (s : State ι) (o : AcceptOutcome ι) : State ι :=
  if s.acceptor.keyValid then
    match acceptReady s o with
    | .ok s => s
    | .error (_,s) => { s with acceptor := CloseUtils.closeKey s.acceptor }
  else s

def processKey (s : State ι) : ReadyKey ι → State ι
  | .acceptor o => processAcceptorKey s o
  | .client c o =>
    match s.channels c with
    | none => s
    | some ch => { s with channels := Function.update s.channels c (some (processClientKey ch o)) }

/-! ## run -/

/-- The channel behind a key; `none` is the acceptor. -/
def ReadyKey.channel : ReadyKey ι → Option ι
  | .acceptor _ => none
  | .client c _ => some c

def registered (ch : SelectedChannel) : Bool := ch.isOpen && ch.keyValid

/-- The selector returns keys of open registered channels, `accept` a new channel. -/
def State.selects (s : State ι) : ReadyKey ι → Bool
  | .acceptor (.channel c _ _) => registered s.acceptor && (s.channels c).isNone
  | .acceptor _ => registered s.acceptor
  | .client c _ => (s.channels c).any (fun ch => registered ch.toSelectedChannel)

def step (s : State ι) : Pass ι → Option (State ι)
  | .selectFails => if s.stop then none else some s
  | .ready keys =>
    if !s.stop && decide (keys.map ReadyKey.channel).Nodup && keys.all s.selects then
      some (keys.foldl processKey s)
    else none

theorem step_ready {s t : State ι} {keys : List (ReadyKey ι)} (h : step s (.ready keys) = some t) :
    s.stop = false ∧ (keys.map ReadyKey.channel).Nodup ∧ (∀ k ∈ keys, s.selects k = true) ∧
      t = keys.foldl processKey s := by
  simp only [step] at h
  split at h
  · rename_i hc
    simp only [Bool.and_eq_true,Bool.not_eq_true',decide_eq_true_eq,List.all_eq_true] at hc
    cases h
    exact ⟨hc.1.1,hc.1.2,hc.2,rfl⟩
  · contradiction

theorem step_client {s t : State ι} {c : ι} {o : Serving}
    (h : step s (.ready [.client c o]) = some t) :
    ∃ ch, s.channels c = some ch ∧ ch.isOpen = true ∧ ch.keyValid = true ∧
      t = { s with channels := Function.update s.channels c (some (processClientKey ch o)) } := by
  obtain ⟨_,_,hsel,rfl⟩ := step_ready h
  have hc := hsel _ List.mem_cons_self
  cases hch : s.channels c with
  | none => simp [State.selects,hch] at hc
  | some ch =>
    simp only [State.selects,hch,Option.any_some,registered,Bool.and_eq_true] at hc
    exact ⟨ch,rfl,hc.1,hc.2,by simp [processKey,hch]⟩

theorem step_accept {s t : State ι} {c : ι}
    (h : step s (.ready [.acceptor (.channel c .returns .returns)]) = some t) :
    s.channels c = none ∧
      t = { s with channels := Function.update s.channels c (some ⟨⟨true,true⟩,[],[]⟩) } := by
  obtain ⟨_,_,hsel,rfl⟩ := step_ready h
  have hc := hsel _ List.mem_cons_self
  simp only [State.selects,registered,Bool.and_eq_true,Option.isNone_iff_eq_none] at hc
  exact ⟨hc.2,by simp [processKey,processAcceptorKey,hc.1.2,acceptReady]⟩

/-! ## One client's key -/

def Serving.Closes (o : Serving) : Prop :=
  o.read = .ioException ∨ o.read = .endOfStream ∨
    ((∃ chunk, o.read = .bytes chunk) ∧ o.write = .ioException)

theorem processClientKey_bytes {ch : Channel} (hkey : ch.keyValid = true) (t : Int64)
    (chunk : Chunk) (n : ℕ) :
    processClientKey ch ⟨t,.bytes chunk,.accepts n⟩ = { ch with
      written := ch.written ++ (encode (process (decode chunk.bytes) t)).take n
      replies := ch.replies ++ [process (decode chunk.bytes) t] } := by
  simp only [processClientKey,hkey,↓reduceIte,readReady,chunk.receive_eq,doSend_accepts,
    Except.bind,testKey]

def replyLength (chunk : Chunk) (t : Int64) : ℕ := (encode (process (decode chunk.bytes) t)).length

theorem processClientKey_whole {ch : Channel} (hkey : ch.keyValid = true) (t : Int64) (chunk : Chunk) :
    processClientKey ch ⟨t,.bytes chunk,.accepts (replyLength chunk t)⟩ = { ch with
      written := ch.written ++ encode (process (decode chunk.bytes) t)
      replies := ch.replies ++ [process (decode chunk.bytes) t] } := by
  rw [processClientKey_bytes hkey,replyLength,List.take_length]

theorem processClientKey_zero {ch : Channel} (hkey : ch.keyValid = true) (t : Int64)
    (w : WriteOutcome) : processClientKey ch ⟨t,.zero,w⟩ = ch := by
  simp only [processClientKey,hkey,↓reduceIte,readReady,Except.bind,testKey]

/-- End of stream and exceptions close the channel, and nothing else changes. -/
theorem processClientKey_closes {ch : Channel} (hkey : ch.keyValid = true) {o : Serving}
    (h : o.Closes) : processClientKey ch o =
      { ch with toSelectedChannel := CloseUtils.closeKey ch.toSelectedChannel } := by
  rcases o with ⟨t,read,write⟩
  rcases h with h | h | ⟨⟨chunk,h⟩,hw⟩
  · dsimp only at h
    subst h
    simp only [processClientKey,hkey,↓reduceIte,readReady,Except.bind]
  · dsimp only at h
    subst h
    simp only [processClientKey,hkey,↓reduceIte,readReady,Except.bind,testKey,
      CloseUtils.closeKey_keyValid,Bool.false_eq_true]
    rfl
  · dsimp only at h hw
    subst h hw
    simp only [processClientKey,hkey,↓reduceIte,readReady,chunk.receive_eq,doSend_ioException,
      Except.bind]

theorem processClientKey_open_iff {ch : Channel} (hopen : ch.isOpen = true)
    (hkey : ch.keyValid = true) (o : Serving) :
    (processClientKey ch o).isOpen = true ↔ ¬ o.Closes := by
  by_cases h : o.Closes
  · rw [processClientKey_closes hkey h]
    simp [h]
  · rcases o with ⟨t,read,write⟩
    cases read with
    | ioException => exact absurd (Or.inl rfl) h
    | endOfStream => exact absurd (Or.inr (Or.inl rfl)) h
    | zero =>
      rw [processClientKey_zero hkey]
      simp [hopen,h]
    | bytes chunk =>
      cases write with
      | ioException => exact absurd (Or.inr (Or.inr ⟨⟨chunk,rfl⟩,rfl⟩)) h
      | accepts n =>
        rw [processClientKey_bytes hkey]
        simp [hopen,h]

/-! ## One pass -/

@[simp] theorem processKey_stop (s : State ι) (k : ReadyKey ι) : (processKey s k).stop = s.stop := by
  cases k with
  | acceptor o =>
    simp only [processKey,processAcceptorKey]
    cases s.acceptor.keyValid with
    | false => rfl
    | true =>
      cases o with
      | channel c configureBlocking register =>
        cases configureBlocking <;> cases register <;> rfl
      | null => rfl
      | ioException => rfl
  | client c o =>
    simp only [processKey]
    cases s.channels c <;> rfl

theorem foldl_stop (s : State ι) (keys : List (ReadyKey ι)) :
    (keys.foldl processKey s).stop = s.stop := by
  induction keys generalizing s with
  | nil => rfl
  | cons k keys ih => rw [List.foldl_cons,ih,processKey_stop]

theorem processKey_client_acceptor (s : State ι) (c : ι) (o : Serving) :
    (processKey s (.client c o)).acceptor = s.acceptor := by
  simp only [processKey]
  cases s.channels c <;> rfl

def AcceptOutcome.Succeeds (o : AcceptOutcome ι) : Prop := ∃ c, o = .channel c .returns .returns

def ReadyKey.AcceptSucceeds (k : ReadyKey ι) : Prop := ∀ o, k = .acceptor o → o.Succeeds

def Pass.AcceptsSucceed : Pass ι → Prop
  | .selectFails => True
  | .ready keys => ∀ k ∈ keys, k.AcceptSucceeds

theorem processAcceptorKey_succeeds {s : State ι} {o : AcceptOutcome ι} (h : o.Succeeds) :
    (processAcceptorKey s o).acceptor = s.acceptor := by
  obtain ⟨c,rfl⟩ := h
  unfold processAcceptorKey
  split <;> rfl

theorem processAcceptorKey_fails {s : State ι} {o : AcceptOutcome ι} (h : ¬ o.Succeeds)
    (hkey : s.acceptor.keyValid = true) :
    (processAcceptorKey s o).acceptor = CloseUtils.closeKey s.acceptor := by
  simp only [processAcceptorKey,hkey,↓reduceIte]
  cases o with
  | null => rfl
  | ioException => rfl
  | channel c configureBlocking register =>
    cases configureBlocking with
    | ioException => rfl
    | returns =>
      cases register with
      | ioException => rfl
      | returns => exact absurd ⟨c,rfl⟩ h

theorem foldl_acceptor_succeeds {s : State ι} {keys : List (ReadyKey ι)}
    (h : ∀ k ∈ keys, k.AcceptSucceeds) : (keys.foldl processKey s).acceptor = s.acceptor := by
  induction keys generalizing s with
  | nil => rfl
  | cons k keys ih =>
    have hstep : (processKey s k).acceptor = s.acceptor := by
      cases k with
      | acceptor o => exact processAcceptorKey_succeeds (h _ List.mem_cons_self o rfl)
      | client c o => exact processKey_client_acceptor s c o
    rw [List.foldl_cons,ih (fun k hk => h k (List.mem_cons_of_mem _ hk)),hstep]

theorem foldl_acceptor_cancelled {s : State ι} (keys : List (ReadyKey ι))
    (h : s.acceptor.keyValid = false) : (keys.foldl processKey s).acceptor = s.acceptor := by
  induction keys generalizing s with
  | nil => rfl
  | cons k keys ih =>
    have hstep : (processKey s k).acceptor = s.acceptor := by
      cases k with
      | acceptor o => simp [processKey,processAcceptorKey,h]
      | client c o => exact processKey_client_acceptor s c o
    rw [List.foldl_cons,ih (by rw [hstep,h]),hstep]

/-- One failing accept of a pass closes the acceptor. -/
theorem foldl_acceptor_fails {s : State ι} {keys : List (ReadyKey ι)}
    (hkey : s.acceptor.keyValid = true) (h : ¬ ∀ k ∈ keys, k.AcceptSucceeds) :
    (keys.foldl processKey s).acceptor = CloseUtils.closeKey s.acceptor := by
  induction keys generalizing s with
  | nil => exact absurd (by simp) h
  | cons k keys ih =>
    rw [List.foldl_cons]
    by_cases hk : k.AcceptSucceeds
    · have hstep : (processKey s k).acceptor = s.acceptor := by
        cases k with
        | acceptor o => exact processAcceptorKey_succeeds (hk o rfl)
        | client c o => exact processKey_client_acceptor s c o
      have hrest : ¬ ∀ k ∈ keys, k.AcceptSucceeds := by
        intro hr
        apply h
        intro k' hk'
        rcases List.mem_cons.mp hk' with rfl | hk'
        · exact hk
        · exact hr k' hk'
      rw [ih (by rw [hstep,hkey]) hrest,hstep]
    · cases k with
      | client c o => exact absurd (fun o ho => by contradiction) hk
      | acceptor o =>
        have ho : ¬ o.Succeeds := fun ho => hk (fun o' h' => by cases h'; exact ho)
        have hstep := processAcceptorKey_fails ho hkey
        rw [foldl_acceptor_cancelled keys (by rw [processKey,hstep]; rfl),processKey,hstep]

theorem processKey_channels_of_ne {s : State ι} {k : ReadyKey ι} {c : ι}
    (hk : k.channel ≠ some c) (hnew : ∀ b r, k ≠ .acceptor (.channel c b r)) :
    (processKey s k).channels c = s.channels c := by
  cases k with
  | client d o =>
    have hne : c ≠ d := fun h => hk (congrArg some h.symm)
    simp only [processKey]
    cases s.channels d with
    | none => rfl
    | some ch => exact Function.update_of_ne hne _ _
  | acceptor o =>
    simp only [processKey,processAcceptorKey]
    cases s.acceptor.keyValid with
    | false => rfl
    | true =>
      cases o with
      | null => rfl
      | ioException => rfl
      | channel d b r =>
        have hne : c ≠ d := fun h => hnew b r (by rw [h])
        cases b <;> cases r <;> exact Function.update_of_ne hne _ _

theorem foldl_channels_of_ne {s : State ι} {keys : List (ReadyKey ι)} {c : ι}
    (hk : ∀ k ∈ keys, k.channel ≠ some c) (hnew : ∀ k ∈ keys, ∀ b r, k ≠ .acceptor (.channel c b r)) :
    (keys.foldl processKey s).channels c = s.channels c := by
  induction keys generalizing s with
  | nil => rfl
  | cons k keys ih =>
    rw [List.foldl_cons,ih (fun k hk' => hk k (List.mem_cons_of_mem _ hk'))
      (fun k hk' => hnew k (List.mem_cons_of_mem _ hk')),
      processKey_channels_of_ne (hk k List.mem_cons_self) (hnew k List.mem_cons_self)]

/-- After a pass a client's channel is what its own key made of it. -/
theorem foldl_channels {s : State ι} {keys : List (ReadyKey ι)} {c : ι} {ch : Channel}
    (hch : s.channels c = some ch) (hnodup : (keys.map ReadyKey.channel).Nodup)
    (hsel : ∀ k ∈ keys, s.selects k = true) :
    (∃ o, .client c o ∈ keys ∧
      (keys.foldl processKey s).channels c = some (processClientKey ch o)) ∨
    ((∀ o, .client c o ∉ keys) ∧ (keys.foldl processKey s).channels c = some ch) := by
  have hnew : ∀ k ∈ keys, ∀ b r, k ≠ .acceptor (.channel c b r) := by
    rintro k hk b r rfl
    have h := hsel _ hk
    simp [State.selects,hch] at h
  by_cases hmem : ∃ o, .client c o ∈ keys
  · obtain ⟨o,ho⟩ := hmem
    obtain ⟨before,after,rfl⟩ := List.append_of_mem ho
    left
    refine ⟨o,ho,?_⟩
    rw [List.map_append,List.map_cons,List.nodup_append] at hnodup
    obtain ⟨_,hafter,hdisj⟩ := hnodup
    have hb : ∀ k ∈ before, k.channel ≠ some c := fun k hk =>
      hdisj _ (List.mem_map_of_mem hk) _ List.mem_cons_self
    have ha : ∀ k ∈ after, k.channel ≠ some c := by
      intro k hk h
      exact (List.nodup_cons.mp hafter).1 (List.mem_map.mpr ⟨k,hk,h⟩)
    rw [List.foldl_append,List.foldl_cons,foldl_channels_of_ne ha
      (fun k hk => hnew k (List.mem_append_right _ (List.mem_cons_of_mem _ hk)))]
    have hsame := foldl_channels_of_ne (s := s) hb
      (fun k hk => hnew k (List.mem_append_left _ hk))
    rw [hch] at hsame
    simp only [processKey,hsame]
    exact Function.update_self _ _ _
  · right
    refine ⟨fun o ho => hmem ⟨o,ho⟩,?_⟩
    rw [foldl_channels_of_ne _ hnew,hch]
    intro k hk h
    cases k with
    | acceptor o => exact absurd h (by simp [ReadyKey.channel])
    | client d o =>
      cases h
      exact hmem ⟨o,hk⟩

/-! ## Whole runs -/

def Listening (s : State ι) : Prop :=
  s.stop = false → s.acceptor.isOpen = true ∧ s.acceptor.keyValid = true

/-- A pass closes the channel of a client exactly when that client's own key ends in a close. -/
def Isolated (s : State ι) : Pass ι → Prop
  | .selectFails => True
  | .ready keys => ∀ c ch, s.channels c = some ch → ch.isOpen = true →
      ∃ ch', (keys.foldl processKey s).channels c = some ch' ∧
        (ch'.isOpen = true ↔ ∀ o, .client c o ∈ keys → ¬ o.Closes)

theorem isolated_of_step {s t : State ι} {pass : Pass ι} (h : step s pass = some t) :
    Isolated s pass := by
  cases pass with
  | selectFails => trivial
  | ready keys =>
    obtain ⟨_,hnodup,hsel,_⟩ := step_ready h
    intro c ch hch hopen
    rcases foldl_channels hch hnodup hsel with ⟨o,ho,hafter⟩ | ⟨hno,hafter⟩
    · have hkey : ch.keyValid = true := by
        have hs := hsel _ ho
        simp only [State.selects,hch,Option.any_some,registered,Bool.and_eq_true] at hs
        exact hs.2
      refine ⟨_,hafter,(processClientKey_open_iff hopen hkey o).trans ?_⟩
      constructor
      · intro hc o' ho'
        cases List.inj_on_of_nodup_map hnodup ho' ho rfl
        exact hc
      · intro hc
        exact hc o ho
    · exact ⟨ch,hafter,by simp [hopen,hno]⟩

def Healthy (s : State ι) : Prop := s.stop = false ∧ s.acceptor = ⟨true,true⟩

theorem healthy_of_step {s t : State ι} {pass : Pass ι} (hs : Healthy s)
    (h : step s pass = some t) (hpass : pass.AcceptsSucceed) : Healthy t := by
  cases pass with
  | selectFails =>
    simp only [step,hs.1,Bool.false_eq_true,↓reduceIte] at h
    cases h
    exact hs
  | ready keys =>
    obtain ⟨hstop,_,_,rfl⟩ := step_ready h
    exact ⟨(foldl_stop s keys).trans hstop,(foldl_acceptor_succeeds hpass).trans hs.2⟩

theorem not_listening_of_step {s t : State ι} {pass : Pass ι} (hs : Healthy s)
    (h : step s pass = some t) (hpass : ¬ pass.AcceptsSucceed) : ¬ Listening t := by
  cases pass with
  | selectFails => exact absurd trivial hpass
  | ready keys =>
    obtain ⟨hstop,_,_,rfl⟩ := step_ready h
    intro hl
    have hopen := (hl ((foldl_stop s keys).trans hstop)).1
    rw [foldl_acceptor_fails (by rw [hs.2]) hpass] at hopen
    contradiction

/-- The acceptor survives a run, and each client's trouble stays its own, exactly when
every `accept` of the run yields a channel that can be registered. -/
theorem listener_kept_iff {passes : List (Pass ι)} {s : State ι}
    (hr : run step init passes = some s) :
    (Throughout step Listening init passes ∧ EachStep step Isolated init passes) ↔
      ∀ pass ∈ passes, pass.AcceptsSucceed := by
  have hisolated : EachStep step Isolated init passes :=
    eachStep_of_step (fun _ _ _ h => isolated_of_step h) hr
  have hsafe : ∀ s : State ι, Healthy s → Listening s := by
    rintro s ⟨_,ha⟩ _
    simp [ha]
  have hlistening := throughout_iff_eachStep hsafe (fun _ _ _ => healthy_of_step)
    (fun _ _ _ => not_listening_of_step) ⟨rfl,rfl⟩ hr
  rw [hlistening,eachStep_action_iff hr]
  exact and_iff_left hisolated

theorem listener_kept_two_clients :
    Throughout step Listening init [
        .ready [.acceptor (.channel 0 .returns .returns)],
        .ready [.client 0 ⟨0,.zero,.accepts 0⟩,.acceptor (.channel 1 .returns .returns)],
        .ready [.client 1 ⟨0,.zero,.accepts 0⟩,.client 0 ⟨0,.ioException,.accepts 0⟩]] ∧
      EachStep step Isolated init [
        .ready [.acceptor (.channel 0 .returns .returns)],
        .ready [.client 0 ⟨0,.zero,.accepts 0⟩,.acceptor (.channel (1 : ℕ) .returns .returns)],
        .ready [.client 1 ⟨0,.zero,.accepts 0⟩,.client 0 ⟨0,.ioException,.accepts 0⟩]] :=
  (listener_kept_iff rfl).mpr (by
    simp [Pass.AcceptsSucceed,ReadyKey.AcceptSucceeds,AcceptOutcome.Succeeds])

/-- A pending connection that is gone when `accept` runs: the null result closes the acceptor. -/
theorem null_accept_closes_listener :
    ∃ s, run step (init : State ℕ) [.ready [.acceptor .null]] = some s ∧
      s.stop = false ∧ s.acceptor.isOpen = false ∧ ¬ Listening s := by
  refine ⟨_,rfl,rfl,rfl,?_⟩
  intro h
  exact absurd (h rfl).1 (by decide)

end SunshineService.NIOServerHandler
