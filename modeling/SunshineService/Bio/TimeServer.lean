import SunshineService.Foundation.TransitionRun
import SunshineService.Bio.BIOHandler

/-! # The blocking server with a thread for each client

`main` accepts a client, starts a thread for its handler and loops until an `accept`
fails. Each handler runs on its own and is the only one to close its socket.
-/
namespace SunshineService.TimeServer
open TransitionRun CloseUtils
open BIOHandler hiding run

/-- A started thread: its client, and the connection that `run` has left. -/
structure Handler where
  peer : Peer
  connection : Option Connection
  deriving DecidableEq

structure State where
  acceptor : Option ServerSocket
  accepting : Bool
  handlers : List Handler
  deriving DecidableEq

/-- The port is bound and the loop is about to accept. -/
def init : State := ⟨some ⟨true⟩,true,[]⟩

inductive Action
  | accept (peer : Peer)
  | acceptFails
  | handlerReturns (i : ℕ) (outcomes : CloseOutcomes)

def step (s : State) : Action → Option State
  | .accept peer =>
    if s.accepting then some { s with handlers := s.handlers ++ [⟨peer,none⟩] } else none
  | .acceptFails =>
    -- the catch block closes the acceptor, and so does the finally block
    if s.accepting then some { s with
      acceptor := closeServer (closeServer s.acceptor)
      accepting := false }
    else none
  | .handlerReturns i outcomes =>
    match s.handlers[i]? with
    | some ⟨peer,none⟩ =>
      match BIOHandler.run outcomes (some ⟨peer,false⟩) with
      | .ok c => some { s with handlers := s.handlers.set i ⟨peer,some c⟩ }
      | .error _ => none
    | _ => none

def accepted (as : List Action) : List Peer :=
  as.filterMap (fun a => match a with
    | .accept peer => some peer
    | _ => none)

/-- Nobody has called `close()` on the socket of the client. -/
def Handler.isOpen (h : Handler) : Bool :=
  match h.connection with
  | none => true
  | some c => c.socket.any (fun socket => !socket.closeAttempted)

def openSockets (s : State) : ℕ := s.handlers.countP Handler.isOpen

/-! ## What one step does to the handlers -/

theorem step_handlers {s t : State} {a : Action} (h : step s a = some t) :
    (∃ peer, a = .accept peer ∧ t.handlers = s.handlers ++ [⟨peer,none⟩]) ∨
      (a = .acceptFails ∧ t.handlers = s.handlers) ∨
      (∃ i outcomes peer, a = .handlerReturns i outcomes ∧ s.handlers[i]? = some ⟨peer,none⟩ ∧
        t.handlers = s.handlers.set i ⟨peer,some (left peer)⟩) := by
  cases a with
  | accept peer =>
    simp only [step] at h
    split at h
    · cases h
      exact Or.inl ⟨peer,rfl,rfl⟩
    · contradiction
  | acceptFails =>
    simp only [step] at h
    split at h
    · cases h
      exact Or.inr (Or.inl ⟨rfl,rfl⟩)
    · contradiction
  | handlerReturns i outcomes =>
    simp only [step,run_eq] at h
    split at h
    · rename_i peer hpeer
      cases h
      exact Or.inr (Or.inr ⟨i,outcomes,peer,rfl,hpeer,rfl⟩)
    · contradiction

/-- Each client keeps its handler, which leaves what `run` leaves. -/
def Settled (s : State) : Prop := ∀ h ∈ s.handlers, ∀ c, h.connection = some c → c = left h.peer

theorem settled_of_step (s : State) (a : Action) (t : State) (hs : Settled s)
    (h : step s a = some t) : Settled t := by
  intro handler hmem c hc
  rcases step_handlers h with ⟨peer,_,ht⟩ | ⟨_,ht⟩ | ⟨i,outcomes,peer,_,_,ht⟩
  · rw [ht] at hmem
    rcases List.mem_append.mp hmem with hold | hnew
    · exact hs handler hold c hc
    · obtain rfl := List.mem_singleton.mp hnew
      contradiction
  · rw [ht] at hmem
    exact hs handler hmem c hc
  · rw [ht] at hmem
    rcases List.mem_or_eq_of_mem_set hmem with hold | rfl
    · exact hs handler hold c hc
    · cases hc
      rfl

theorem map_set_of_eq {α β : Type*} (f : α → β) {l : List α} {i : ℕ} {x y : α}
    (hx : l[i]? = some x) (hf : f y = f x) : (l.set i y).map f = l.map f := by
  induction l generalizing i with
  | nil => rfl
  | cons z l ih =>
    cases i with
    | zero =>
      obtain rfl : z = x := by simpa using hx
      simp [hf]
    | succ i => simpa using ih (by simpa using hx)

theorem peers_of_run {s t : State} {as : List Action} (hr : run step s as = some t) :
    t.handlers.map Handler.peer = s.handlers.map Handler.peer ++ accepted as := by
  induction as generalizing s with
  | nil =>
    cases hr
    exact (List.append_nil _).symm
  | cons a as ih =>
    obtain ⟨u,hu,hr⟩ := Option.bind_eq_some_iff.mp hr
    rw [ih hr]
    rcases step_handlers hu with ⟨peer,rfl,ht⟩ | ⟨rfl,ht⟩ | ⟨i,outcomes,peer,rfl,hpeer,ht⟩
    · simp [ht,accepted]
    · simp [ht,accepted]
    · have hsame : (s.handlers.set i ⟨peer,some (left peer)⟩).map Handler.peer =
          s.handlers.map Handler.peer := map_set_of_eq Handler.peer hpeer rfl
      rw [ht,hsame]
      simp [accepted]

theorem handlers_of_run {as : List Action} {s : State} (hr : run step init as = some s) :
    Settled s ∧ s.handlers.map Handler.peer = accepted as := by
  have hpeers := peers_of_run hr
  simp only [init,List.map_nil,List.nil_append] at hpeers
  exact ⟨run_invariant settled_of_step (by simp [Settled,init]) hr,hpeers⟩

/-! ## Sockets that nobody closes -/

theorem isOpen_of_settled {h : Handler} (hs : ∀ c, h.connection = some c → c = left h.peer) :
    h.isOpen = (h.connection.isNone || decide (¬ Breaks h.peer)) := by
  unfold Handler.isOpen
  cases hc : h.connection with
  | none => rfl
  | some c =>
    rw [hs c hc]
    simp [left]

/-- Each client that ends its stream costs the server a socket for good. -/
theorem leaked_le_openSockets {as : List Action} {s : State} (hr : run step init as = some s) :
    (accepted as).countP (fun peer => decide (¬ Breaks peer)) ≤ openSockets s := by
  obtain ⟨hs,hpeers⟩ := handlers_of_run hr
  rw [← hpeers,List.countP_map,openSockets]
  apply List.countP_mono_left
  intro h hh hends
  rw [isOpen_of_settled (hs h hh),Bool.or_eq_true]
  exact Or.inr hends

theorem openSockets_eq_leaked {as : List Action} {s : State} (hr : run step init as = some s)
    (hdone : ∀ h ∈ s.handlers, h.connection.isSome) :
    openSockets s = (accepted as).countP (fun peer => decide (¬ Breaks peer)) := by
  obtain ⟨hs,hpeers⟩ := handlers_of_run hr
  rw [← hpeers,List.countP_map,openSockets]
  apply List.countP_congr
  intro h hh
  obtain ⟨c,hc⟩ := Option.isSome_iff_exists.mp (hdone h hh)
  rw [isOpen_of_settled (hs h hh),hc,Option.isNone_some,Bool.false_or,Function.comp_apply]

/-! ## The acceptor and the sockets over a whole run -/

/-- The acceptor is open exactly while the loop runs. -/
theorem acceptor_of_step (s : State) (a : Action) (t : State) (hs : s.acceptor = some ⟨s.accepting⟩)
    (h : step s a = some t) : t.acceptor = some ⟨t.accepting⟩ := by
  cases a with
  | accept peer =>
    obtain ⟨_,ht⟩ := Option.ite_none_right_eq_some.mp h
    cases ht
    exact hs
  | acceptFails =>
    obtain ⟨_,ht⟩ := Option.ite_none_right_eq_some.mp h
    cases ht
    rw [hs]
    rfl
  | handlerReturns i outcomes =>
    simp only [step,run_eq] at h
    split at h
    · cases h
      exact hs
    · contradiction

/-- The loop gives its acceptor back when it ends, the handlers give back the sockets of the
connections that broke and of no others. -/
theorem resources_of_run {as : List Action} {s : State} (hr : run step init as = some s) :
    s.acceptor = some ⟨s.accepting⟩ ∧
      (accepted as).countP (fun peer => decide (¬ Breaks peer)) ≤ openSockets s ∧
      ((∀ h ∈ s.handlers, h.connection.isSome) →
        openSockets s = (accepted as).countP (fun peer => decide (¬ Breaks peer))) :=
  ⟨run_invariant (P := fun s => s.acceptor = some ⟨s.accepting⟩) acceptor_of_step rfl hr,
    leaked_le_openSockets hr,openSockets_eq_leaked hr⟩

/-- Of two clients one ends its stream, the other one breaks. -/
theorem resources_two_clients :
    ∃ s, run step init [.accept ⟨.returns,.returns,.line "QUERY TIME ORDER" 7 .endOfStream⟩,
        .accept ⟨.returns,.returns,.ioException⟩,.handlerReturns 1 ⟨.error .ioException,.ok (),.ok ()⟩,
        .acceptFails,.handlerReturns 0 ⟨.ok (),.ok (),.ok ()⟩] = some s ∧
      s.acceptor = some ⟨s.accepting⟩ ∧ 1 ≤ openSockets s ∧
      ((∀ h ∈ s.handlers, h.connection.isSome) → openSockets s = 1) :=
  ⟨_,rfl,resources_of_run (show run step init
    [.accept ⟨.returns,.returns,.line "QUERY TIME ORDER" 7 .endOfStream⟩,
      .accept ⟨.returns,.returns,.ioException⟩,.handlerReturns 1 ⟨.error .ioException,.ok (),.ok ()⟩,
      .acceptFails,.handlerReturns 0 ⟨.ok (),.ok (),.ok ()⟩] = some _ from rfl)⟩

end SunshineService.TimeServer
