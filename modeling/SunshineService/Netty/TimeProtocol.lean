import SunshineService.Netty.Stickyloss

/-! # Replies that are flushed when a read is complete

The server of the first time service only writes its replies to the buffer of the
channel and flushes them when the read is complete. Its client sends one command. Next
to the handlers that flush each reply at once nothing else is different, which is a
simulation in both directions.
-/
namespace SunshineService.NettyTimeProtocol
open TransitionRun Delivery ProcessUtils Utf8 Constant
open Stickyloss (command)

/-! ## The handlers -/

/-- `TimeClientHandler`: whether `channelActive` has run, and the bodies printed. -/
structure Client where
  active : Bool
  written : Bytes
  printed : List String
  deriving DecidableEq

/-- `TimeServerHandler`: `buffered` waits in the channel for the next flush. -/
structure Server where
  requests : List String
  replies : List String
  buffered : Bytes
  flushed : Bytes
  deriving DecidableEq

def Client.channelActive (c : Client) : Client :=
  { c with
    active := true
    written := c.written ++ encode queryTimeOrder }

def Client.channelRead (c : Client) (buf : Bytes) : Client :=
  { c with printed := c.printed ++ [decode buf] }

def Server.channelRead (s : Server) (buf : Bytes) (currentTimeMillis : Int64) : Server :=
  let body := decode buf
  let currTime := process body currentTimeMillis
  { s with
    requests := s.requests ++ [body]
    replies := s.replies ++ [currTime]
    buffered := s.buffered ++ encode currTime }

def Server.channelReadComplete (s : Server) : Server :=
  { s with
    buffered := []
    flushed := s.flushed ++ s.buffered }

/-! ## The system -/

structure System where
  client : Client
  server : Server
  serverRead : ℕ
  clientRead : ℕ
  deriving DecidableEq

def init : System := ⟨⟨false,[],[]⟩,⟨[],[],[],[]⟩,0,0⟩

inductive Event
  | channelActive
  | serverReceives (k : ℕ) (currentTimeMillis : Int64)
  | serverReadComplete
  | clientReceives (k : ℕ)

/-- The network carries what has been flushed. -/
def step (s : System) : Event → Option System
  | .channelActive => if s.client.active then none else some { s with client := s.client.channelActive }
  | .serverReceives k currentTimeMillis =>
    (segment s.client.written s.serverRead k).map (fun buf => { s with
      server := s.server.channelRead buf currentTimeMillis
      serverRead := s.serverRead + k })
  | .serverReadComplete => some { s with server := s.server.channelReadComplete }
  | .clientReceives k =>
    (segment s.server.flushed s.clientRead k).map (fun buf => { s with
      client := s.client.channelRead buf
      clientRead := s.clientRead + k })

/-! ## Flushed at once -/

/-- The same bytes and bodies; what is still buffered counts as written. -/
structure Flushes (s : System) (t : Stickyloss.System) : Prop where
  active : t.client.i = if s.client.active then 1 else 0
  client_written : t.client.written = s.client.written
  bodies : t.client.bodies = s.client.printed
  requests : t.server.requests = s.server.requests
  replies : t.server.replies = s.server.replies
  server_written : t.server.written = s.server.flushed ++ s.server.buffered
  serverRead : t.serverRead = s.serverRead
  clientRead : t.clientRead = s.clientRead

theorem flushes_init : Flushes init Stickyloss.init := ⟨rfl,rfl,rfl,rfl,rfl,rfl,rfl,rfl⟩

/-- A flush is not to be seen where each reply is flushed at once. -/
def forget : Event → Option Stickyloss.Event
  | .channelActive => some .command
  | .serverReceives k currentTimeMillis => some (.serverReceives k currentTimeMillis)
  | .serverReadComplete => none
  | .clientReceives k => some (.clientReceives k)

variable {s : System} {t : Stickyloss.System}

theorem Flushes.channelActive (h : Flushes s t) (hactive : s.client.active = false) :
    ∃ t', Stickyloss.step 1 t .command = some t' ∧
      Flushes { s with client := s.client.channelActive } t' := by
  have hi := h.active
  rw [hactive] at hi
  refine ⟨{ t with client := t.client.command },?_,?_⟩
  · simp only [Stickyloss.step,hi]
    rfl
  · exact { h with
      active := by
        simp only [Stickyloss.Client.command,hi]
        rfl
      client_written := by
        simp only [Stickyloss.Client.command,Client.channelActive,h.client_written]
      bodies := h.bodies }

theorem Flushes.serverReceives (h : Flushes s t) {k : ℕ} {buf : Bytes}
    (hbuf : segment s.client.written s.serverRead k = some buf) (now : Int64) :
    ∃ t', Stickyloss.step 1 t (.serverReceives k now) = some t' ∧ Flushes { s with
      server := s.server.channelRead buf now
      serverRead := s.serverRead + k } t' := by
  have hsame : segment t.client.written t.serverRead k = some buf := by
    rw [h.client_written,h.serverRead,hbuf]
  refine ⟨_,Option.map_eq_some_iff.mpr ⟨buf,hsame,rfl⟩,?_⟩
  exact { h with
    requests := congrArg (· ++ [decode buf]) h.requests
    replies := congrArg (· ++ [process (decode buf) now]) h.replies
    server_written := by
      simp only [Stickyloss.Server.channelRead,Server.channelRead,h.server_written,List.append_assoc]
    serverRead := congrArg (· + k) h.serverRead }

theorem Flushes.serverReadComplete (h : Flushes s t) :
    Flushes { s with server := s.server.channelReadComplete } t :=
  { h with server_written := by simpa [Server.channelReadComplete] using h.server_written }

theorem Flushes.clientReceives (h : Flushes s t) {k : ℕ} {buf : Bytes}
    (hbuf : segment s.server.flushed s.clientRead k = some buf) :
    ∃ t', Stickyloss.step 1 t (.clientReceives k) = some t' ∧ Flushes { s with
      client := s.client.channelRead buf
      clientRead := s.clientRead + k } t' := by
  have hsame : segment t.server.written t.clientRead k = some buf := by
    rw [h.server_written,h.clientRead]
    exact segment_append s.server.buffered hbuf
  refine ⟨_,Option.map_eq_some_iff.mpr ⟨buf,hsame,rfl⟩,?_⟩
  have hbodies : (t.client.channelRead buf).bodies = t.client.bodies ++ [decode buf] := by
    simp [Stickyloss.Client.channelRead,Stickyloss.Client.bodies]
  exact { h with
    bodies := by
      rw [hbodies,h.bodies]
      rfl
    clientRead := congrArg (· + k) h.clientRead }

theorem flushes_simulation : Simulation step (Stickyloss.step 1) forget Flushes := by
  intro s t e s' h hstep
  cases e with
  | channelActive =>
    simp only [step] at hstep
    split at hstep
    · contradiction
    · rename_i hactive
      cases hstep
      obtain ⟨t',ht',hflushes⟩ := h.channelActive (Bool.eq_false_iff.mpr hactive)
      exact ⟨t',by simp [forget,ht'],hflushes⟩
  | serverReceives k now =>
    obtain ⟨buf,hbuf,rfl⟩ := Option.map_eq_some_iff.mp hstep
    obtain ⟨t',ht',hflushes⟩ := h.serverReceives hbuf now
    exact ⟨t',by simp [forget,ht'],hflushes⟩
  | serverReadComplete =>
    cases hstep
    exact ⟨t,rfl,h.serverReadComplete⟩
  | clientReceives k =>
    obtain ⟨buf,hbuf,rfl⟩ := Option.map_eq_some_iff.mp hstep
    obtain ⟨t',ht',hflushes⟩ := h.clientReceives hbuf
    exact ⟨t',by simp [forget,ht'],hflushes⟩

/-! ## A flush behind each reply -/

/-- A reachable state with nothing buffered shows the same. -/
def Matched (t : Stickyloss.System) : Prop :=
  ∃ s, Reachable step init s ∧ Flushes s t ∧ s.server.buffered = []

theorem matched_of_follow {s' : System} {e : Event} {e' : Stickyloss.Event} {t' : Stickyloss.System}
    (hs : Reachable step init s) (hflushes : Flushes s t) (hstep : step s e = some s')
    (hforget : forget e = some e') (h : Stickyloss.step 1 t e' = some t') : Matched t' := by
  obtain ⟨u,hu,hnext⟩ := flushes_simulation.some_step hflushes hstep hforget
  obtain rfl := Option.some.inj (hu.symm.trans h)
  have hcomplete : step s' .serverReadComplete =
      some { s' with server := s'.server.channelReadComplete } := rfl
  exact ⟨_,(hs.tail hstep).tail hcomplete,hnext.serverReadComplete,rfl⟩

theorem matched_of_step (t : Stickyloss.System) (e : Stickyloss.Event) (t' : Stickyloss.System)
    (ht : Matched t) (h : Stickyloss.step 1 t e = some t') : Matched t' := by
  obtain ⟨s,hs,hflushes,hbuffered⟩ := ht
  cases e with
  | command =>
    have hactive : s.client.active = false := by
      by_contra hactive
      simp only [Stickyloss.step,hflushes.active,if_pos (Bool.not_eq_false _ ▸ hactive)] at h
      contradiction
    have hstep : step s .channelActive = some { s with client := s.client.channelActive } := by
      simp only [step,hactive]
      rfl
    exact matched_of_follow hs hflushes hstep rfl h
  | serverReceives k now =>
    obtain ⟨buf,hbuf,_⟩ := Option.map_eq_some_iff.mp h
    rw [hflushes.client_written,hflushes.serverRead] at hbuf
    exact matched_of_follow (e := .serverReceives k now) hs hflushes
      (Option.map_eq_some_iff.mpr ⟨buf,hbuf,rfl⟩) rfl h
  | clientReceives k =>
    obtain ⟨buf,hbuf,_⟩ := Option.map_eq_some_iff.mp h
    rw [hflushes.server_written,hflushes.clientRead,hbuffered,List.append_nil] at hbuf
    exact matched_of_follow (e := .clientReceives k) hs hflushes
      (Option.map_eq_some_iff.mpr ⟨buf,hbuf,rfl⟩) rfl h

/-- A client cannot tell when the server flushes: it prints the same sequences of bodies. -/
theorem printed_iff (bodies : List String) :
    (∃ s, Reachable step init s ∧ s.client.printed = bodies) ↔
      ∃ t, Reachable (Stickyloss.step 1) Stickyloss.init t ∧ t.client.bodies = bodies := by
  constructor
  · rintro ⟨s,hs,rfl⟩
    obtain ⟨t,ht,hflushes⟩ := flushes_simulation.reachable flushes_init hs
    exact ⟨t,ht,hflushes.bodies⟩
  · rintro ⟨t,ht,rfl⟩
    obtain ⟨s,hs,hflushes,_⟩ :=
      ht.invariant matched_of_step ⟨init,Reachable.refl init,flushes_init,rfl⟩
    exact ⟨s,hs,hflushes.bodies.symm⟩

/-! ## The time that the client prints -/

structure InOrder (s : System) : Prop where
  no_badOrder : badOrder ∉ s.server.replies
  printed : s.client.printed <+: s.server.replies

theorem Flushes.inOrder (h : Flushes s t) : InOrder s ↔ Stickyloss.InOrder t := by
  constructor
  · rintro ⟨hbad,hprinted⟩
    exact ⟨by rwa [h.replies],by rwa [h.replies,h.bodies]⟩
  · rintro ⟨hbad,hprinted⟩
    exact ⟨by rwa [← h.replies],by rwa [← h.replies,← h.bodies]⟩

/-- The segment is the whole command, or a whole reply. -/
def WholeMessage (s : System) : Event → Prop
  | .serverReceives k _ => k = queryTimeOrder.length
  | .clientReceives k => (s.server.replies[s.client.printed.length]?).map String.length = some k
  | _ => True

instance (s : System) (e : Event) : Decidable (WholeMessage s e) := by
  cases e <;> unfold WholeMessage <;> infer_instance

theorem Flushes.wholeMessage (h : Flushes s t) (e : Event) :
    WholeMessage s e ↔ ∀ e' ∈ forget e, Stickyloss.WholeMessage t e' := by
  cases e with
  | channelActive => simp [WholeMessage,forget,Stickyloss.WholeMessage]
  | serverReceives k now => simp [WholeMessage,forget,Stickyloss.WholeMessage]
  | serverReadComplete => simp [WholeMessage,forget]
  | clientReceives k =>
    simp only [WholeMessage,forget,Stickyloss.WholeMessage,Option.mem_some_iff,forall_eq',
      h.replies,h.bodies]

/-- The command has been sent, everything is flushed and nothing is in flight. -/
structure Delivered (s : System) : Prop where
  active : s.client.active = true
  serverRead : s.serverRead = s.client.written.length
  flushed : s.server.buffered = []
  clientRead : s.clientRead = s.server.flushed.length

theorem Flushes.delivered (h : Flushes s t) (hs : Delivered s) : Stickyloss.Delivered 1 t := by
  refine ⟨?_,?_,?_⟩
  · rw [h.active,if_pos hs.active]
    decide
  · rw [h.serverRead,h.client_written,hs.serverRead]
  · rw [h.clientRead,h.server_written,hs.flushed,List.append_nil,hs.clientRead]

/-- What the server's clock showed at each of its reads. -/
def readings (as : List Event) : List Int64 :=
  as.filterMap (fun e => match e with
    | .serverReceives _ now => some now
    | _ => none)

theorem readings_forget (as : List Event) : Stickyloss.readings (as.filterMap forget) = readings as := by
  rw [Stickyloss.readings,List.filterMap_filterMap,readings]
  apply List.filterMap_congr
  intro e _
  cases e <;> rfl

/-- The client prints the time, and never anything else, precisely when the command and
the reply each arrive in one segment, and it is the time of that read. -/
theorem prints_time_iff {as : List Event} (hr : run step init as = some s) :
    (Throughout step InOrder init as ↔ EachStep step WholeMessage init as) ∧
      (Throughout step InOrder init as → Delivered s →
        ∃ now, readings as = [now] ∧ s.client.printed = [valueOf now]) := by
  obtain ⟨t,hrun,hflushes⟩ := flushes_simulation.run flushes_init hr
  have hsafe := flushes_simulation.throughout_iff (fun _ _ h => Flushes.inOrder h) flushes_init hr
  have hwhole := flushes_simulation.eachStep_iff (fun _ _ e h => Flushes.wholeMessage h e)
    flushes_init hr
  rw [Stickyloss.throughout_inOrder_iff hrun] at hsafe
  refine ⟨by rw [hsafe,hwhole],?_⟩
  intro hall hdelivered
  have hcomplete := Stickyloss.complete_of_throughout hrun
    ((Stickyloss.throughout_inOrder_iff hrun).mpr (hsafe.mp hall)) (hflushes.delivered hdelivered)
  have htimes := hcomplete.times_eq
  have hone := hcomplete.length_eq
  rw [readings_forget,hflushes.bodies] at htimes
  rw [hflushes.bodies,htimes,List.length_map] at hone
  obtain ⟨now,hnow⟩ := List.length_eq_one_iff.mp hone
  exact ⟨now,hnow,by rw [htimes,hnow]; rfl⟩

set_option maxRecDepth 4000 in
/-- The reply is flushed by a second read that has nothing to read. -/
theorem prints_time_late : Throughout step InOrder init [.channelActive,.serverReadComplete,
    .serverReceives 16 12,.serverReadComplete,.clientReceives 2] :=
  ((prints_time_iff rfl).1).mpr (by decide)

end SunshineService.NettyTimeProtocol
