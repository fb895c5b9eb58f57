import SunshineService.Foundation.TransitionRun
import SunshineService.Netty.DelimiterDecoder

/-! # A client and a server behind their decoders

The server handles each body that its decoders hand to it and writes a reply, the client
may write any bytes and handles the bodies it gets. Both streams are reliable and are
delivered in segments of any size in any order of the steps. The handlers are parameters,
with what they print and write.
-/
namespace SunshineService.Netty
open TransitionRun Utf8

/-- A handler prints the bodies in their order. A server only adds to what it has written,
and a client that reads writes nothing. -/
structure Handlers (σ κ : Type) where
  serverInit : σ
  clientInit : κ
  serverRead : σ → String → σ
  clientRead : κ → String → κ
  writeAndFlush : κ → Bytes → κ
  serverWritten : σ → Bytes
  clientWritten : κ → Bytes
  serverPrinted : σ → List String
  clientPrinted : κ → List String
  clientInit_written : clientWritten clientInit = []
  serverInit_printed : serverPrinted serverInit = []
  clientInit_printed : clientPrinted clientInit = []
  serverRead_printed : ∀ s body, serverPrinted (serverRead s body) = serverPrinted s ++ [body]
  serverRead_written : ∀ s body, serverWritten s <+: serverWritten (serverRead s body)
  clientRead_printed : ∀ c body, clientPrinted (clientRead c body) = clientPrinted c ++ [body]
  clientRead_written : ∀ c body, clientWritten (clientRead c body) = clientWritten c
  write_printed : ∀ c bytes, clientPrinted (writeAndFlush c bytes) = clientPrinted c
  write_written : ∀ c bytes, clientWritten (writeAndFlush c bytes) = clientWritten c ++ bytes

/-- The bytes delivered to each side go with the state of its decoder. -/
structure Conversation (σ κ : Type) (serverDecoder clientDecoder : FrameDecoder) where
  client : κ
  server : σ
  serverState : serverDecoder.strings.State
  clientState : clientDecoder.strings.State
  serverReceived : Bytes
  clientReceived : Bytes

namespace Conversation

inductive Event
  | write (bytes : Bytes)
  | serverReceives (segment : Bytes)
  | clientReceives (segment : Bytes)

variable {σ κ : Type} {serverDecoder clientDecoder : FrameDecoder} (H : Handlers σ κ)

def init : Conversation σ κ serverDecoder clientDecoder where
  client := H.clientInit
  server := H.serverInit
  serverState := serverDecoder.strings.init
  clientState := clientDecoder.strings.init
  serverReceived := []
  clientReceived := []

def step (s : Conversation σ κ serverDecoder clientDecoder) :
    Event → Option (Conversation σ κ serverDecoder clientDecoder)
  | .write bytes => some { s with client := H.writeAndFlush s.client bytes }
  | .serverReceives segment =>
    if s.serverReceived ++ segment <+: H.clientWritten s.client then some { s with
      server := (serverDecoder.strings.feed s.serverState segment).2.foldl H.serverRead s.server
      serverState := (serverDecoder.strings.feed s.serverState segment).1
      serverReceived := s.serverReceived ++ segment }
    else none
  | .clientReceives segment =>
    if s.clientReceived ++ segment <+: H.serverWritten s.server then some { s with
      client := (clientDecoder.strings.feed s.clientState segment).2.foldl H.clientRead s.client
      clientState := (clientDecoder.strings.feed s.clientState segment).1
      clientReceived := s.clientReceived ++ segment }
    else none

/-- Nothing is in flight. -/
def Delivered (s : Conversation σ κ serverDecoder clientDecoder) : Prop :=
  s.serverReceived = H.clientWritten s.client ∧ s.clientReceived = H.serverWritten s.server

theorem serverReads (s : σ) (bodies : List String) :
    H.serverPrinted (bodies.foldl H.serverRead s) = H.serverPrinted s ++ bodies ∧
      H.serverWritten s <+: H.serverWritten (bodies.foldl H.serverRead s) := by
  induction bodies generalizing s with
  | nil => exact ⟨(List.append_nil _).symm,List.prefix_rfl⟩
  | cons body bodies ih =>
    obtain ⟨hprinted,hwritten⟩ := ih (H.serverRead s body)
    constructor
    · rw [List.foldl_cons,hprinted,H.serverRead_printed,List.append_assoc]
      rfl
    · exact (H.serverRead_written s body).trans hwritten

theorem clientReads (c : κ) (bodies : List String) :
    H.clientPrinted (bodies.foldl H.clientRead c) = H.clientPrinted c ++ bodies ∧
      H.clientWritten (bodies.foldl H.clientRead c) = H.clientWritten c := by
  induction bodies generalizing c with
  | nil => exact ⟨(List.append_nil _).symm,rfl⟩
  | cons body bodies ih =>
    obtain ⟨hprinted,hwritten⟩ := ih (H.clientRead c body)
    constructor
    · rw [List.foldl_cons,hprinted,H.clientRead_printed,List.append_assoc]
      rfl
    · rw [List.foldl_cons,hwritten,H.clientRead_written]

/-- What either side has printed is what its decoder made of the bytes delivered to it. -/
structure Good (s : Conversation σ κ serverDecoder clientDecoder) : Prop where
  serverFed : serverDecoder.strings.Fed s.serverReceived s.serverState (H.serverPrinted s.server)
  serverReceived : s.serverReceived <+: H.clientWritten s.client
  clientFed : clientDecoder.strings.Fed s.clientReceived s.clientState (H.clientPrinted s.client)
  clientReceived : s.clientReceived <+: H.serverWritten s.server

variable {H}

theorem good_init : Good H (init H : Conversation σ κ serverDecoder clientDecoder) where
  serverFed := by
    rw [init,H.serverInit_printed]
    exact serverDecoder.strings.fed_init
  serverReceived := List.nil_prefix
  clientFed := by
    rw [init,H.clientInit_printed]
    exact clientDecoder.strings.fed_init
  clientReceived := List.nil_prefix

variable {s t : Conversation σ κ serverDecoder clientDecoder}

theorem step_serverReceives {segment : Bytes} (h : step H s (.serverReceives segment) = some t) :
    s.serverReceived ++ segment <+: H.clientWritten s.client ∧ t = { s with
      server := (serverDecoder.strings.feed s.serverState segment).2.foldl H.serverRead s.server
      serverState := (serverDecoder.strings.feed s.serverState segment).1
      serverReceived := s.serverReceived ++ segment } := by
  simp only [step] at h
  split at h
  · cases h
    exact ⟨‹_›,rfl⟩
  · contradiction

theorem step_clientReceives {segment : Bytes} (h : step H s (.clientReceives segment) = some t) :
    s.clientReceived ++ segment <+: H.serverWritten s.server ∧ t = { s with
      client := (clientDecoder.strings.feed s.clientState segment).2.foldl H.clientRead s.client
      clientState := (clientDecoder.strings.feed s.clientState segment).1
      clientReceived := s.clientReceived ++ segment } := by
  simp only [step] at h
  split at h
  · cases h
    exact ⟨‹_›,rfl⟩
  · contradiction

theorem good_of_step (s : Conversation σ κ serverDecoder clientDecoder) (e : Event)
    (t : Conversation σ κ serverDecoder clientDecoder) (hs : Good H s) (h : step H s e = some t) :
    Good H t := by
  cases e with
  | write bytes =>
    cases h
    exact {
      serverFed := hs.serverFed
      serverReceived := by
        rw [H.write_written]
        exact hs.serverReceived.trans (List.prefix_append _ _)
      clientFed := by
        rw [H.write_printed]
        exact hs.clientFed
      clientReceived := hs.clientReceived }
  | serverReceives segment =>
    obtain ⟨hsegment,rfl⟩ := step_serverReceives h
    obtain ⟨hprinted,hwritten⟩ :=
      serverReads H s.server (serverDecoder.strings.feed s.serverState segment).2
    exact {
      serverFed := by
        rw [hprinted]
        exact hs.serverFed.feed segment
      serverReceived := hsegment
      clientFed := hs.clientFed
      clientReceived := hs.clientReceived.trans hwritten }
  | clientReceives segment =>
    obtain ⟨hsegment,rfl⟩ := step_clientReceives h
    obtain ⟨hprinted,hwritten⟩ :=
      clientReads H s.client (clientDecoder.strings.feed s.clientState segment).2
    exact {
      serverFed := hs.serverFed
      serverReceived := by
        rw [hwritten]
        exact hs.serverReceived
      clientFed := by
        rw [hprinted]
        exact hs.clientFed.feed segment
      clientReceived := hsegment }

theorem good_of_reachable (h : Reachable (step H) (init H) s) : Good H s :=
  h.invariant good_of_step good_init

theorem foldl_invariant {α : Type} {P : α → Prop} {f : α → String → α} (hf : ∀ a body, P a → P (f a body))
    {a : α} (ha : P a) (bodies : List String) : P (bodies.foldl f a) := by
  induction bodies generalizing a with
  | nil => exact ha
  | cons body bodies ih => exact ih (hf a body ha)

/-- What the server's handler preserves holds of it in every run. -/
theorem server_invariant {P : σ → Prop} (hread : ∀ s body, P s → P (H.serverRead s body))
    (hinit : P H.serverInit) (h : Reachable (step H) (init H) s) : P s.server := by
  refine h.invariant (P := fun s => P s.server) (fun s e t hs hstep => ?_) hinit
  cases e with
  | write bytes =>
    cases hstep
    exact hs
  | serverReceives segment =>
    obtain ⟨_,rfl⟩ := step_serverReceives hstep
    exact foldl_invariant hread hs _
  | clientReceives segment =>
    obtain ⟨_,rfl⟩ := step_clientReceives hstep
    exact hs

/-- What the client's handler and its writes preserve holds of it in every run. -/
theorem client_invariant {P : κ → Prop} (hread : ∀ c body, P c → P (H.clientRead c body))
    (hwrite : ∀ c bytes, P c → P (H.writeAndFlush c bytes)) (hinit : P H.clientInit)
    (h : Reachable (step H) (init H) s) : P s.client := by
  refine h.invariant (P := fun s => P s.client) (fun s e t hs hstep => ?_) hinit
  cases e with
  | write bytes =>
    cases hstep
    exact hwrite s.client bytes hs
  | serverReceives segment =>
    obtain ⟨_,rfl⟩ := step_serverReceives hstep
    exact hs
  | clientReceives segment =>
    obtain ⟨_,rfl⟩ := step_clientReceives hstep
    exact foldl_invariant hread hs _

end Conversation
end SunshineService.Netty
