import SunshineService.Aio.ServerHandler
import SunshineService.Nio.ServerHandler

/-! # The service of one connection and its two servers

A script lists what arrives on an accepted connection, and the clock gives the time of
each call of `process`. Every write is accepted whole. The service answers each chunk
and hangs up at the end of the stream or at a failing read. The NIO server refines it
on every script; the AIO server is compared with the NIO server.
-/
namespace SunshineService.TimeService
open ProcessUtils Utf8 Constant

inductive Ending
  | endOfStream
  | readFails
  deriving DecidableEq

structure Script where
  chunks : List Chunk
  ending : Option Ending
  deriving DecidableEq

structure Outcome where
  replies : List String
  sent : Bytes
  closed : Bool
  deriving DecidableEq

variable (clock : ℕ → Int64)

/-- The answers to chunks when `k` calls of `process` came before. -/
def answers : ℕ → List Chunk → List String
  | _, [] => []
  | k, chunk :: chunks => process (decode chunk.bytes) (clock k) :: answers (k + 1) chunks

def serve (script : Script) : Outcome where
  replies := answers clock 0 script.chunks
  sent := (answers clock 0 script.chunks).flatMap encode
  closed := script.ending.isSome

/-! ## The NIO server on a script -/

inductive Inbound
  | data (chunk : Chunk)
  | ending (e : Ending)

def Script.events (script : Script) : List Inbound :=
  script.chunks.map .data ++ (script.ending.map Inbound.ending).toList

def serving (now : Int64) : Inbound → NIOServerHandler.Serving
  | .data chunk => ⟨now,.bytes chunk,.accepts (NIOServerHandler.replyLength chunk now)⟩
  | .ending .endOfStream => ⟨now,.endOfStream,.accepts 0⟩
  | .ending .readFails => ⟨now,.ioException,.accepts 0⟩

/-- The selector reports an event only for a registered channel. -/
def nioEvent (ch : NIOServerHandler.Channel) (e : Inbound) : NIOServerHandler.Channel :=
  if NIOServerHandler.registered ch.toSelectedChannel then
    NIOServerHandler.processClientKey ch (serving (clock ch.replies.length) e)
  else ch

def nioServe (script : Script) : Outcome :=
  let ch := script.events.foldl (nioEvent clock) ⟨⟨true,true⟩,[],[]⟩
  ⟨ch.replies,ch.written,!ch.isOpen⟩

theorem nioEvent_data (written : Bytes) (replies : List String) (chunk : Chunk) :
    nioEvent clock ⟨⟨true,true⟩,written,replies⟩ (.data chunk) =
      ⟨⟨true,true⟩,written ++ encode (process (decode chunk.bytes) (clock replies.length)),
        replies ++ [process (decode chunk.bytes) (clock replies.length)]⟩ :=
  NIOServerHandler.processClientKey_whole rfl _ chunk

theorem nioEvent_ending (written : Bytes) (replies : List String) (e : Ending) :
    nioEvent clock ⟨⟨true,true⟩,written,replies⟩ (.ending e) = ⟨⟨false,false⟩,written,replies⟩ := by
  have hcloses : (serving (clock replies.length) (.ending e)).Closes := by
    cases e with
    | endOfStream => exact Or.inr (Or.inl rfl)
    | readFails => exact Or.inl rfl
  exact NIOServerHandler.processClientKey_closes rfl hcloses

theorem nio_foldl_data (written : Bytes) (replies : List String) (chunks : List Chunk) :
    (chunks.map Inbound.data).foldl (nioEvent clock) ⟨⟨true,true⟩,written,replies⟩ =
      ⟨⟨true,true⟩,written ++ (answers clock replies.length chunks).flatMap encode,
        replies ++ answers clock replies.length chunks⟩ := by
  induction chunks generalizing written replies with
  | nil => simp [answers]
  | cons chunk chunks ih =>
    rw [List.map_cons,List.foldl_cons,nioEvent_data,ih]
    simp [answers]

/-- The NIO server refines the service. -/
theorem nioServe_eq (script : Script) : nioServe clock script = serve clock script := by
  obtain ⟨chunks,ending⟩ := script
  simp only [nioServe,Script.events,List.foldl_append,nio_foldl_data]
  cases ending with
  | none => rfl
  | some e =>
    simp only [Option.map_some,Option.toList_some,List.foldl_cons,List.foldl_nil,nioEvent_ending]
    rfl

/-! ## The AIO server on a script -/

def completion : Inbound → Completion
  | .data chunk => .received chunk.bytes
  | .ending .endOfStream => .endOfStream
  | .ending .readFails => .failed

def writeWhole (s : AIOServerHandler.Connection) : AIOServerHandler.Connection :=
  match s.outstanding with
  | .write src :: _ => (AIOServerHandler.step s (0,.accepted src.remaining,0)).getD s
  | _ => s

/-- Without an outstanding read the event stays in the socket. -/
def aioEvent (s : AIOServerHandler.Connection) (e : Inbound) : AIOServerHandler.Connection :=
  match s.outstanding with
  | .read _ :: _ =>
    ((AIOServerHandler.step s (0,completion e,clock s.replies.length)).map writeWhole).getD s
  | _ => s

def aioServe (script : Script) : Outcome :=
  let s := script.events.foldl (aioEvent clock) AIOServerHandler.accepted
  ⟨s.replies,s.channel.written,!s.channel.isOpen⟩

theorem aioEvent_idle {s : AIOServerHandler.Connection} (hs : s.outstanding = []) (e : Inbound) :
    aioEvent clock s e = s := by
  simp only [aioEvent,hs]

theorem aio_foldl_idle {s : AIOServerHandler.Connection} (hs : s.outstanding = [])
    (events : List Inbound) : events.foldl (aioEvent clock) s = s := by
  induction events with
  | nil => rfl
  | cons e events ih => rw [List.foldl_cons,aioEvent_idle clock hs,ih]

theorem writeWhole_replying (req currTime : String) (src : ByteBuffer) :
    writeWhole (AIOServerHandler.replying req currTime [] src) =
      AIOServerHandler.replied req currTime src.contents := by
  have hstep := AIOServerHandler.step_replying_whole req currTime [] src 0
  simp only [writeWhole,AIOServerHandler.replying] at hstep ⊢
  rw [hstep]
  rfl

theorem aioEvent_filled {e : Inbound} {dst : ByteBuffer}
    (hdst : Operation.complete (.read (.allocate readCapacity)) (completion e) = some (.filled dst)) :
    aioEvent clock AIOServerHandler.accepted e = AIOServerHandler.replied (decode dst.flip.contents)
      (process (decode dst.flip.contents) (clock 0))
      (encode (process (decode dst.flip.contents) (clock 0))) := by
  obtain ⟨src,hsrc,ht⟩ := AIOServerHandler.step_accepted_filled hdst (clock 0)
  rw [← hsrc,← writeWhole_replying]
  change ((AIOServerHandler.step AIOServerHandler.accepted (0,completion e,clock 0)).map
    writeWhole).getD _ = _
  rw [ht]
  rfl

theorem aioServe_data (chunk : Chunk) (chunks : List Chunk) (ending : Option Ending) :
    aioServe clock ⟨chunk :: chunks,ending⟩ = ⟨[process (decode chunk.bytes) (clock 0)],
      encode (process (decode chunk.bytes) (clock 0)),false⟩ := by
  obtain ⟨dst,hdst,hcontents⟩ := Operation.complete_received chunk.length_le
  have hevent := aioEvent_filled clock (e := .data chunk) hdst
  rw [hcontents] at hevent
  simp only [aioServe,Script.events,List.map_cons,List.cons_append,List.foldl_cons]
  rw [hevent,aio_foldl_idle clock rfl]
  simp only [AIOServerHandler.replied,Bool.not_true]

/-- The end of the stream is answered as an empty request. -/
theorem aioServe_endOfStream :
    aioServe clock ⟨[],some .endOfStream⟩ = ⟨[badOrder],encode badOrder,false⟩ := by
  have hevent := aioEvent_filled clock (e := .ending .endOfStream) rfl
  have hempty : process (decode (ByteBuffer.allocate readCapacity).flip.contents) (clock 0) = badOrder :=
    process_of_length_ne (by decide) _
  rw [hempty] at hevent
  simp only [aioServe,Script.events,List.map_nil,List.nil_append,Option.map_some,Option.toList_some,
    List.foldl_cons,List.foldl_nil]
  rw [hevent]
  rfl

theorem aioServe_readFails : aioServe clock ⟨[],some .readFails⟩ = ⟨[],[],true⟩ := rfl

theorem aioServe_nothing : aioServe clock ⟨[],none⟩ = ⟨[],[],false⟩ := rfl

/-! ## When the two servers agree -/

/-- At most one chunk and no ending, or only a failing read. -/
def Script.SingleEvent (script : Script) : Prop :=
  (script.ending = none ∧ script.chunks.length ≤ 1) ∨
    (script.ending = some .readFails ∧ script.chunks = [])

theorem servers_agree_iff (script : Script) :
    nioServe clock script = aioServe clock script ↔ script.SingleEvent := by
  obtain ⟨chunks,ending⟩ := script
  rw [nioServe_eq]
  cases chunks with
  | nil =>
    cases ending with
    | none => simp [Script.SingleEvent,aioServe_nothing,serve,answers]
    | some e =>
      cases e with
      | endOfStream => simp [Script.SingleEvent,aioServe_endOfStream,serve,answers]
      | readFails => simp [Script.SingleEvent,aioServe_readFails,serve,answers]
  | cons chunk chunks =>
    rw [aioServe_data]
    cases chunks with
    | nil =>
      cases ending with
      | none => simp [Script.SingleEvent,serve,answers]
      | some e => simp [Script.SingleEvent,serve,answers]
    | cons next chunks => simp [Script.SingleEvent,serve,answers]

/-- Two requests on one connection: the AIO server never reads the second. -/
theorem aio_ignores_second_request :
    let request : Chunk := ⟨encode queryTimeOrder,by decide,by decide⟩
    nioServe (fun k => if k = 0 then 7 else 8) ⟨[request,request],none⟩ =
        ⟨["7","8"],[0x37,0x38],false⟩ ∧
      aioServe (fun k => if k = 0 then 7 else 8) ⟨[request,request],none⟩ = ⟨["7"],[0x37],false⟩ ∧
      nioServe (fun k => if k = 0 then 7 else 8) ⟨[request,request],none⟩ ≠
        aioServe (fun k => if k = 0 then 7 else 8) ⟨[request,request],none⟩ := by
  intro request
  rw [nioServe_eq,aioServe_data]
  decide

end SunshineService.TimeService
