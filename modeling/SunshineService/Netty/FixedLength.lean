import SunshineService.Foundation.Pieces
import SunshineService.Netty.Conversation

/-! # Requests of one length, replies in two frames

The server cuts what it receives into pieces of three bytes and answers each with a text
that holds the delimiter twice, so the client gets two frames for it, and more when the
request itself carries the delimiter. `FixedLengthFrameDecoder` is a parameter like the
other decoders.
-/
namespace SunshineService.Netty
open Pieces

/-- The documented property of `FixedLengthFrameDecoder(n)`. -/
def FrameDecoder.FixedLength (d : FrameDecoder) (n : ℕ) : Prop :=
  ∀ segments : List Utf8.Bytes, (d.feedAll segments).2 = pieces n segments.flatten

theorem FrameDecoder.FixedLength.out_eq {d : FrameDecoder} {n : ℕ} (hd : d.FixedLength n)
    {stream : Utf8.Bytes} {s : d.State} {out : List String} (h : d.strings.Fed stream s out) :
    out = (pieces n stream).map Utf8.decode := by
  obtain ⟨segments,rfl,hfeed⟩ := h
  rw [feedAll_strings,hd segments] at hfeed
  exact (congrArg Prod.snd hfeed).symm

/-- A decoder that keeps the incomplete piece. -/
def fixedLengthDecoder (n : ℕ) : FrameDecoder :=
  ⟨Utf8.Bytes,[],fun kept segment => (rest n (kept ++ segment),pieces n (kept ++ segment))⟩

theorem feedAll_fixedLengthDecoder (n : ℕ) (segments : List Utf8.Bytes) :
    (fixedLengthDecoder n).feedAll segments = (rest n segments.flatten,pieces n segments.flatten) := by
  induction segments using List.reverseRecOn with
  | nil => simp [FrameDecoder.feedAll,fixedLengthDecoder]
  | append_singleton segments segment ih =>
    have hflatten : (segments ++ [segment]).flatten = segments.flatten ++ segment := by simp
    rw [FrameDecoder.feedAll_append_singleton,ih,hflatten,rest_append,pieces_append]
    rfl

theorem fixedLengthDecoder_fixedLength (n : ℕ) : (fixedLengthDecoder n).FixedLength n :=
  fun segments => congrArg Prod.snd (feedAll_fixedLengthDecoder n segments)

end SunshineService.Netty

namespace SunshineService.FixedLength
open TransitionRun Framing Pieces Utf8 Netty

/-! ## The handlers -/

/-- `FixedLengthServerHandler`. -/
structure Server where
  printed : List String
  written : Bytes
  deriving DecidableEq

/-- `FixedLengthClientHandler`. -/
structure Client where
  written : Bytes
  printed : List String
  deriving DecidableEq

def Server.channelRead (s : Server) (msg : String) : Server where
  printed := s.printed ++ [msg]
  written := s.written ++ encode (msg ++ ",现在$_我要返回了!!!$_")

def Client.writeAndFlush (c : Client) (bytes : Bytes) : Client :=
  { c with written := c.written ++ bytes }

def Client.channelActive (c : Client) : Client := c.writeAndFlush (encode "123456$_")

def Client.channelRead (c : Client) (msg : String) : Client :=
  { c with printed := c.printed ++ [msg] }

/-! ## The system -/

def handlers : Handlers Server Client where
  serverInit := ⟨[],[]⟩
  clientInit := ⟨[],[]⟩
  serverRead := Server.channelRead
  clientRead := Client.channelRead
  writeAndFlush := Client.writeAndFlush
  serverWritten := Server.written
  clientWritten := Client.written
  serverPrinted := Server.printed
  clientPrinted := Client.printed
  clientInit_written := rfl
  serverInit_printed := rfl
  clientInit_printed := rfl
  serverRead_printed := fun _ _ => rfl
  serverRead_written := fun _ _ => List.prefix_append _ _
  clientRead_printed := fun _ _ => rfl
  clientRead_written := fun _ _ => rfl
  write_printed := fun _ _ => rfl
  write_written := fun _ _ => rfl

variable {serverDecoder clientDecoder : FrameDecoder}

abbrev System (serverDecoder clientDecoder : FrameDecoder) : Type :=
  Conversation Server Client serverDecoder clientDecoder

def init : System serverDecoder clientDecoder := Conversation.init handlers

def step : System serverDecoder clientDecoder → Conversation.Event →
    Option (System serverDecoder clientDecoder) := Conversation.step handlers

/-! ## The frames of a reply -/

def now : Bytes := encode ",现在"

def returning : Bytes := encode "我要返回了!!!"

/-- The reply to a message, with its two delimiters. -/
def reply (msg : String) : Bytes := encode msg ++ now ++ delimiter ++ (returning ++ delimiter)

theorem encode_reply (msg : String) : encode (msg ++ ",现在$_我要返回了!!!$_") = reply msg := by
  have htext : encode ",现在$_我要返回了!!!$_" = now ++ delimiter ++ (returning ++ delimiter) := by
    decide
  rw [encode_append,htext,reply]
  simp only [List.append_assoc]

/-- What the client gets for a message: the frames that the message itself carries, the
rest of it with the first part of the reply, and the second part. -/
def replyFrames (msg : String) : List Bytes :=
  frames delimiter (encode msg) ++ [tail delimiter (encode msg) ++ now,returning]

theorem fresh_now (bs : Bytes) : Fresh delimiter (tail delimiter bs ++ now) := by
  apply fresh_of_not_infix unbordered_delimiter
  have hlast : [(95 : UInt8)] <:+ delimiter := by decide
  exact not_infix_append hlast (clean_scan delimiter_ne_nil bs).tail_open (by decide)

theorem fresh_returning : Fresh delimiter returning :=
  fresh_of_not_infix unbordered_delimiter (by decide)

theorem scan_reply (msg : String) :
    frames delimiter (reply msg) = replyFrames msg ∧ tail delimiter (reply msg) = [] := by
  have hsplit : reply msg =
      encode msg ++ (now ++ delimiter ++ (returning ++ delimiter)) := by
    simp only [reply,List.append_assoc]
  have hrest : tail delimiter (encode msg) ++ (now ++ delimiter ++ (returning ++ delimiter)) =
      delimited delimiter [tail delimiter (encode msg) ++ now,returning] := by
    simp
  have hfresh : ∀ f ∈ [tail delimiter (encode msg) ++ now,returning], Fresh delimiter f := by
    simp only [List.forall_mem_cons]
    exact ⟨fresh_now _,fresh_returning,by simp⟩
  rw [hsplit,frames_append_tail delimiter_ne_nil,tail_append_tail delimiter_ne_nil,hrest,
    frames_delimited delimiter_ne_nil hfresh,tail_delimited delimiter_ne_nil hfresh]
  exact ⟨rfl,rfl⟩

def replies (msgs : List String) : Bytes := msgs.flatMap reply

theorem scan_replies (msgs : List String) :
    frames delimiter (replies msgs) = msgs.flatMap replyFrames ∧ tail delimiter (replies msgs) = [] := by
  induction msgs with
  | nil => exact ⟨rfl,rfl⟩
  | cons msg msgs ih =>
    obtain ⟨hframes,htail⟩ := scan_reply msg
    rw [replies,List.flatMap_cons,frames_append_tail delimiter_ne_nil,
      tail_append_tail delimiter_ne_nil,hframes,htail,List.nil_append]
    exact ⟨congrArg _ ih.1,ih.2⟩

/-- Each reply to a piece of three bytes leaves room in the decoder of the client. -/
theorem replyFrames_length {msg : String} (hmsg : (encode msg).length ≤ 9) {f : Bytes}
    (hf : f ∈ replyFrames msg) : f.length < maxLength := by
  have hmax : maxLength = 1024 := rfl
  have hsplit := congrArg List.length (delimited_frames_append_tail delimiter (encode msg))
  rw [List.length_append] at hsplit
  rcases List.mem_append.mp hf with hown | hrest
  · have hin := length_le_delimited delimiter hown
    omega
  · have hnow : now.length = 7 := by decide
    have hreturning : returning.length = 18 := by decide
    simp only [List.mem_cons,List.not_mem_nil,or_false] at hrest
    rcases hrest with rfl | rfl
    · rw [List.length_append]
      omega
    · omega

/-! ## The invariant -/

theorem written_eq {s : System serverDecoder clientDecoder} (h : Reachable step init s) :
    s.server.written = replies s.server.printed := by
  refine Conversation.server_invariant (H := handlers)
    (P := fun s => s.written = replies s.printed) (fun s msg hs => ?_) rfl h
  change s.written ++ encode (msg ++ ",现在$_我要返回了!!!$_") = replies (s.printed ++ [msg])
  rw [hs,encode_reply,replies,replies,List.flatMap_append,List.flatMap_singleton]

/-! ## Requests and what comes back for them -/

/-- Nothing is in flight. -/
def Delivered (s : System serverDecoder clientDecoder) : Prop := Conversation.Delivered handlers s

/-- The texts that the client prints for a message. -/
def shown (msg : String) : List String := (replyFrames msg).map decode

/-- Each complete piece is answered once, in order, and a rest of fewer than three bytes
is not answered. -/
structure Exchanged (s : System serverDecoder clientDecoder) : Prop where
  handled : s.server.printed = (pieces 3 s.serverReceived).map decode
  printed : s.client.printed <+: s.server.printed.flatMap shown
  delivered : Delivered s →
    s.client.printed = ((pieces 3 s.client.written).map decode).flatMap shown
  plain : ∀ msg ∈ s.server.printed, ¬ delimiter <:+: encode msg →
    shown msg = [msg ++ ",现在","我要返回了!!!"]

theorem shown_of_plain {msg : String} (h : ¬ delimiter <:+: encode msg) :
    shown msg = [msg ++ ",现在","我要返回了!!!"] := by
  have hframes := frames_eq_nil h
  have hsplit := delimited_frames_append_tail delimiter (encode msg)
  rw [hframes,delimited_nil,List.nil_append] at hsplit
  rw [shown,replyFrames,hframes,hsplit,now,← encode_append,returning]
  simp

theorem fits_replies {msgs : List String} (h : ∀ msg ∈ msgs, (encode msg).length ≤ 9) :
    Fits (replies msgs) := by
  obtain ⟨hframes,htail⟩ := scan_replies msgs
  refine ⟨?_,?_⟩
  · intro f hf
    rw [hframes] at hf
    obtain ⟨msg,hmsg,hf⟩ := List.mem_flatMap.mp hf
    exact replyFrames_length (h msg hmsg) hf
  · rw [htail]
    exact Nat.zero_le _

theorem length_message_le {stream : Bytes} {msg : String} (h : msg ∈ (pieces 3 stream).map decode) :
    (encode msg).length ≤ 9 := by
  obtain ⟨f,hf,rfl⟩ := List.mem_map.mp h
  have hlength := length_of_mem_pieces hf
  have hle := length_encode_decode_le f
  omega

theorem flatMap_shown (msgs : List String) :
    msgs.flatMap shown = (frames delimiter (replies msgs)).map decode := by
  rw [(scan_replies msgs).1,List.map_flatMap]
  rfl

variable {s : System serverDecoder clientDecoder}

/-- Whatever the client writes, however it is cut, each whole piece of three bytes comes
back as its frames, once and in order. -/
theorem exchanged_of_reachable (hserver : serverDecoder.FixedLength 3)
    (hclient : clientDecoder.DelimiterBased) (h : Reachable step init s) : Exchanged s := by
  have hs := Conversation.good_of_reachable (H := handlers) h
  have hwritten := written_eq h
  have hhandled : s.server.printed = (pieces 3 s.serverReceived).map decode := hserver.out_eq hs.serverFed
  have hback : s.clientReceived <+: s.server.written := hs.clientReceived
  have hfits : Fits s.server.written := by
    rw [hwritten]
    refine fits_replies (fun msg hmsg => ?_)
    rw [hhandled] at hmsg
    exact length_message_le hmsg
  have hprinted : s.client.printed = (frames delimiter s.clientReceived).map decode :=
    hclient.out_eq hs.clientFed (hfits.of_prefix hback)
  refine ⟨hhandled,?_,?_,fun msg _ => shown_of_plain⟩
  · rw [hprinted,flatMap_shown,← hwritten]
    exact (frames_mono hback).map decode
  · rintro ⟨hserverAll,hclientAll⟩
    have hserverAll : s.serverReceived = s.client.written := hserverAll
    have hclientAll : s.clientReceived = s.server.written := hclientAll
    rw [hprinted,hclientAll,hwritten,← flatMap_shown,hhandled,hserverAll]

/-- A request with the delimiter in it, cut off in the third piece. -/
theorem exchanged_delimiter_in_request :
    ∃ s, run step (init : System (fixedLengthDecoder 3) delimiterDecoder) [.write (encode "1$_23"),
        .serverReceives (encode "1$"),.serverReceives (encode "_2"),
        .clientReceives (encode "1$_,")] = some s ∧
      s.server.printed = ["1$_"] ∧ s.client.printed = ["1"] ∧ Exchanged s :=
  ⟨_,rfl,by decide,by decide,exchanged_of_reachable (fixedLengthDecoder_fixedLength 3)
    delimiterDecoder_delimiterBased ⟨[.write (encode "1$_23"),.serverReceives (encode "1$"),
      .serverReceives (encode "_2"),.clientReceives (encode "1$_,")],rfl⟩⟩

/-- What the client writes when it is active ends in two bytes that are never answered. -/
example : (pieces 3 (Client.channelActive ⟨[],[]⟩).written).map decode = ["123","456"] := by decide

end SunshineService.FixedLength
