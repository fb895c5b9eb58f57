import SunshineService.Netty.Conversation

/-! # The echo of delimited frames

The server writes each body that its decoders hand to it back with the delimiter behind
it, the client prints and counts the bodies it gets. A peer may write any bytes, the
demo client writes one greeting a hundred times.
-/
namespace SunshineService.Delimiter
open TransitionRun Framing Utf8 Netty

/-! ## The handlers -/

/-- `DelimiterServerHandler`: the bodies printed with the counter at their time. -/
structure Server where
  recCounter : Int32
  printed : List (String × Int32)
  written : Bytes
  deriving DecidableEq

/-- `DelimiterClientHandler`. -/
structure Client where
  written : Bytes
  ackCount : Int32
  printed : List (String × Int32)
  deriving DecidableEq

def Server.channelRead (s : Server) (body : String) : Server where
  recCounter := s.recCounter + 1
  printed := s.printed ++ [(body,s.recCounter + 1)]
  written := s.written ++ encode (body ++ "$_")

def Client.writeAndFlush (c : Client) (bytes : Bytes) : Client :=
  { c with written := c.written ++ bytes }

def Client.channelActive (c : Client) : Client :=
  (List.range 100).foldl (fun c _ => c.writeAndFlush (encode "HI,我是杨朝旭.$_")) c

def Client.channelRead (c : Client) (body : String) : Client :=
  { c with
    ackCount := c.ackCount + 1
    printed := c.printed ++ [(body,c.ackCount + 1)] }

/-! ## The system -/

theorem printed_concat {bodies : List (String × Int32)} (body : String) (count : Int32) :
    (bodies ++ [(body,count)]).map Prod.fst = bodies.map Prod.fst ++ [body] := by simp

def handlers : Handlers Server Client where
  serverInit := ⟨0,[],[]⟩
  clientInit := ⟨[],0,[]⟩
  serverRead := Server.channelRead
  clientRead := Client.channelRead
  writeAndFlush := Client.writeAndFlush
  serverWritten := Server.written
  clientWritten := Client.written
  serverPrinted := fun s => s.printed.map Prod.fst
  clientPrinted := fun c => c.printed.map Prod.fst
  clientInit_written := rfl
  serverInit_printed := rfl
  clientInit_printed := rfl
  serverRead_printed := fun _ body => printed_concat body _
  serverRead_written := fun _ _ => List.prefix_append _ _
  clientRead_printed := fun _ body => printed_concat body _
  clientRead_written := fun _ _ => rfl
  write_printed := fun _ _ => rfl
  write_written := fun _ _ => rfl

variable {serverDecoder clientDecoder : FrameDecoder}

abbrev System (serverDecoder clientDecoder : FrameDecoder) : Type :=
  Conversation Server Client serverDecoder clientDecoder

def init : System serverDecoder clientDecoder := Conversation.init handlers

def step : System serverDecoder clientDecoder → Conversation.Event →
    Option (System serverDecoder clientDecoder) := Conversation.step handlers

/-! ## The invariant -/

theorem encode_body (body : String) : encode (body ++ "$_") = encode body ++ delimiter :=
  encode_append body "$_"

/-- The echo goes with the bodies printed, and the counter wraps with their number. -/
structure Good (s : System serverDecoder clientDecoder) : Prop extends Conversation.Good handlers s where
  echo : s.server.written = delimited delimiter ((s.server.printed.map Prod.fst).map encode)
  ackCount : s.client.ackCount = Int32.ofNat s.client.printed.length

theorem echo_channelRead {s : Server}
    (h : s.written = delimited delimiter ((s.printed.map Prod.fst).map encode)) (body : String) :
    (s.channelRead body).written =
      delimited delimiter (((s.channelRead body).printed.map Prod.fst).map encode) := by
  change s.written ++ encode (body ++ "$_") = _
  rw [h,encode_body,Server.channelRead,printed_concat,List.map_append,delimited_append]
  simp

theorem ackCount_channelRead {c : Client} (h : c.ackCount = Int32.ofNat c.printed.length) (body : String) :
    (c.channelRead body).ackCount = Int32.ofNat (c.channelRead body).printed.length := by
  simp only [Client.channelRead,List.length_append,List.length_singleton,Int32.ofNat_add,h]
  rfl

theorem good_of_reachable {s : System serverDecoder clientDecoder} (h : Reachable step init s) : Good s where
  toGood := Conversation.good_of_reachable (H := handlers) h
  echo := Conversation.server_invariant (H := handlers)
    (P := fun s => s.written = delimited delimiter ((s.printed.map Prod.fst).map encode))
    (fun _ body hs => echo_channelRead hs body) rfl h
  ackCount := Conversation.client_invariant (H := handlers)
    (P := fun c => c.ackCount = Int32.ofNat c.printed.length)
    (fun _ body hc => ackCount_channelRead hc body) (fun _ _ hc => hc) rfl h

/-! ## The echo is the identity on complete frames -/

/-- Stretches of at most 1023 bytes, the complete ones well-formed text. -/
structure Admissible (stream : Bytes) : Prop where
  frames_length : ∀ f ∈ frames delimiter stream, f.length ≤ 1023
  tail_length : (tail delimiter stream).length ≤ 1023
  valid : ∀ f ∈ frames delimiter stream, Valid f

instance (stream : Bytes) : Decidable (Admissible stream) :=
  decidable_of_iff ((∀ f ∈ frames delimiter stream, f.length ≤ 1023) ∧
    (tail delimiter stream).length ≤ 1023 ∧ ∀ f ∈ frames delimiter stream, Valid f)
    ⟨fun h => ⟨h.1,h.2.1,h.2.2⟩,fun h => ⟨h.frames_length,h.tail_length,h.valid⟩⟩

theorem Admissible.fits {stream : Bytes} (h : Admissible stream) : Fits stream := by
  have hmax : maxLength = 1024 := rfl
  refine ⟨?_,?_⟩
  · intro f hf
    have hlength := h.frames_length f hf
    omega
  · have hlength := h.tail_length
    omega

theorem encode_decode_frames {stream p : Bytes} (h : Admissible stream) (hp : p <+: stream) :
    ((frames delimiter p).map decode).map encode = frames delimiter p := by
  rw [List.map_map]
  refine (List.map_congr_left ?_).trans (List.map_id _)
  intro f hf
  exact valid_iff.mp (h.valid f ((frames_mono hp).subset hf))

/-- The frames the client has got, as bytes. -/
def Client.obtained (c : Client) : List Bytes := (c.printed.map Prod.fst).map encode

/-- Nothing is in flight. -/
def Delivered (s : System serverDecoder clientDecoder) : Prop := Conversation.Delivered handlers s

structure Echoed (s : System serverDecoder clientDecoder) : Prop where
  written : LongestEnding delimiter s.serverReceived s.server.written
  obtained : s.client.obtained <+: frames delimiter s.client.written
  delivered : Delivered s → s.client.obtained = frames delimiter s.client.written
  sent : ∀ fs rest, (∀ f ∈ fs, ¬ delimiter <:+: f) → ¬ delimiter <:+: rest →
    s.client.written = delimited delimiter fs ++ rest → frames delimiter s.client.written = fs

variable {s : System serverDecoder clientDecoder} {stream : Bytes}

theorem Good.written_eq (hs : Good s) (hserver : serverDecoder.DelimiterBased)
    (hstream : Admissible stream) (hp : s.serverReceived <+: stream) :
    s.server.written = delimited delimiter (frames delimiter s.serverReceived) := by
  have hprinted : s.server.printed.map Prod.fst = (frames delimiter s.serverReceived).map decode :=
    hserver.out_eq hs.serverFed (hstream.fits.of_prefix hp)
  rw [hs.echo,hprinted,encode_decode_frames hstream hp]

theorem Good.obtained_eq (hs : Good s) (hclient : clientDecoder.DelimiterBased)
    (hstream : Admissible stream) (hp : s.clientReceived <+: stream) :
    s.client.obtained = frames delimiter s.clientReceived := by
  have hprinted : s.client.printed.map Prod.fst = (frames delimiter s.clientReceived).map decode :=
    hclient.out_eq hs.clientFed (hstream.fits.of_prefix hp)
  rw [Client.obtained,hprinted,encode_decode_frames hstream hp]

theorem Good.echoed (hs : Good s) (hserver : serverDecoder.DelimiterBased)
    (hclient : clientDecoder.DelimiterBased) (hstream : Admissible stream)
    (hp : s.serverReceived <+: stream) : Echoed s := by
  have hwritten := hs.written_eq hserver hstream hp
  have hlongest := longestEnding_frames delimiter_ne_nil unbordered_delimiter s.serverReceived
  rw [← hwritten] at hlongest
  -- the client reads a prefix of what the server has read
  have hreceived : s.clientReceived <+: s.serverReceived :=
    hs.clientReceived.trans hlongest.prefix_of
  have hobtained := hs.obtained_eq hclient hstream (hreceived.trans hp)
  refine ⟨hlongest,?_,?_,?_⟩
  · rw [hobtained]
    exact frames_mono (hreceived.trans hs.serverReceived)
  · rintro ⟨hserverAll,hclientAll⟩
    have hserverAll : s.serverReceived = s.client.written := hserverAll
    have hclientAll : s.clientReceived = s.server.written := hclientAll
    rw [hobtained,hclientAll,hwritten,frames_delimited_frames delimiter_ne_nil,hserverAll]
  · intro fs rest hfs hrest hsent
    rw [hsent]
    exact frames_delimited_append delimiter_ne_nil unbordered_delimiter hfs hrest

theorem echoed_of_reachable (hserver : serverDecoder.DelimiterBased)
    (hclient : clientDecoder.DelimiterBased) (h : Reachable step init s)
    (hstream : Admissible stream) (hp : s.serverReceived <+: stream) : Echoed s :=
  (good_of_reachable h).echoed hserver hclient hstream hp

/-- Two segments end between `$` and `_`, one frame is empty, one ends in `$` and one
begins with `_`. -/
theorem echoed_cut_delimiters :
    ∃ s, run step (init : System delimiterDecoder delimiterDecoder) [.write (encode "a$$_$_"),
        .serverReceives (encode "a$$"),.serverReceives (encode "_$"),.clientReceives (encode "a$$"),
        .write (encode "_b$_c"),.serverReceives (encode "__b$_c"),
        .clientReceives (encode "_$__b")] = some s ∧
      s.server.written = encode "a$$_$__b$_" ∧ s.client.printed = [("a$",1),("",2)] ∧ Echoed s :=
  ⟨_,rfl,by decide,by decide,echoed_of_reachable delimiterDecoder_delimiterBased delimiterDecoder_delimiterBased
    ⟨[.write (encode "a$$_$_"),.serverReceives (encode "a$$"),.serverReceives (encode "_$"),
      .clientReceives (encode "a$$"),.write (encode "_b$_c"),.serverReceives (encode "__b$_c"),
      .clientReceives (encode "_$__b")],rfl⟩
    (show Admissible (encode "a$$_$__b$_c") by decide) (by decide)⟩

/-! ## Clients that send text -/

/-- A frame that comes back as it was sent. -/
structure Sendable (f : Bytes) : Prop where
  delimiter_free : ¬ delimiter <:+: f
  length_le : f.length ≤ 1023
  valid : Valid f

theorem admissible_delimited {fs : List Bytes} (hfs : ∀ f ∈ fs, Sendable f) :
    Admissible (delimited delimiter fs) := by
  have hfresh : ∀ f ∈ fs, Fresh delimiter f :=
    fun f hf => fresh_of_not_infix unbordered_delimiter (hfs f hf).delimiter_free
  constructor
  · rw [frames_delimited delimiter_ne_nil hfresh]
    exact fun f hf => (hfs f hf).length_le
  · rw [tail_delimited delimiter_ne_nil hfresh]
    exact Nat.zero_le _
  · rw [frames_delimited delimiter_ne_nil hfresh]
    exact fun f hf => (hfs f hf).valid

/-- The client gets its frames back and in the end has counted all of them. -/
theorem Good.frames_back (hs : Good s) (hserver : serverDecoder.DelimiterBased)
    (hclient : clientDecoder.DelimiterBased) {fs : List Bytes} (hfs : ∀ f ∈ fs, Sendable f)
    (hsent : s.client.written = delimited delimiter fs) :
    s.client.obtained <+: fs ∧
      (Delivered s → s.client.obtained = fs ∧ s.client.ackCount = Int32.ofNat fs.length) := by
  have hp : s.serverReceived <+: s.client.written := hs.serverReceived
  rw [hsent] at hp
  have hechoed := hs.echoed hserver hclient (admissible_delimited hfs) hp
  have hframes : frames delimiter s.client.written = fs :=
    hechoed.sent fs [] (fun f hf => (hfs f hf).delimiter_free) (by decide) (by simpa using hsent)
  refine ⟨hframes ▸ hechoed.obtained,?_⟩
  intro hdelivered
  have hall := (hechoed.delivered hdelivered).trans hframes
  have hcount := congrArg List.length hall
  simp only [Client.obtained,List.length_map] at hcount
  exact ⟨hall,by rw [hs.ackCount,hcount]⟩

theorem foldl_writeAndFlush (c : Client) (bytes : Bytes) (n : ℕ) :
    ((List.range n).foldl (fun c _ => c.writeAndFlush bytes) c).written =
      c.written ++ (List.replicate n bytes).flatten := by
  induction n with
  | zero => simp
  | succ n ih =>
    rw [List.range_succ,List.foldl_append,List.replicate_succ',List.flatten_append,
      ← List.append_assoc,← ih]
    simp [Client.writeAndFlush]

def greeting : Bytes := encode "HI,我是杨朝旭."

theorem channelActive_written (c : Client) :
    c.channelActive.written = c.written ++ delimited delimiter (List.replicate 100 greeting) := by
  have hbytes : encode "HI,我是杨朝旭.$_" = greeting ++ delimiter := by decide
  rw [Client.channelActive,foldl_writeAndFlush,hbytes,delimited,List.map_replicate]

theorem Good.greetings (hs : Good s) (hserver : serverDecoder.DelimiterBased)
    (hclient : clientDecoder.DelimiterBased)
    (hsent : s.client.written = (Client.channelActive ⟨[],0,[]⟩).written)
    (hdelivered : Delivered s) : s.client.ackCount = 100 := by
  rw [channelActive_written,List.nil_append] at hsent
  have hsendable : ∀ f ∈ List.replicate 100 greeting, Sendable f := by
    intro f hf
    rw [List.eq_of_mem_replicate hf]
    exact ⟨by decide,by decide,valid_encode _⟩
  have hcount := ((hs.frames_back hserver hclient hsendable hsent).2 hdelivered).2
  rw [hcount,List.length_replicate]
  rfl

end SunshineService.Delimiter
