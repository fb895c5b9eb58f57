import SunshineService.Foundation.Delivery
import SunshineService.Foundation.TransitionRun
import SunshineService.Netty.LineDecoder
import SunshineService.Utils.ProcessUtils

/-! # Commands and replies on lines

The client writes its commands in a loop, the server answers each line it decodes and
the client counts the replies. Both streams are reliable and are delivered in segments
of any size in any order of the steps. Counters are `int`s of the platform, and so is
the bound of the loop.
-/
namespace SunshineService.StickylossOK
open TransitionRun Delivery ProcessUtils Utf8 Constant Netty

/-! ## The handlers -/

/-- `StickylossOKClientHandler`: the loop variable of `channelActive`, what it wrote,
and the bodies printed with the count at their time. -/
structure Client where
  i : Int32
  written : Bytes
  ackCount : Int32
  printed : List (String × Int32)
  deriving DecidableEq

/-- `StickylossOKServerHandler`: `requests` lists the bodies handed to `process`. -/
structure Server where
  recCounter : Int32
  requests : List String
  replies : List String
  written : Bytes
  deriving DecidableEq

def Client.command (sep : LineSeparator) (c : Client) : Client :=
  { c with
    i := c.i + 1
    written := c.written ++ encode (queryTimeOrder ++ sep.text) }

def Client.channelRead (c : Client) (body : String) : Client :=
  { c with
    ackCount := c.ackCount + 1
    printed := c.printed ++ [(body,c.ackCount + 1)] }

def Server.channelRead (sep : LineSeparator) (s : Server) (body : String) (currentTimeMillis : Int64) :
    Server :=
  let reply := processCounted body (s.recCounter + 1) currentTimeMillis
  { recCounter := s.recCounter + 1
    requests := s.requests ++ [body]
    replies := s.replies ++ [reply]
    written := s.written ++ encode (reply ++ sep.text) }

/-- The calls for the strings that one segment completes, with the time of each. -/
def Server.channelReads (sep : LineSeparator) (s : Server) : List String → (ℕ → Int64) → Server
  | [], _ => s
  | body :: bodies, clock =>
    (s.channelRead sep body (clock 0)).channelReads sep bodies (fun j => clock (j + 1))

/-! ## The system -/

variable {serverDecoder clientDecoder : Decoder}

/-- The counts of delivered bytes go with the states of the decoders. -/
structure System (serverDecoder clientDecoder : Decoder) where
  client : Client
  server : Server
  serverState : serverDecoder.State
  clientState : clientDecoder.State
  serverRead : ℕ
  clientRead : ℕ

def init : System serverDecoder clientDecoder where
  client := ⟨0,[],0,[]⟩
  server := ⟨0,[],[],[]⟩
  serverState := serverDecoder.init
  clientState := clientDecoder.init
  serverRead := 0
  clientRead := 0

inductive Event
  | command
  | serverReceives (k : ℕ) (clock : ℕ → Int64)
  | clientReceives (k : ℕ)

variable (n : Int32) (clientSep serverSep : LineSeparator)

def step (s : System serverDecoder clientDecoder) :
    Event → Option (System serverDecoder clientDecoder)
  | .command =>
    if s.client.i < n then some { s with client := s.client.command clientSep } else none
  | .serverReceives k clock =>
    (segment s.client.written s.serverRead k).map (fun bytes => { s with
      server := s.server.channelReads serverSep (serverDecoder.feed s.serverState bytes).2 clock
      serverState := (serverDecoder.feed s.serverState bytes).1
      serverRead := s.serverRead + k })
  | .clientReceives k =>
    (segment s.server.written s.clientRead k).map (fun bytes => { s with
      client := (clientDecoder.feed s.clientState bytes).2.foldl Client.channelRead s.client
      clientState := (clientDecoder.feed s.clientState bytes).1
      clientRead := s.clientRead + k })

/-- How many commands the loop sends. -/
def commands : ℕ := n.toInt.toNat

/-! ## What is on the streams -/

theorem plain_queryTimeOrder : Plain queryTimeOrder := by
  have hall : queryTimeOrder.toList.all (fun c => c != '\n' && c != '\r') = true := by decide
  intro c hc
  have hbreaks := List.all_eq_true.mp hall c hc
  simp only [Bool.and_eq_true,bne_iff_ne] at hbreaks
  exact ⟨ascii_queryTimeOrder c hc,hbreaks⟩

theorem plain_valueOf (now : Int64) : Plain (valueOf now) := by
  intro c hc
  refine ⟨ascii_valueOf now c hc,?_⟩
  rcases valueOf_char hc with rfl | h
  · decide
  · constructor
    · rintro rfl
      contradiction
    · rintro rfl
      contradiction

theorem toInt_add_one {a : Int32} (h : a.toInt < 2 ^ 31 - 1) : (a + 1).toInt = a.toInt + 1 := by
  have hlo := a.le_toInt
  have hone : (1 : Int32).toInt = 1 := rfl
  rw [Int32.toInt_add,hone]
  exact Int.bmod_eq_of_le (by omega) (by omega)

theorem commands_lt : (commands n : ℤ) < 2 ^ 31 := by
  have hhi := n.toInt_lt
  unfold commands
  omega

/-- The client stream carries one command a line, one for each completed iteration. -/
structure ClientStream (c : Client) (sent : ℕ) : Prop where
  i_eq : c.i.toInt = sent
  sent_le : sent ≤ commands n
  written_eq : c.written = stream clientSep (List.replicate sent queryTimeOrder)

structure ServerStream (s : Server) : Prop where
  counter_eq : s.recCounter.toInt = s.requests.length
  replies_length : s.replies.length = s.requests.length
  replies_clock : ∀ reply ∈ s.replies, ∃ now, reply = valueOf now
  written_eq : s.written = stream serverSep s.replies

theorem plainLines_commands (sent : ℕ) : PlainLines (List.replicate sent queryTimeOrder) := by
  intro text htext
  obtain rfl := List.eq_of_mem_replicate htext
  exact ⟨plain_queryTimeOrder,by decide⟩

theorem ServerStream.plainLines {s : Server} (h : ServerStream serverSep s) : PlainLines s.replies := by
  intro reply hreply
  obtain ⟨now,rfl⟩ := h.replies_clock reply hreply
  have hlength := length_valueOf_le now
  exact ⟨plain_valueOf now,by omega⟩

theorem ServerStream.badOrder {s : Server} (h : ServerStream serverSep s) : badOrder ∉ s.replies := by
  intro hbad
  obtain ⟨now,hnow⟩ := h.replies_clock _ hbad
  exact valueOf_ne_badOrder now hnow.symm

/-! ## One command, one request, one reply -/

theorem ClientStream.command {c : Client} {sent : ℕ} (h : ClientStream n clientSep c sent)
    (hlt : c.i < n) : ClientStream n clientSep (c.command clientSep) (sent + 1) := by
  have hi := h.i_eq
  have hlt := Int32.lt_iff_toInt_lt.mp hlt
  have hhi := n.toInt_lt
  refine ⟨?_,?_,?_⟩
  · have hsucc : (c.i + 1).toInt = c.i.toInt + 1 := toInt_add_one (by omega)
    change (c.i + 1).toInt = _
    omega
  · unfold commands
    omega
  · rw [List.replicate_succ',stream_append,← h.written_eq]
    rfl

theorem ServerStream.channelRead {s : Server} (h : ServerStream serverSep s)
    (hroom : s.requests.length + 1 < 2 ^ 31) (now : Int64) :
    ServerStream serverSep (s.channelRead serverSep queryTimeOrder now) := by
  have hcounter := h.counter_eq
  have hreply : processCounted queryTimeOrder (s.recCounter + 1) now = valueOf now :=
    (processCounted_eq _ _ now).trans (process_query now)
  refine ⟨?_,?_,?_,?_⟩
  · have hsucc : (s.recCounter + 1).toInt = s.recCounter.toInt + 1 := toInt_add_one (by omega)
    simp only [Server.channelRead,List.length_append,List.length_singleton,hsucc]
    omega
  · simp only [Server.channelRead,List.length_append,List.length_singleton,h.replies_length]
  · intro reply hmem
    simp only [Server.channelRead,hreply,List.mem_append,List.mem_singleton] at hmem
    rcases hmem with hold | rfl
    · exact h.replies_clock reply hold
    · exact ⟨now,rfl⟩
  · simp only [Server.channelRead,stream_append,h.written_eq]

theorem ServerStream.channelReads {s : Server} (h : ServerStream serverSep s) {bodies : List String}
    (hbodies : ∀ body ∈ bodies, body = queryTimeOrder)
    (hroom : s.requests.length + bodies.length < 2 ^ 31) (clock : ℕ → Int64) :
    ServerStream serverSep (s.channelReads serverSep bodies clock) ∧
      (s.channelReads serverSep bodies clock).requests = s.requests ++ bodies ∧
      s.written <+: (s.channelReads serverSep bodies clock).written ∧
      s.replies <+: (s.channelReads serverSep bodies clock).replies := by
  induction bodies generalizing s clock with
  | nil => exact ⟨h,by simp [Server.channelReads],List.prefix_rfl,List.prefix_rfl⟩
  | cons body bodies ih =>
    obtain rfl := hbodies body List.mem_cons_self
    rw [List.length_cons] at hroom
    have hfirst := h.channelRead serverSep (by omega) (clock 0)
    obtain ⟨hrest,hrequests,hwritten,hreplies⟩ := ih hfirst
      (fun b hb => hbodies b (List.mem_cons_of_mem _ hb))
      (by simp only [Server.channelRead,List.length_append,List.length_singleton]; omega)
      (fun j => clock (j + 1))
    refine ⟨hrest,?_,(List.prefix_append _ _).trans hwritten,(List.prefix_append _ _).trans hreplies⟩
    rw [Server.channelReads,hrequests]
    simp [Server.channelRead]

theorem foldl_channelRead (c : Client) (bodies : List String) :
    let d := bodies.foldl Client.channelRead c
    d.i = c.i ∧ d.written = c.written ∧ d.printed.map Prod.fst = c.printed.map Prod.fst ++ bodies := by
  induction bodies generalizing c with
  | nil => simp
  | cons body bodies ih =>
    obtain ⟨hi,hwritten,hprinted⟩ := ih (c.channelRead body)
    refine ⟨hi,hwritten,?_⟩
    rw [List.foldl_cons,hprinted]
    simp [Client.channelRead]

theorem foldl_ackCount {c : Client} {bodies : List String}
    (h : c.ackCount.toInt = c.printed.length) (hroom : c.printed.length + bodies.length < 2 ^ 31) :
    (bodies.foldl Client.channelRead c).ackCount.toInt =
      (bodies.foldl Client.channelRead c).printed.length := by
  induction bodies generalizing c with
  | nil => exact h
  | cons body bodies ih =>
    rw [List.length_cons] at hroom
    rw [List.foldl_cons]
    apply ih
    · have hsucc : (c.ackCount + 1).toInt = c.ackCount.toInt + 1 := toInt_add_one (by omega)
      simp only [Client.channelRead,List.length_append,List.length_singleton,hsucc]
      omega
    · simp only [Client.channelRead,List.length_append,List.length_singleton]
      omega

/-! ## What a decoder has emitted -/

/-- The server has decoded the query once for each complete line. -/
theorem requests_eq (hd : serverDecoder.LineBased) {c : Client} {sent read : ℕ}
    (hc : ClientStream n clientSep c sent) {st : serverDecoder.State} {out : List String}
    (hfed : serverDecoder.Fed (c.written.take read) st out) :
    out = List.replicate (lines (c.written.take read)).length queryTimeOrder ∧
      (lines (c.written.take read)).length ≤ sent := by
  have hp : c.written.take read <+: stream clientSep (List.replicate sent queryTimeOrder) := by
    rw [← hc.written_eq]
    exact List.take_prefix _ _
  have hplain := plainLines_commands sent
  have hle := hplain.length_lines_le hp
  rw [List.length_replicate] at hle
  refine ⟨?_,hle⟩
  rw [hfed.out_eq hd (hplain.short hp),hplain.decode_lines hp,List.take_replicate,min_eq_left hle]

theorem printed_eq (hd : clientDecoder.LineBased) {s : Server} {read : ℕ}
    (hs : ServerStream serverSep s) {st : clientDecoder.State} {out : List String}
    (hfed : clientDecoder.Fed (s.written.take read) st out) :
    out.length = (lines (s.written.take read)).length ∧ out = s.replies.take out.length ∧
      out.length ≤ s.replies.length := by
  have hp : s.written.take read <+: stream serverSep s.replies := by
    rw [← hs.written_eq]
    exact List.take_prefix _ _
  have hplain := hs.plainLines
  have hle := hplain.length_lines_le hp
  have hout := hfed.out_eq hd (hplain.short hp)
  have hlength : out.length = (lines (s.written.take read)).length := by rw [hout,List.length_map]
  refine ⟨hlength,?_,hlength ▸ hle⟩
  rw [hlength]
  exact hout.trans (hplain.decode_lines hp)

/-! ## The invariant -/

structure Good (s : System serverDecoder clientDecoder) : Prop where
  client : ∃ sent, ClientStream n clientSep s.client sent
  server : ServerStream serverSep s.server
  serverFed : serverDecoder.Fed (s.client.written.take s.serverRead) s.serverState s.server.requests
  serverRead_le : s.serverRead ≤ s.client.written.length
  clientFed : clientDecoder.Fed (s.server.written.take s.clientRead) s.clientState
    (s.client.printed.map Prod.fst)
  clientRead_le : s.clientRead ≤ s.server.written.length
  ackCount_eq : s.client.ackCount.toInt = s.client.printed.length

theorem good_init : Good n clientSep serverSep (init : System serverDecoder clientDecoder) where
  client := ⟨0,rfl,Nat.zero_le _,rfl⟩
  server := ⟨rfl,rfl,by simp [init],rfl⟩
  serverFed := serverDecoder.fed_init
  serverRead_le := Nat.zero_le _
  clientFed := clientDecoder.fed_init
  clientRead_le := Nat.zero_le _
  ackCount_eq := rfl

variable {n clientSep serverSep}

theorem good_of_command {s t : System serverDecoder clientDecoder} (hs : Good n clientSep serverSep s)
    (h : step n clientSep serverSep s .command = some t) : Good n clientSep serverSep t := by
  simp only [step] at h
  split at h
  · rename_i hlt
    cases h
    obtain ⟨sent,hclient⟩ := hs.client
    have htake : (s.client.command clientSep).written.take s.serverRead =
        s.client.written.take s.serverRead := List.take_append_of_le_length hs.serverRead_le
    exact { hs with
      client := ⟨sent + 1,hclient.command n clientSep hlt⟩
      serverFed := by
        rw [htake]
        exact hs.serverFed
      serverRead_le := by
        have hle := hs.serverRead_le
        simp only [Client.command,List.length_append]
        omega }
  · contradiction

theorem good_of_serverReceives (hd : serverDecoder.LineBased)
    {s t : System serverDecoder clientDecoder} (hs : Good n clientSep serverSep s) {k : ℕ}
    {clock : ℕ → Int64} (h : step n clientSep serverSep s (.serverReceives k clock) = some t) :
    Good n clientSep serverSep t := by
  obtain ⟨bytes,hbytes,rfl⟩ := Option.map_eq_some_iff.mp h
  obtain ⟨hread,htake⟩ := segment_eq_some hbytes
  obtain ⟨sent,hclient⟩ := hs.client
  have hfed := hs.serverFed.feed bytes
  rw [htake] at hfed
  obtain ⟨hall,hle⟩ := requests_eq n clientSep hd hclient hfed
  have hcount := congrArg List.length hall
  rw [List.length_append,List.length_replicate] at hcount
  have hroom := commands_lt n
  have hsent := hclient.sent_le
  have hbodies : ∀ body ∈ (serverDecoder.feed s.serverState bytes).2, body = queryTimeOrder := by
    intro body hbody
    have hmem := List.mem_append_right s.server.requests hbody
    rw [hall] at hmem
    exact List.eq_of_mem_replicate hmem
  obtain ⟨hserver,hrequests,hwritten,_⟩ :=
    hs.server.channelReads serverSep hbodies (by omega) clock
  have hclientTake : (s.server.channelReads serverSep (serverDecoder.feed s.serverState bytes).2
      clock).written.take s.clientRead = s.server.written.take s.clientRead := by
    obtain ⟨rest,hrest⟩ := hwritten
    rw [← hrest,List.take_append_of_le_length hs.clientRead_le]
  exact {
    client := ⟨sent,hclient⟩
    server := hserver
    serverFed := by
      rw [hrequests]
      exact hfed
    serverRead_le := hread
    clientFed := by
      rw [hclientTake]
      exact hs.clientFed
    clientRead_le := hs.clientRead_le.trans hwritten.length_le
    ackCount_eq := hs.ackCount_eq }

theorem good_of_clientReceives (hdServer : serverDecoder.LineBased) (hd : clientDecoder.LineBased)
    {s t : System serverDecoder clientDecoder} (hs : Good n clientSep serverSep s) {k : ℕ}
    (h : step n clientSep serverSep s (.clientReceives k) = some t) :
    Good n clientSep serverSep t := by
  obtain ⟨bytes,hbytes,rfl⟩ := Option.map_eq_some_iff.mp h
  obtain ⟨hread,htake⟩ := segment_eq_some hbytes
  obtain ⟨sent,hclient⟩ := hs.client
  have hfed := hs.clientFed.feed bytes
  rw [htake] at hfed
  obtain ⟨_,_,hle⟩ := printed_eq serverSep hd hs.server hfed
  obtain ⟨hrequests,hlines⟩ := requests_eq n clientSep hdServer hclient hs.serverFed
  have hcount := congrArg List.length hrequests
  rw [List.length_replicate] at hcount
  rw [List.length_append,List.length_map,hs.server.replies_length] at hle
  have hroom := commands_lt n
  have hsent := hclient.sent_le
  obtain ⟨hi,hwritten,hprinted⟩ :=
    foldl_channelRead s.client (clientDecoder.feed s.clientState bytes).2
  exact {
    client := ⟨sent,by rw [hi]; exact hclient.i_eq,hclient.sent_le,by
      rw [hwritten]
      exact hclient.written_eq⟩
    server := hs.server
    serverFed := by
      rw [hwritten]
      exact hs.serverFed
    serverRead_le := by
      rw [hwritten]
      exact hs.serverRead_le
    clientFed := by
      rw [hprinted]
      exact hfed
    clientRead_le := hread
    ackCount_eq := foldl_ackCount hs.ackCount_eq (by omega) }

theorem good_of_step (hdServer : serverDecoder.LineBased) (hdClient : clientDecoder.LineBased)
    (s : System serverDecoder clientDecoder) (e : Event) (t : System serverDecoder clientDecoder)
    (hs : Good n clientSep serverSep s) (h : step n clientSep serverSep s e = some t) :
    Good n clientSep serverSep t := by
  cases e with
  | command => exact good_of_command hs h
  | serverReceives k clock => exact good_of_serverReceives hdServer hs h
  | clientReceives k => exact good_of_clientReceives hdServer hdClient hs h

/-! ## The counts -/

def Delivered (n : Int32) (s : System serverDecoder clientDecoder) : Prop :=
  ¬ s.client.i < n ∧ s.serverRead = s.client.written.length ∧ s.clientRead = s.server.written.length

/-- Nothing is lost, merged or duplicated. -/
structure Counted (n : Int32) (s : System serverDecoder clientDecoder) : Prop where
  recCounter_eq : s.server.recCounter.toInt = (lines (s.client.written.take s.serverRead)).length
  replies_length : s.server.recCounter.toInt = s.server.replies.length
  no_badOrder : badOrder ∉ s.server.replies
  printed_eq : s.client.printed.map Prod.fst = s.server.replies.take s.client.ackCount.toInt.toNat
  ackCount_le : s.client.ackCount ≤ s.server.recCounter
  recCounter_le : s.server.recCounter.toInt ≤ commands n
  delivered : Delivered n s →
    s.client.ackCount.toInt = commands n ∧ s.server.recCounter.toInt = commands n

theorem Good.counted (hdServer : serverDecoder.LineBased) (hdClient : clientDecoder.LineBased)
    {s : System serverDecoder clientDecoder} (hs : Good n clientSep serverSep s) : Counted n s := by
  obtain ⟨sent,hclient⟩ := hs.client
  obtain ⟨hrequests,hlines⟩ := requests_eq n clientSep hdServer hclient hs.serverFed
  have hcount := congrArg List.length hrequests
  rw [List.length_replicate] at hcount
  obtain ⟨hacked,hprinted,hack⟩ := printed_eq serverSep hdClient hs.server hs.clientFed
  rw [List.length_map] at hacked hprinted hack
  have hcounter := hs.server.counter_eq
  have hreplies := hs.server.replies_length
  have hackCount := hs.ackCount_eq
  have hsent := hclient.sent_le
  refine ⟨by omega,by omega,hs.server.badOrder,?_,?_,by omega,?_⟩
  · rw [hackCount,Int.toNat_natCast]
    exact hprinted
  · rw [Int32.le_iff_toInt_le]
    omega
  · rintro ⟨hend,hserverRead,hclientRead⟩
    have hall : sent = commands n := by
      rw [Int32.lt_iff_toInt_lt,hclient.i_eq] at hend
      unfold commands at hsent ⊢
      omega
    rw [hserverRead,List.take_length,hclient.written_eq,
      (plainLines_commands sent).length_lines_stream,List.length_replicate] at hcount
    rw [hclientRead,List.take_length,hs.server.written_eq,
      hs.server.plainLines.length_lines_stream] at hacked
    omega

variable (n clientSep serverSep) in
/-- In every reachable state the counters, the replies and the printed bodies fit. -/
theorem counted_of_reachable (hdServer : serverDecoder.LineBased) (hdClient : clientDecoder.LineBased)
    {s : System serverDecoder clientDecoder}
    (h : Reachable (step n clientSep serverSep) init s) : Counted n s :=
  (h.invariant (good_of_step hdServer hdClient) (good_init n clientSep serverSep)).counted
    hdServer hdClient

set_option maxRecDepth 4000 in
/-- Two commands; one segment ends between `\r` and `\n`, the next inside a line. -/
theorem counted_two_commands :
    ∃ s, run (step 2 .crlf .lf) (init : System lineDecoder lineDecoder) [.command,
        .serverReceives 17 (fun _ => 7),.command,.serverReceives 5 (fun _ => 7),.clientReceives 1,
        .serverReceives 14 (fun _ => 8),.clientReceives 3] = some s ∧
      s.server.recCounter = 2 ∧ s.client.printed = [("7",1),("8",2)] ∧ Counted 2 s :=
  ⟨_,rfl,by decide,by decide,counted_of_reachable 2 .crlf .lf lineDecoder_lineBased
    lineDecoder_lineBased ⟨[.command,.serverReceives 17 (fun _ => 7),.command,
      .serverReceives 5 (fun _ => 7),.clientReceives 1,.serverReceives 14 (fun _ => 8),
      .clientReceives 3],rfl⟩⟩

end SunshineService.StickylossOK
