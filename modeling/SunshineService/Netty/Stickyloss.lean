import SunshineService.Foundation.Pieces
import SunshineService.Netty.StickylossOK

/-! # Commands and replies without frames

The client writes its commands one behind the other and the server takes each segment it
receives for one request, as the client takes each segment for one reply. What either of
them makes of the streams depends on where the network cuts them.
-/
namespace SunshineService.Stickyloss
open TransitionRun Delivery Pieces ProcessUtils Utf8 Constant
open StickylossOK (commands toInt_add_one)

/-! ## The handlers -/

/-- `StickylossClientHandler`: the loop variable of `channelActive`, what it wrote, and
the bodies printed with the count at their time. -/
structure Client where
  i : Int32
  written : Bytes
  ackCount : Int32
  printed : List (String × Int32)
  deriving DecidableEq

/-- `StickylossServerHandler`: `requests` lists the bodies handed to `process`. -/
structure Server where
  requests : List String
  replies : List String
  written : Bytes
  deriving DecidableEq

def Client.command (c : Client) : Client :=
  { c with
    i := c.i + 1
    written := c.written ++ encode queryTimeOrder }

def Client.channelRead (c : Client) (buf : Bytes) : Client :=
  { c with
    ackCount := c.ackCount + 1
    printed := c.printed ++ [(decode buf,c.ackCount + 1)] }

def Client.bodies (c : Client) : List String := c.printed.map Prod.fst

def Server.channelRead (s : Server) (buf : Bytes) (currentTimeMillis : Int64) : Server :=
  let body := decode buf
  let currTime := process body currentTimeMillis
  { requests := s.requests ++ [body]
    replies := s.replies ++ [currTime]
    written := s.written ++ encode currTime }

/-! ## The system -/

structure System where
  client : Client
  server : Server
  serverRead : ℕ
  clientRead : ℕ
  deriving DecidableEq

def init : System := ⟨⟨0,[],0,[]⟩,⟨[],[],[]⟩,0,0⟩

inductive Event
  | command
  | serverReceives (k : ℕ) (currentTimeMillis : Int64)
  | clientReceives (k : ℕ)

variable (n : Int32)

def step (s : System) : Event → Option System
  | .command => if s.client.i < n then some { s with client := s.client.command } else none
  | .serverReceives k currentTimeMillis =>
    (segment s.client.written s.serverRead k).map (fun buf => { s with
      server := s.server.channelRead buf currentTimeMillis
      serverRead := s.serverRead + k })
  | .clientReceives k =>
    (segment s.server.written s.clientRead k).map (fun buf => { s with
      client := s.client.channelRead buf
      clientRead := s.clientRead + k })

def command : Bytes := encode queryTimeOrder

theorem length_command : command.length = queryTimeOrder.length :=
  ascii_queryTimeOrder.length_encode

theorem command_byte_le {b : UInt8} (hb : b ∈ command) : b ≤ 127 := ascii_queryTimeOrder.byte_le hb

/-! ## Requests and replies as the server has seen them -/

def Answers (request reply : String) : Prop := ∃ now, reply = process request now

theorem process_of_equals {request : String} (h : equalsIgnoreCase queryTimeOrder request = true)
    (now : Int64) : process request now = valueOf now := if_pos h

theorem Answers.ne_badOrder_iff {request reply : String} (h : Answers request reply) :
    reply ≠ badOrder ↔ equalsIgnoreCase queryTimeOrder request = true := by
  obtain ⟨now,rfl⟩ := h
  cases heq : equalsIgnoreCase queryTimeOrder request with
  | false => simp [process,heq]
  | true =>
    rw [process_of_equals heq]
    simp [valueOf_ne_badOrder]

theorem Answers.time_or_badOrder {request reply : String} (h : Answers request reply) :
    reply = badOrder ∨ ∃ now, reply = valueOf now := by
  obtain ⟨now,rfl⟩ := h
  exact (process_time_or_badOrder request now).imp_right (fun htime => ⟨now,htime⟩)

theorem ascii_badOrder : Ascii badOrder := by
  have hall : badOrder.toList.all (fun c => decide (c.val ≤ 127)) = true := by decide
  intro c hc
  exact of_decide_eq_true (List.all_eq_true.mp hall c hc)

theorem Answers.ascii {request reply : String} (h : Answers request reply) : Ascii reply := by
  rcases h.time_or_badOrder with rfl | ⟨now,rfl⟩
  · exact ascii_badOrder
  · exact ascii_valueOf now

theorem Answers.ne_empty {request reply : String} (h : Answers request reply) : reply ≠ "" := by
  rcases h.time_or_badOrder with rfl | ⟨now,rfl⟩
  · decide
  · exact valueOf_ne_empty now

def joined (texts : List String) : Bytes := (texts.map encode).flatten

@[simp] theorem joined_append_singleton (texts : List String) (text : String) :
    joined (texts ++ [text]) = joined texts ++ encode text := by
  simp [joined]

/-- How many characters come before the `j`-th text. -/
def offset (texts : List String) (j : ℕ) : ℕ := ((texts.take j).map String.length).sum

theorem length_joined {texts : List String} (h : ∀ text ∈ texts, Ascii text) :
    (joined texts).length = (texts.map String.length).sum := by
  rw [joined,List.length_flatten,List.map_map]
  congr 1
  exact List.map_congr_left (fun text htext => (h text htext).length_encode)

theorem slice_joined {texts : List String} (h : ∀ text ∈ texts, Ascii text) {j : ℕ} {text : String}
    (hj : texts[j]? = some text) :
    ((joined texts).drop (offset texts j)).take text.length = encode text := by
  obtain ⟨hlt,rfl⟩ := List.getElem?_eq_some_iff.mp hj
  have hsplit : texts = texts.take j ++ texts[j] :: texts.drop (j + 1) := by
    rw [List.getElem_cons_drop,List.take_append_drop]
  have hbefore : offset texts j = (joined (texts.take j)).length :=
    (length_joined (fun text htext => h text (List.mem_of_mem_take htext))).symm
  have hjoined : joined texts = joined (texts.take j) ++ (encode texts[j] ++ joined (texts.drop (j + 1))) := by
    conv_lhs => rw [hsplit]
    simp only [joined,List.map_append,List.flatten_append,List.map_cons,List.flatten_cons]
  rw [hjoined,hbefore,List.drop_left,← (h texts[j] (List.getElem_mem hlt)).length_encode,List.take_left]

/-! ## Where a request reads as the command -/

section
variable {requests : List String} {sent j : ℕ} {request : String}

theorem byte_of_request (hascii : ∀ request ∈ requests, Ascii request)
    (hstream : joined requests <+: copies sent command) (hj : requests[j]? = some request) {i : ℕ}
    (hi : i < request.length) :
    (encode request)[i]? = command[(offset requests j + i) % command.length]? := by
  have hrequest := (hascii request (List.mem_of_getElem? hj)).length_encode
  have hslice := slice_joined hascii hj
  have hbyte : (joined requests)[offset requests j + i]? = (encode request)[i]? := by
    rw [← hslice,List.getElem?_take_of_lt hi,List.getElem?_drop]
  have hinside : offset requests j + i < (joined requests).length := by
    have hlength := congrArg List.length hslice
    rw [List.length_take,List.length_drop] at hlength
    omega
  have hlength := hstream.length_le
  rw [length_copies] at hlength
  obtain ⟨rest,hrest⟩ := hstream
  have hcopies : (copies sent command)[offset requests j + i]? = (encode request)[i]? := by
    rw [← hrest,List.getElem?_append_left hinside,hbyte]
  rw [← hcopies,getElem?_copies (by omega)]

theorem sameLetter_head : (queryTimeOrder.toList.tail).all (fun c => !sameLetter 'Q' c) = true := by
  decide

/-- The first letter of the command occurs in it only once, so a rotated copy reads otherwise. -/
theorem first_letter {c : Char} {r : ℕ} (hr : queryTimeOrder.toList[r]? = some c)
    (hc : sameLetter 'Q' c = true) : r = 0 := by
  cases r with
  | zero => rfl
  | succ r =>
    have hmem : c ∈ queryTimeOrder.toList.tail := by
      rw [← List.drop_one]
      exact List.mem_of_getElem? (List.getElem?_drop.trans (by rwa [Nat.add_comm]))
    have hno := List.all_eq_true.mp sameLetter_head c hmem
    rw [hc] at hno
    contradiction

theorem query_of_place (hascii : ∀ request ∈ requests, Ascii request)
    (hstream : joined requests <+: copies sent command) (hj : requests[j]? = some request)
    (hlength : request.length = queryTimeOrder.length)
    (hplace : queryTimeOrder.length ∣ offset requests j) : request = queryTimeOrder := by
  have hrequest := (hascii request (List.mem_of_getElem? hj)).length_encode
  have hcommand := length_command
  obtain ⟨m,hm⟩ := hplace
  have hbytes : encode request = command := by
    apply List.ext_getElem?
    intro i
    by_cases hi : i < request.length
    · rw [byte_of_request hascii hstream hj hi,hm,← hcommand,Nat.mul_add_mod,
        Nat.mod_eq_of_lt (by omega)]
    · rw [List.getElem?_eq_none (by omega),List.getElem?_eq_none (by omega)]
  have htext := congrArg decode hbytes
  rwa [decode_encode,command,decode_encode] at htext

/-- The command is recognised where a copy of it begins, and nowhere else. -/
theorem equals_iff (hascii : ∀ request ∈ requests, Ascii request)
    (hstream : joined requests <+: copies sent command) (hj : requests[j]? = some request) :
    equalsIgnoreCase queryTimeOrder request = true ↔
      request.length = queryTimeOrder.length ∧ queryTimeOrder.length ∣ offset requests j := by
  have hlength : queryTimeOrder.length = 16 := rfl
  have hrequest := hascii request (List.mem_of_getElem? hj)
  constructor
  · intro heq
    simp only [equalsIgnoreCase,Bool.and_eq_true,beq_iff_eq] at heq
    obtain ⟨hsame,hletters⟩ := heq
    refine ⟨hsame.symm,Nat.dvd_of_mod_eq_zero ?_⟩
    -- the first letter is enough to tell where the request begins
    have hbyte := byte_of_request hascii hstream hj (i := 0) (by omega)
    rw [Nat.add_zero,length_command,hrequest.encode_eq,command,ascii_queryTimeOrder.encode_eq,
      List.getElem?_map,List.getElem?_map] at hbyte
    cases hchars : request.toList with
    | nil =>
      have hempty := request.length_toList
      rw [hchars,List.length_nil] at hempty
      omega
    | cons c cs =>
      have hlt : offset requests j % queryTimeOrder.length < queryTimeOrder.toList.length :=
        Nat.mod_lt _ (by decide)
      rw [hchars,List.getElem?_cons_zero,List.getElem?_eq_getElem hlt] at hbyte
      have hc : c.val ≤ 127 := hrequest c (by rw [hchars]; exact List.mem_cons_self)
      have hq := ascii_queryTimeOrder _ (List.getElem_mem hlt)
      have hletter := Netty.eq_of_toUInt8_eq hc hq (Option.some.inj hbyte)
      rw [hchars] at hletters
      have hfirst : sameLetter 'Q' c = true :=
        (Bool.and_eq_true_iff.mp hletters).1
      exact first_letter (List.getElem?_eq_some_iff.mpr ⟨hlt,hletter.symm⟩) hfirst
  · rintro ⟨hsame,hplace⟩
    rw [query_of_place hascii hstream hj hsame hplace]
    decide

end

/-! ## The streams -/

/-- One copy of the command for each completed iteration. -/
structure ClientStream (c : Client) (sent : ℕ) : Prop where
  i_eq : c.i.toInt = sent
  sent_le : sent ≤ commands n
  written_eq : c.written = copies sent command

/-- The requests make up what the server has received, the replies what it has written. -/
structure ServerStream (s : Server) (received : Bytes) : Prop where
  joined_eq : joined s.requests = received
  requests_ascii : ∀ request ∈ s.requests, Ascii request
  requests_ne : ∀ request ∈ s.requests, request ≠ ""
  answers : List.Forall₂ Answers s.requests s.replies
  written_eq : s.written = joined s.replies

structure ClientLog (c : Client) (received : Bytes) : Prop where
  joined_eq : joined c.bodies = received
  ackCount_eq : c.ackCount = Int32.ofNat c.printed.length

variable {n}

theorem ClientStream.command {c : Client} {sent : ℕ} (h : ClientStream n c sent) (hlt : c.i < n) :
    ClientStream n c.command (sent + 1) := by
  have hi := h.i_eq
  have hlt := Int32.lt_iff_toInt_lt.mp hlt
  have hhi := n.toInt_lt
  refine ⟨?_,?_,?_⟩
  · have hsucc : (c.i + 1).toInt = c.i.toInt + 1 := toInt_add_one (by omega)
    change (c.i + 1).toInt = _
    omega
  · unfold commands
    omega
  · rw [copies_succ,← h.written_eq]
    rfl

theorem encode_ne_nil {text : String} (h : text ≠ "") : encode text ≠ [] := by
  intro hnil
  have htext := congrArg decode hnil
  rw [decode_encode] at htext
  exact h htext

theorem ServerStream.channelRead {s : Server} {received buf : Bytes} (h : ServerStream s received)
    (hne : buf ≠ []) (hbuf : ∀ b ∈ buf, b ≤ 127) (now : Int64) :
    ServerStream (s.channelRead buf now) (received ++ buf) := by
  obtain ⟨hascii,hbytes⟩ := ascii_decode hbuf
  refine ⟨?_,?_,?_,?_,?_⟩
  · rw [Server.channelRead,joined_append_singleton,h.joined_eq,hbytes]
  · intro request hmem
    rcases List.mem_append.mp hmem with hold | hnew
    · exact h.requests_ascii request hold
    · rw [List.mem_singleton.mp hnew]
      exact hascii
  · intro request hmem
    rcases List.mem_append.mp hmem with hold | hnew
    · exact h.requests_ne request hold
    · rw [List.mem_singleton.mp hnew]
      intro hempty
      rw [hempty] at hbytes
      exact hne hbytes.symm
  · exact List.rel_append h.answers (.cons ⟨now,rfl⟩ .nil)
  · rw [Server.channelRead,joined_append_singleton,h.written_eq]

theorem ClientLog.channelRead {c : Client} {received buf : Bytes} (h : ClientLog c received)
    (hbuf : ∀ b ∈ buf, b ≤ 127) : ClientLog (c.channelRead buf) (received ++ buf) := by
  refine ⟨?_,?_⟩
  · rw [Client.channelRead,Client.bodies,List.map_append,List.map_singleton,joined_append_singleton,
      (ascii_decode hbuf).2]
    exact congrArg (· ++ buf) h.joined_eq
  · simp only [Client.channelRead,List.length_append,List.length_singleton,Int32.ofNat_add,
      h.ackCount_eq]
    rfl

theorem answers_of_mem {requests replies : List String} (h : List.Forall₂ Answers requests replies)
    {reply : String} (hmem : reply ∈ replies) : ∃ request, Answers request reply := by
  induction h with
  | nil => contradiction
  | cons hanswers _ ih =>
    rcases List.mem_cons.mp hmem with rfl | hmem
    · exact ⟨_,hanswers⟩
    · exact ih hmem

theorem ServerStream.reply_ascii {s : Server} {received : Bytes} (h : ServerStream s received) :
    ∀ reply ∈ s.replies, Ascii reply := by
  intro reply hmem
  obtain ⟨request,hanswers⟩ := answers_of_mem h.answers hmem
  exact hanswers.ascii

theorem joined_byte_le {texts : List String} (h : ∀ text ∈ texts, Ascii text) {b : UInt8}
    (hb : b ∈ joined texts) : b ≤ 127 := by
  obtain ⟨bytes,hbytes,hb⟩ := List.mem_flatten.mp hb
  obtain ⟨text,htext,rfl⟩ := List.mem_map.mp hbytes
  exact (h text htext).byte_le hb

/-! ## The invariant -/

variable (n) in
structure Good (s : System) : Prop where
  client : ∃ sent, ClientStream n s.client sent
  server : ServerStream s.server (s.client.written.take s.serverRead)
  serverRead_le : s.serverRead ≤ s.client.written.length
  log : ClientLog s.client (s.server.written.take s.clientRead)
  clientRead_le : s.clientRead ≤ s.server.written.length

theorem good_init : Good n init where
  client := ⟨0,rfl,Nat.zero_le _,rfl⟩
  server := ⟨rfl,by simp [init],by simp [init],.nil,rfl⟩
  serverRead_le := Nat.zero_le _
  log := ⟨rfl,rfl⟩
  clientRead_le := Nat.zero_le _

/-- A segment of bytes in the ASCII range decodes to as many characters. -/
structure Segment (buf : Bytes) (k : ℕ) : Prop where
  byte_le : ∀ b ∈ buf, b ≤ 127
  ne_nil : buf ≠ []
  length_decode : (decode buf).length = k

theorem segment_of_ascii {written buf : Bytes} {read k : ℕ} (hwritten : ∀ b ∈ written, b ≤ 127)
    (h : segment written read k = some buf) : Segment buf k := by
  obtain ⟨hpos,hlength,hmem⟩ := segment_mem h
  have hbytes : ∀ b ∈ buf, b ≤ 127 := fun b hb => hwritten b (hmem b hb)
  obtain ⟨hascii,hencode⟩ := ascii_decode hbytes
  refine ⟨hbytes,List.ne_nil_of_length_pos (by omega),?_⟩
  rw [← hascii.length_encode,hencode,hlength]

theorem Good.server_segment {s : System} (hs : Good n s) {buf : Bytes} {k : ℕ}
    (h : segment s.client.written s.serverRead k = some buf) : Segment buf k := by
  obtain ⟨sent,hclient⟩ := hs.client
  refine segment_of_ascii ?_ h
  rw [hclient.written_eq]
  exact fun b hb => command_byte_le (mem_of_mem_copies hb)

theorem Good.client_segment {s : System} (hs : Good n s) {buf : Bytes} {k : ℕ}
    (h : segment s.server.written s.clientRead k = some buf) : Segment buf k := by
  refine segment_of_ascii ?_ h
  rw [hs.server.written_eq]
  exact fun b hb => joined_byte_le hs.server.reply_ascii hb

theorem Good.step {s t : System} {e : Event} (hs : Good n s) (h : step n s e = some t) : Good n t := by
  cases e with
  | command =>
    simp only [Stickyloss.step] at h
    split at h
    · rename_i hlt
      cases h
      obtain ⟨sent,hclient⟩ := hs.client
      have hpiece : s.client.written <+: s.client.command.written := List.prefix_append _ _
      exact {
        client := ⟨sent + 1,hclient.command hlt⟩
        server := by
          rw [take_eq_of_piece hpiece hs.serverRead_le]
          exact hs.server
        serverRead_le := hs.serverRead_le.trans hpiece.length_le
        log := ⟨hs.log.joined_eq,hs.log.ackCount_eq⟩
        clientRead_le := hs.clientRead_le }
    · contradiction
  | serverReceives k now =>
    obtain ⟨buf,hbuf,rfl⟩ := Option.map_eq_some_iff.mp h
    obtain ⟨hread,htake⟩ := segment_eq_some hbuf
    have hsegment := hs.server_segment hbuf
    have hpiece : s.server.written <+: (s.server.channelRead buf now).written :=
      List.prefix_append _ _
    exact {
      client := hs.client
      server := by
        rw [← htake]
        exact hs.server.channelRead hsegment.ne_nil hsegment.byte_le now
      serverRead_le := hread
      log := by
        rw [take_eq_of_piece hpiece hs.clientRead_le]
        exact hs.log
      clientRead_le := hs.clientRead_le.trans hpiece.length_le }
  | clientReceives k =>
    obtain ⟨buf,hbuf,rfl⟩ := Option.map_eq_some_iff.mp h
    obtain ⟨hread,htake⟩ := segment_eq_some hbuf
    obtain ⟨sent,hclient⟩ := hs.client
    exact {
      client := ⟨sent,hclient.i_eq,hclient.sent_le,hclient.written_eq⟩
      server := hs.server
      serverRead_le := hs.serverRead_le
      log := by
        rw [← htake]
        exact hs.log.channelRead (hs.client_segment hbuf).byte_le
      clientRead_le := hread }

theorem good_of_reachable {s : System} (h : Reachable (step n) init s) : Good n s :=
  h.invariant (fun _ _ _ hs hstep => Good.step hs hstep) good_init

/-! ## What a run has delivered -/

/-- The lengths of the segments that the server has read. -/
def serverCuts (as : List Event) : List ℕ :=
  as.filterMap (fun e => match e with
    | .serverReceives k _ => some k
    | _ => none)

def clientCuts (as : List Event) : List ℕ :=
  as.filterMap (fun e => match e with
    | .clientReceives k => some k
    | _ => none)

/-- What the server's clock showed at each of its reads. -/
def readings (as : List Event) : List Int64 :=
  as.filterMap (fun e => match e with
    | .serverReceives _ now => some now
    | _ => none)

/-- Each segment was one request, answered at the time of its read, or one body. -/
structure Cut (as : List Event) (s : System) : Prop where
  serverRead : s.serverRead = (serverCuts as).sum
  requests : s.server.requests = (segments (serverCuts as) s.client.written).map decode
  replies : s.server.replies = List.zipWith process s.server.requests (readings as)
  clientRead : s.clientRead = (clientCuts as).sum
  bodies : s.client.bodies = (segments (clientCuts as) s.server.written).map decode

theorem length_readings (as : List Event) : (readings as).length = (serverCuts as).length := by
  induction as with
  | nil => rfl
  | cons e as ih => cases e <;> simp_all [readings,serverCuts]

theorem Cut.length_requests {as : List Event} {s : System} (h : Cut as s) :
    s.server.requests.length = (readings as).length := by
  rw [h.requests,List.length_map,length_segments,length_readings]

theorem cut_of_step (as : List Event) (s : System) (e : Event) (t : System)
    (hr : run (step n) init as = some s) (hs : Cut as s) (h : step n s e = some t) :
    Cut (as ++ [e]) t := by
  have hgood := good_of_reachable ⟨as,hr⟩
  have hserver := hgood.serverRead_le
  have hclient := hgood.clientRead_le
  rw [hs.serverRead] at hserver
  rw [hs.clientRead] at hclient
  have hcuts : ∀ e, serverCuts (as ++ [e]) = serverCuts as ++ serverCuts [e] ∧
      clientCuts (as ++ [e]) = clientCuts as ++ clientCuts [e] ∧
      readings (as ++ [e]) = readings as ++ readings [e] :=
    fun e => ⟨List.filterMap_append,List.filterMap_append,List.filterMap_append⟩
  obtain ⟨hk,hj,hnow⟩ := hcuts e
  cases e with
  | command =>
    simp only [step] at h
    split at h
    · cases h
      have hpiece : s.client.written <+: s.client.command.written := List.prefix_append _ _
      rw [show serverCuts [.command] = [] from rfl,List.append_nil] at hk
      rw [show clientCuts [.command] = [] from rfl,List.append_nil] at hj
      rw [show readings [.command] = [] from rfl,List.append_nil] at hnow
      refine ⟨by rw [hk]; exact hs.serverRead,?_,by rw [hnow]; exact hs.replies,
        by rw [hj]; exact hs.clientRead,by rw [hj]; exact hs.bodies⟩
      rw [hk,segments_of_piece hserver hpiece]
      exact hs.requests
    · contradiction
  | serverReceives k now =>
    obtain ⟨buf,hbuf,rfl⟩ := Option.map_eq_some_iff.mp h
    have hpiece : s.server.written <+: (s.server.channelRead buf now).written := List.prefix_append _ _
    have hlength := hs.length_requests
    rw [show serverCuts [.serverReceives k now] = [k] from rfl] at hk
    rw [show clientCuts [.serverReceives k now] = [] from rfl,List.append_nil] at hj
    rw [show readings [.serverReceives k now] = [now] from rfl] at hnow
    refine ⟨?_,?_,?_,by rw [hj]; exact hs.clientRead,?_⟩
    · rw [hk,List.sum_append,List.sum_singleton,← hs.serverRead]
    · rw [hk,segments_concat,List.map_append,← hs.requests,← hs.serverRead,← (segment_eq hbuf).2.2]
      rfl
    · rw [hnow]
      change s.server.replies ++ [process (decode buf) now] =
        List.zipWith process (s.server.requests ++ [decode buf]) _
      rw [List.zipWith_append hlength,← hs.replies]
      rfl
    · rw [hj,segments_of_piece hclient hpiece]
      exact hs.bodies
  | clientReceives k =>
    obtain ⟨buf,hbuf,rfl⟩ := Option.map_eq_some_iff.mp h
    rw [show serverCuts [.clientReceives k] = [] from rfl,List.append_nil] at hk
    rw [show clientCuts [.clientReceives k] = [k] from rfl] at hj
    rw [show readings [.clientReceives k] = [] from rfl,List.append_nil] at hnow
    refine ⟨by rw [hk]; exact hs.serverRead,by rw [hk]; exact hs.requests,by rw [hnow]; exact hs.replies,?_,?_⟩
    · rw [hj,List.sum_append,List.sum_singleton,← hs.clientRead]
    · rw [hj,segments_concat,List.map_append,← hs.bodies,← hs.clientRead,← (segment_eq hbuf).2.2]
      simp [Client.channelRead,Client.bodies]

theorem cut_of_run {as : List Event} {s : System} (hr : run (step n) init as = some s) : Cut as s :=
  run_history ⟨rfl,rfl,rfl,rfl,rfl⟩ cut_of_step hr

/-! ## Which requests get the time -/

/-- How many replies carry a time. -/
def Server.times (s : Server) : ℕ := s.replies.countP (· ≠ badOrder)

def Delivered (n : Int32) (s : System) : Prop :=
  ¬ s.client.i < n ∧ s.serverRead = s.client.written.length ∧ s.clientRead = s.server.written.length

/-- A reply with a time accounts for a whole command, any other segment for none. -/
theorem times_mul_le {requests replies : List String} (h : List.Forall₂ Answers requests replies)
    (hne : ∀ request ∈ requests, request ≠ "") :
    queryTimeOrder.length * replies.countP (· ≠ badOrder) ≤ (requests.map String.length).sum ∧
      (queryTimeOrder.length * replies.countP (· ≠ badOrder) = (requests.map String.length).sum ↔
        ∀ request ∈ requests, equalsIgnoreCase queryTimeOrder request = true) := by
  have hlength : queryTimeOrder.length = 16 := rfl
  rw [hlength]
  induction h with
  | nil => simp
  | @cons request reply requests replies hanswers hrest ih =>
    obtain ⟨hle,hiff⟩ := ih (fun r hr => hne r (List.mem_cons_of_mem _ hr))
    have hreply := hanswers.ne_badOrder_iff
    rw [List.map_cons,List.sum_cons,List.forall_mem_cons]
    by_cases heq : equalsIgnoreCase queryTimeOrder request = true
    · have hsame : request.length = 16 := by
        simp only [equalsIgnoreCase,Bool.and_eq_true,beq_iff_eq] at heq
        exact heq.1.symm
      rw [List.countP_cons_of_pos (by simpa using hreply.mpr heq),hsame]
      refine ⟨by omega,?_⟩
      rw [← hiff]
      exact ⟨fun h => ⟨heq,by omega⟩,fun h => by have := h.2; omega⟩
    · have hpos : request.length ≠ 0 := by
        intro hzero
        exact hne request List.mem_cons_self (String.length_eq_zero_iff.mp hzero)
      have hbad : ¬ reply ≠ badOrder := fun hno => heq (hreply.mp hno)
      rw [List.countP_cons_of_neg (by simpa using hbad)]
      exact ⟨by omega,fun h => by omega,fun h => absurd h.1 heq⟩

/-- What the server makes of its stream, in any cuts. -/
structure Answered (n : Int32) (as : List Event) (s : System) : Prop extends Cut as s where
  requests_joined : joined s.server.requests = s.client.written.take s.serverRead
  bodies_joined : joined s.client.bodies = s.server.written.take s.clientRead
  answers : List.Forall₂ (fun now reply => reply = badOrder ∨ reply = valueOf now)
    (readings as) s.server.replies
  time_iff : ∀ j request reply, s.server.requests[j]? = some request →
    s.server.replies[j]? = some reply → (reply ≠ badOrder ↔
      request.length = queryTimeOrder.length ∧ queryTimeOrder.length ∣ offset s.server.requests j)
  times_le : s.server.times ≤ commands n
  delivered : Delivered n s →
    (s.server.times = commands n ↔ ∀ request ∈ s.server.requests, request = queryTimeOrder)

theorem ClientStream.all_sent {c : Client} {sent : ℕ} (h : ClientStream n c sent) (hend : ¬ c.i < n) :
    sent = commands n := by
  have hsent := h.sent_le
  rw [Int32.lt_iff_toInt_lt,h.i_eq] at hend
  unfold commands at hsent ⊢
  omega

theorem Good.answer {s : System} (hs : Good n s) {j : ℕ} {request reply : String}
    (hrequest : s.server.requests[j]? = some request) (hreply : s.server.replies[j]? = some reply) :
    Answers request reply := by
  obtain ⟨hlt,rfl⟩ := List.getElem?_eq_some_iff.mp hrequest
  obtain ⟨hlt',rfl⟩ := List.getElem?_eq_some_iff.mp hreply
  exact hs.server.answers.get hlt hlt'

theorem Good.stream {s : System} (hs : Good n s) :
    ∃ sent, sent ≤ commands n ∧ joined s.server.requests <+: copies sent command := by
  obtain ⟨sent,hclient⟩ := hs.client
  refine ⟨sent,hclient.sent_le,?_⟩
  rw [hs.server.joined_eq,← hclient.written_eq]
  exact List.take_prefix _ _

theorem Good.recognised_iff {s : System} (hs : Good n s) {j : ℕ} {request : String}
    (hj : s.server.requests[j]? = some request) :
    equalsIgnoreCase queryTimeOrder request = true ↔
      request.length = queryTimeOrder.length ∧ queryTimeOrder.length ∣ offset s.server.requests j := by
  obtain ⟨sent,_,hstream⟩ := hs.stream
  exact equals_iff hs.server.requests_ascii hstream hj

theorem Good.recognised {s : System} (hs : Good n s) {request : String}
    (hmem : request ∈ s.server.requests) :
    equalsIgnoreCase queryTimeOrder request = true ↔ request = queryTimeOrder := by
  obtain ⟨sent,_,hstream⟩ := hs.stream
  obtain ⟨j,hj⟩ := List.mem_iff_getElem?.mp hmem
  constructor
  · intro heq
    obtain ⟨hlength,hplace⟩ := (hs.recognised_iff hj).mp heq
    exact query_of_place hs.server.requests_ascii hstream hj hlength hplace
  · rintro rfl
    decide

theorem Good.sum_length {s : System} (hs : Good n s) :
    (s.server.requests.map String.length).sum = s.serverRead := by
  rw [← length_joined hs.server.requests_ascii,hs.server.joined_eq,List.length_take,
    min_eq_left hs.serverRead_le]

theorem Good.time_iff {s : System} (hs : Good n s) {j : ℕ} {request reply : String}
    (hrequest : s.server.requests[j]? = some request) (hreply : s.server.replies[j]? = some reply) :
    reply ≠ badOrder ↔
      request.length = queryTimeOrder.length ∧ queryTimeOrder.length ∣ offset s.server.requests j := by
  rw [(hs.answer hrequest hreply).ne_badOrder_iff]
  exact hs.recognised_iff hrequest

theorem Good.times_mul_le {s : System} (hs : Good n s) : 16 * s.server.times ≤ s.serverRead ∧
    (16 * s.server.times = s.serverRead ↔
      ∀ request ∈ s.server.requests, equalsIgnoreCase queryTimeOrder request = true) := by
  have h := Stickyloss.times_mul_le hs.server.answers hs.server.requests_ne
  rwa [hs.sum_length] at h

theorem Good.times_le {s : System} (hs : Good n s) : s.server.times ≤ commands n := by
  obtain ⟨sent,hclient⟩ := hs.client
  have hle := hs.times_mul_le.1
  have hread := hs.serverRead_le
  have hsent := hclient.sent_le
  have hlength : command.length = 16 := length_command
  rw [hclient.written_eq,length_copies,hlength] at hread
  omega

theorem Good.delivered_iff {s : System} (hs : Good n s) (hdelivered : Delivered n s) :
    s.server.times = commands n ↔ ∀ request ∈ s.server.requests, request = queryTimeOrder := by
  obtain ⟨hend,hall,_⟩ := hdelivered
  obtain ⟨sent,hclient⟩ := hs.client
  have hcommands := hclient.all_sent hend
  have hlength : command.length = 16 := length_command
  rw [hclient.written_eq,length_copies,hlength] at hall
  have hcount : 16 * s.server.times = s.serverRead ↔ s.server.times = commands n := by omega
  rw [← hcount,hs.times_mul_le.2]
  exact forall₂_congr (fun request hmem => hs.recognised hmem)

/-- The client has printed the first of the replies, one body for each, and none is an error. -/
structure InOrder (s : System) : Prop where
  no_badOrder : badOrder ∉ s.server.replies
  printed : s.client.bodies <+: s.server.replies

/-- The segment is one whole command, or the next whole reply. -/
def WholeMessage (s : System) : Event → Prop
  | .command => True
  | .serverReceives k _ => k = queryTimeOrder.length
  | .clientReceives k => (s.server.replies[s.client.bodies.length]?).map String.length = some k

instance (s : System) (e : Event) : Decidable (WholeMessage s e) := by
  cases e <;> unfold WholeMessage <;> infer_instance

theorem Good.requests_eq {s : System} (hs : Good n s) (hbad : badOrder ∉ s.server.replies) :
    ∀ request ∈ s.server.requests, request = queryTimeOrder := by
  intro request hmem
  obtain ⟨j,hlt,rfl⟩ := List.mem_iff_getElem.mp hmem
  have hlt' : j < s.server.replies.length := by rwa [← hs.server.answers.length_eq]
  have hreply : s.server.replies[j] ≠ badOrder :=
    fun hno => hbad (hno ▸ List.getElem_mem hlt')
  apply (hs.recognised hmem).mp
  exact (hs.server.answers.get hlt hlt').ne_badOrder_iff.mp hreply

theorem sum_length_queries {requests : List String}
    (h : ∀ request ∈ requests, request = queryTimeOrder) :
    (requests.map String.length).sum = requests.length * queryTimeOrder.length := by
  rw [List.eq_replicate_of_mem h,List.map_replicate,List.sum_replicate_nat,
    List.length_replicate]

theorem InOrder.serverReceives {s t : System} {k : ℕ} {now : Int64} (hs : Good n s)
    (horder : InOrder s) (h : step n s (.serverReceives k now) = some t) :
    InOrder t ↔ k = queryTimeOrder.length := by
  have ht := hs.step h
  obtain ⟨buf,hbuf,rfl⟩ := Option.map_eq_some_iff.mp h
  have hsegment := hs.server_segment hbuf
  have hall := hs.requests_eq horder.no_badOrder
  have hlength := hs.server.answers.length_eq
  -- the new request stands behind whole commands only
  have hplace : offset (s.server.channelRead buf now).requests s.server.requests.length =
      s.server.requests.length * queryTimeOrder.length := by
    rw [offset,Server.channelRead,List.take_left,sum_length_queries hall]
  have hrequest : (s.server.channelRead buf now).requests[s.server.requests.length]? = some (decode buf) := by
    simp [Server.channelRead]
  have hreply : (s.server.channelRead buf now).replies[s.server.requests.length]? =
      some (process (decode buf) now) := by
    simp [Server.channelRead,hlength]
  have hiff := ht.time_iff hrequest hreply
  rw [hplace,hsegment.length_decode] at hiff
  have hreplies : (s.server.channelRead buf now).replies =
      s.server.replies ++ [process (decode buf) now] := rfl
  constructor
  · intro hnew
    refine (hiff.mp ?_).1
    intro hbad
    apply hnew.no_badOrder
    rw [hreplies,hbad]
    exact List.mem_append_right _ List.mem_cons_self
  · intro hk
    have htime := hiff.mpr ⟨hk,dvd_mul_left _ _⟩
    refine ⟨?_,?_⟩
    · rw [hreplies,List.mem_append,List.mem_singleton]
      rintro (hold | hnew)
      · exact horder.no_badOrder hold
      · exact htime hnew.symm
    · exact horder.printed.trans (List.prefix_append _ _)

theorem concat_prefix_iff {p texts : List String} (hp : p <+: texts) {text : String} :
    p ++ [text] <+: texts ↔ texts[p.length]? = some text := by
  obtain ⟨rest,rfl⟩ := hp
  rw [List.prefix_append_right_inj,List.getElem?_append_right (le_refl _),Nat.sub_self]
  cases rest with
  | nil => simp
  | cons first rest => simp [List.cons_prefix_cons,eq_comm]

theorem InOrder.next_reply {s : System} (hs : Good n s) (horder : InOrder s) {reply : String}
    (h : s.server.replies[s.client.bodies.length]? = some reply) :
    (s.server.written.drop s.clientRead).take reply.length = encode reply := by
  have hascii := hs.server.reply_ascii
  have hslice := slice_joined hascii h
  have htake := List.prefix_iff_eq_take.mp horder.printed
  have hread : offset s.server.replies s.client.bodies.length = s.clientRead := by
    rw [offset,← htake,← length_joined (fun text htext => hascii text (horder.printed.subset htext)),
      hs.log.joined_eq,List.length_take,min_eq_left hs.clientRead_le]
  rwa [hread,← hs.server.written_eq] at hslice

theorem InOrder.clientReceives {s t : System} {k : ℕ} (hs : Good n s) (horder : InOrder s)
    (h : step n s (.clientReceives k) = some t) :
    InOrder t ↔ (s.server.replies[s.client.bodies.length]?).map String.length = some k := by
  obtain ⟨buf,hbuf,rfl⟩ := Option.map_eq_some_iff.mp h
  have hsegment := hs.client_segment hbuf
  have hbodies : (s.client.channelRead buf).bodies = s.client.bodies ++ [decode buf] := by
    simp [Client.channelRead,Client.bodies]
  constructor
  · intro hnew
    have hprinted := hnew.printed
    rw [hbodies,concat_prefix_iff horder.printed] at hprinted
    rw [hprinted,Option.map_some,hsegment.length_decode]
  · intro hk
    obtain ⟨reply,hreply,rfl⟩ := Option.map_eq_some_iff.mp hk
    refine ⟨horder.no_badOrder,?_⟩
    have hbytes : buf = encode reply := by
      rw [← horder.next_reply hs hreply]
      exact (segment_eq hbuf).2.2
    rw [hbodies,hbytes,decode_encode,concat_prefix_iff horder.printed]
    exact hreply

theorem InOrder.command {s t : System} (horder : InOrder s) (h : step n s .command = some t) :
    InOrder t := by
  simp only [step] at h
  split at h
  · cases h
    exact ⟨horder.no_badOrder,horder.printed⟩
  · contradiction

theorem inOrder_step_iff {s t : System} {e : Event} (hs : Good n s) (horder : InOrder s)
    (h : step n s e = some t) : InOrder t ↔ WholeMessage s e := by
  cases e with
  | command => exact ⟨fun _ => trivial,fun _ => horder.command h⟩
  | serverReceives k now => exact horder.serverReceives hs h
  | clientReceives k => exact horder.clientReceives hs h

theorem joined_prefix_eq {p texts : List String} (hp : p <+: texts) (hne : ∀ text ∈ texts, text ≠ "")
    (h : joined p = joined texts) : p = texts := by
  obtain ⟨rest,rfl⟩ := hp
  rw [joined,joined,List.map_append,List.flatten_append,List.self_eq_append_right] at h
  cases rest with
  | nil => rw [List.append_nil]
  | cons first rest =>
    have hfirst : encode first = [] :=
      List.flatten_eq_nil_iff.mp h _ (List.mem_map_of_mem List.mem_cons_self)
    exact absurd hfirst (encode_ne_nil (hne first (List.mem_append_right p List.mem_cons_self)))

/-- The count that the handler's author expected, and the times of the server's clock. -/
structure Complete (n : Int32) (as : List Event) (s : System) : Prop where
  bodies_eq : s.client.bodies = s.server.replies
  times_eq : s.client.bodies = (readings as).map valueOf
  length_eq : s.client.bodies.length = commands n
  ackCount_eq : s.client.ackCount.toInt = commands n

theorem zipWith_queries {requests : List String} {nows : List Int64}
    (h : ∀ request ∈ requests, request = queryTimeOrder) (hlength : requests.length = nows.length) :
    List.zipWith process requests nows = nows.map valueOf := by
  induction requests generalizing nows with
  | nil => rw [List.eq_nil_of_length_eq_zero hlength.symm]; rfl
  | cons request requests ih =>
    obtain _ | ⟨now,nows⟩ := nows
    · cases hlength
    obtain rfl := h request List.mem_cons_self
    rw [List.zipWith_cons_cons,process_query,List.map_cons,
      ih (fun r hr => h r (List.mem_cons_of_mem _ hr)) (Nat.succ.inj hlength)]

theorem Good.bodies_eq {s : System} (hs : Good n s) (horder : InOrder s) (hdelivered : Delivered n s) :
    s.client.bodies = s.server.replies := by
  have hne : ∀ reply ∈ s.server.replies, reply ≠ "" := by
    intro reply hmem
    obtain ⟨request,hanswers⟩ := answers_of_mem hs.server.answers hmem
    exact hanswers.ne_empty
  refine joined_prefix_eq horder.printed hne ?_
  rw [hs.log.joined_eq,hdelivered.2.2,List.take_length,hs.server.written_eq]

theorem complete_of_inOrder {as : List Event} {s : System} (hr : run (step n) init as = some s)
    (horder : InOrder s) (hdelivered : Delivered n s) : Complete n as s := by
  have hs := good_of_reachable ⟨as,hr⟩
  have hcut := cut_of_run hr
  have hall := hs.bodies_eq horder hdelivered
  have hqueries := hs.requests_eq horder.no_badOrder
  have htimes := (hs.delivered_iff hdelivered).mpr hqueries
  have hcount : s.server.times = s.server.replies.length := by
    rw [Server.times,List.countP_eq_length]
    intro reply hmem
    exact decide_eq_true (fun hno => horder.no_badOrder (hno ▸ hmem))
  have hlength : s.client.bodies.length = commands n := by rw [← htimes,hcount,hall]
  have hprinted : s.client.printed.length = commands n := by
    rw [← hlength,Client.bodies,List.length_map]
  refine ⟨hall,?_,hlength,?_⟩
  · rw [hall,hcut.replies,zipWith_queries hqueries hcut.length_requests]
  · have hroom := n.toInt_lt
    rw [hs.log.ackCount_eq,hprinted,Int32.toInt_ofNat_of_lt]
    unfold commands
    omega

theorem throughout_inOrder_iff {as : List Event} {s : System} (hr : run (step n) init as = some s) :
    Throughout (step n) InOrder init as ↔ EachStep (step n) WholeMessage init as := by
  have hsafe : ∀ s, Good n s ∧ InOrder s → InOrder s := fun _ hs => hs.2
  refine throughout_iff_eachStep hsafe ?_ ?_ ⟨good_init,by simp [init],List.nil_prefix⟩ hr
  · rintro s e t ⟨hs,horder⟩ hstep hwhole
    exact ⟨hs.step hstep,(inOrder_step_iff hs horder hstep).mpr hwhole⟩
  · rintro s e t ⟨hs,horder⟩ hstep hcut hnew
    exact hcut ((inOrder_step_iff hs horder hstep).mp hnew)

theorem complete_of_throughout {as : List Event} {s : System} (hr : run (step n) init as = some s)
    (hall : Throughout (step n) InOrder init as) (hdelivered : Delivered n s) : Complete n as s :=
  complete_of_inOrder hr (hall as s List.prefix_rfl hr) hdelivered

/-- The replies stay in order precisely when each segment is one whole message, and then
the times and the counts come out in the end. -/
theorem inOrder_iff {as : List Event} {s : System} (hr : run (step n) init as = some s) :
    (Throughout (step n) InOrder init as ↔ EachStep (step n) WholeMessage init as) ∧
      (Throughout (step n) InOrder init as → Delivered n s → Complete n as s) :=
  ⟨throughout_inOrder_iff hr,complete_of_throughout hr⟩

set_option maxRecDepth 4000 in
/-- Two commands, each answered on its own. -/
theorem inOrder_two_commands : Throughout (step 2) InOrder init [.command,.command,
    .serverReceives 16 7,.serverReceives 16 12,.clientReceives 1,.clientReceives 2] :=
  ((inOrder_iff rfl).1).mpr (by decide)

end SunshineService.Stickyloss
