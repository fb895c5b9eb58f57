import SunshineService.Nio.ClientHandler
import SunshineService.Nio.ServerHandler

/-! # Any number of NIO clients against one NIO server

Client and server are the modelled handlers, joined by two byte streams for each
connection. No call fails and every write accepts its whole buffer, while a read may
cut its stream anywhere. The streams carry no framing, so a reader takes whatever a
read returns for a whole message.
-/
namespace SunshineService.NIOTimeProtocol
open TransitionRun ProcessUtils Utf8 Constant
variable {ι : Type*} [DecidableEq ι]

/-- `serverRead` and `clientRead` count the bytes already read of each stream. -/
structure System (ι : Type*) where
  server : NIOServerHandler.State ι
  client : ι → NIOClientHandler.State
  serverRead : ι → ℕ
  clientRead : ι → ℕ

def init : System ι := ⟨NIOServerHandler.init,fun _ => NIOClientHandler.init,fun _ => 0,fun _ => 0⟩

structure Connection where
  client : NIOClientHandler.State
  channel : Option NIOServerHandler.Channel
  serverRead : ℕ
  clientRead : ℕ

def System.connection (s : System ι) (i : ι) : Connection :=
  ⟨s.client i,s.server.channels i,s.serverRead i,s.clientRead i⟩

def Connection.requests (c : Connection) : Bytes := c.client.sent.drop c.serverRead

def Connection.replies (c : Connection) : Bytes :=
  match c.channel with
  | none => []
  | some ch => ch.written.drop c.clientRead

inductive Event (ι : Type*)
  | start (i : ι) (connectsAtOnce : Bool)
  | finishConnect (i : ι)
  | accept (i : ι)
  | serverRead (i : ι) (n : ℕ) (currentTimeMillis : Int64)
  | clientRead (i : ι) (n : ℕ)

/-- A read may return any non-empty prefix that fits into its buffer. -/
def readChunk (stream : Bytes) (n : ℕ) : Option Chunk :=
  if h : 0 < n ∧ n ≤ stream.length ∧ n ≤ readCapacity then
    some {
      bytes := stream.take n
      ne_nil := by
        apply List.ne_nil_of_length_pos
        simp only [List.length_take]
        omega
      length_le := by
        simp only [List.length_take]
        omega }
  else none

def requestLength : ℕ := (encode queryTimeOrder).length

/-- How `doConnect` ends, with a write that takes the whole request. -/
def connectOutcome (connectsAtOnce : Bool) : NIOClientHandler.ConnectOutcome :=
  if connectsAtOnce then .connected .returns (.accepts requestLength) else .pending .returns

def step (s : System ι) : Event ι → Option (System ι)
  | .start i connectsAtOnce =>
    if s.client i = NIOClientHandler.init then
      some { s with
        client := Function.update s.client i (NIOClientHandler.start (connectOutcome connectsAtOnce)) }
    else none
  | .finishConnect i =>
    (NIOClientHandler.step (s.client i)
      (.connectable .connected .returns (.accepts requestLength))).map
        (fun c => { s with client := Function.update s.client i c })
  | .accept i =>
    if s.client i = NIOClientHandler.init then none
    else (NIOServerHandler.step s.server (.ready [.acceptor (.channel i .returns .returns)])).map
      (fun v => { s with server := v })
  | .serverRead i n t =>
    (readChunk (s.connection i).requests n).bind (fun chunk =>
      (NIOServerHandler.step s.server
        (.ready [.client i ⟨t,.bytes chunk,.accepts (NIOServerHandler.replyLength chunk t)⟩])).map
          (fun v => { s with
            server := v
            serverRead := Function.update s.serverRead i (s.serverRead i + n) }))
  | .clientRead i n =>
    (readChunk (s.connection i).replies n).bind (fun chunk =>
      (NIOClientHandler.step (s.client i) (.readable (.bytes chunk))).map
        (fun c => { s with
          client := Function.update s.client i c
          clientRead := Function.update s.clientRead i (s.clientRead i + n) }))

/-! ## What each event does to its connection -/

def Event.connection : Event ι → ι
  | .start i _ => i
  | .finishConnect i => i
  | .accept i => i
  | .serverRead i _ _ => i
  | .clientRead i _ => i

theorem readChunk_eq_some {stream : Bytes} {n : ℕ} {chunk : Chunk}
    (h : readChunk stream n = some chunk) :
    0 < n ∧ n ≤ stream.length ∧ chunk.bytes = stream.take n := by
  unfold readChunk at h
  split at h
  · rename_i hn
    cases h
    exact ⟨hn.1,hn.2.1,rfl⟩
  · contradiction

theorem step_frame {s t : System ι} {e : Event ι} (h : step s e = some t) {j : ι}
    (hj : j ≠ e.connection) : t.connection j = s.connection j := by
  cases e with
  | start i connectsAtOnce =>
    have hj : j ≠ i := hj
    simp only [step] at h
    split at h
    · cases h
      simp [System.connection,Function.update_of_ne hj]
    · contradiction
  | finishConnect i =>
    have hj : j ≠ i := hj
    obtain ⟨c,_,rfl⟩ := Option.map_eq_some_iff.mp h
    simp [System.connection,Function.update_of_ne hj]
  | accept i =>
    have hj : j ≠ i := hj
    simp only [step] at h
    split at h
    · contradiction
    · obtain ⟨v,hv,rfl⟩ := Option.map_eq_some_iff.mp h
      obtain ⟨_,rfl⟩ := NIOServerHandler.step_accept hv
      simp [System.connection,Function.update_of_ne hj]
  | serverRead i n now =>
    have hj : j ≠ i := hj
    obtain ⟨chunk,_,h⟩ := Option.bind_eq_some_iff.mp h
    obtain ⟨v,hv,rfl⟩ := Option.map_eq_some_iff.mp h
    obtain ⟨ch,_,_,_,rfl⟩ := NIOServerHandler.step_client hv
    simp [System.connection,Function.update_of_ne hj]
  | clientRead i n =>
    have hj : j ≠ i := hj
    obtain ⟨chunk,_,h⟩ := Option.bind_eq_some_iff.mp h
    obtain ⟨c,_,rfl⟩ := Option.map_eq_some_iff.mp h
    simp [System.connection,Function.update_of_ne hj]

theorem step_start {s t : System ι} {i : ι} {connectsAtOnce : Bool}
    (h : step s (.start i connectsAtOnce) = some t) :
    (s.connection i).client = NIOClientHandler.init ∧ t.connection i = { s.connection i with
      client := NIOClientHandler.start (connectOutcome connectsAtOnce) } := by
  simp only [step] at h
  split at h
  · rename_i hc
    cases h
    exact ⟨hc,by simp [System.connection]⟩
  · contradiction

theorem step_finishConnect {s t : System ι} {i : ι} (h : step s (.finishConnect i) = some t) :
    ∃ c, NIOClientHandler.step (s.connection i).client
        (.connectable .connected .returns (.accepts requestLength)) = some c ∧
      t.connection i = { s.connection i with client := c } := by
  obtain ⟨c,hc,rfl⟩ := Option.map_eq_some_iff.mp h
  exact ⟨c,hc,by simp [System.connection]⟩

theorem step_accept {s t : System ι} {i : ι} (h : step s (.accept i) = some t) :
    (s.connection i).client ≠ NIOClientHandler.init ∧ (s.connection i).channel = none ∧
      t.connection i = { s.connection i with channel := some ⟨⟨true,true⟩,[],[]⟩ } := by
  simp only [step] at h
  split at h
  · contradiction
  · rename_i hc
    obtain ⟨v,hv,rfl⟩ := Option.map_eq_some_iff.mp h
    obtain ⟨hnone,rfl⟩ := NIOServerHandler.step_accept hv
    exact ⟨hc,hnone,by simp [System.connection]⟩

/-- The server answers the bytes of one read as if they were a whole request. -/
theorem step_serverRead {s t : System ι} {i : ι} {n : ℕ} {now : Int64}
    (h : step s (.serverRead i n now) = some t) :
    0 < n ∧ n ≤ (s.connection i).requests.length ∧ ∃ ch, (s.connection i).channel = some ch ∧
      let reply := process (decode ((s.connection i).requests.take n)) now
      t.connection i = { s.connection i with
        channel := some { ch with
          written := ch.written ++ encode reply
          replies := ch.replies ++ [reply] }
        serverRead := (s.connection i).serverRead + n } := by
  obtain ⟨chunk,hchunk,h⟩ := Option.bind_eq_some_iff.mp h
  obtain ⟨v,hv,rfl⟩ := Option.map_eq_some_iff.mp h
  obtain ⟨hpos,hle,hbytes⟩ := readChunk_eq_some hchunk
  obtain ⟨ch,hch,_,hkey,rfl⟩ := NIOServerHandler.step_client hv
  refine ⟨hpos,hle,ch,hch,?_⟩
  rw [NIOServerHandler.processClientKey_whole hkey,hbytes]
  simp [System.connection]

theorem step_clientRead {s t : System ι} {i : ι} {n : ℕ} (h : step s (.clientRead i n) = some t) :
    0 < n ∧ n ≤ (s.connection i).replies.length ∧ t.connection i = { s.connection i with
      client := { (s.connection i).client with
        printed := (s.connection i).client.printed ++ [decode ((s.connection i).replies.take n)]
        stop := true }
      clientRead := (s.connection i).clientRead + n } := by
  obtain ⟨chunk,hchunk,h⟩ := Option.bind_eq_some_iff.mp h
  obtain ⟨c,hc,rfl⟩ := Option.map_eq_some_iff.mp h
  obtain ⟨hpos,hle,hbytes⟩ := readChunk_eq_some hchunk
  obtain ⟨_,hkey,_,rfl⟩ := NIOClientHandler.step_readable hc
  refine ⟨hpos,hle,?_⟩
  rw [NIOClientHandler.caught_bytes hkey,hbytes]
  simp [System.connection]

/-! ## What the property and the condition say -/

/-- At most one reply to a client, and never the error. -/
def OneReply (s : System ι) : Prop :=
  ∀ i ch, s.server.channels i = some ch → ch.replies.length ≤ 1 ∧ badOrder ∉ ch.replies

/-- A stopped client has printed only whole replies of the server. -/
def WholeReply (s : System ι) : Prop :=
  ∀ i, (s.client i).stop = true → ∀ v ∈ (s.client i).printed,
    ∃ ch, s.server.channels i = some ch ∧ v ∈ ch.replies

/-- The read returns everything that is in flight on its stream. -/
def ReadsAll (s : System ι) : Event ι → Prop
  | .serverRead i n _ => n = (s.connection i).requests.length
  | .clientRead i n => n = (s.connection i).replies.length
  | _ => True

instance (s : System ι) : (e : Event ι) → Decidable (ReadsAll s e)
  | .serverRead i n _ => inferInstanceAs (Decidable (n = (s.connection i).requests.length))
  | .clientRead i n => inferInstanceAs (Decidable (n = (s.connection i).replies.length))
  | .start _ _ => isTrue trivial
  | .finishConnect _ => isTrue trivial
  | .accept _ => isTrue trivial

def waiting : NIOClientHandler.State :=
  ⟨⟨true,true⟩,.read,false,false,encode queryTimeOrder,[]⟩

def connecting : NIOClientHandler.State := ⟨⟨true,true⟩,.connect,false,false,[],[]⟩

/-- Not accepted yet, or accepted and not read from. -/
def Unread (o : Option NIOServerHandler.Channel) : Prop := o = none ∨ o = some ⟨⟨true,true⟩,[],[]⟩

/-- The stages of a connection on which every read took all. -/
inductive Stage : Connection → Prop
  | idle : Stage ⟨NIOClientHandler.init,none,0,0⟩
  | connecting (ch : Option NIOServerHandler.Channel) (hch : Unread ch) : Stage ⟨connecting,ch,0,0⟩
  | requested (ch : Option NIOServerHandler.Channel) (hch : Unread ch) : Stage ⟨waiting,ch,0,0⟩
  | answered (now : Int64) :
      Stage ⟨waiting,some ⟨⟨true,true⟩,encode (valueOf now),[valueOf now]⟩,requestLength,0⟩
  | printed (now : Int64) :
      Stage ⟨{ waiting with printed := [valueOf now], stop := true },
        some ⟨⟨true,true⟩,encode (valueOf now),[valueOf now]⟩,requestLength,
        (encode (valueOf now)).length⟩

def Staged (s : System ι) : Prop := ∀ i, Stage (s.connection i)

theorem Stage.oneReply {c : Connection} (h : Stage c) {ch : NIOServerHandler.Channel}
    (hch : c.channel = some ch) : ch.replies.length ≤ 1 ∧ badOrder ∉ ch.replies := by
  have hfresh : ∀ o, Unread o → o = some ch → ch.replies.length ≤ 1 ∧ badOrder ∉ ch.replies := by
    rintro o (rfl | rfl) ho
    · contradiction
    · cases ho
      simp
  cases h with
  | idle => contradiction
  | connecting o ho => exact hfresh o ho hch
  | requested o ho => exact hfresh o ho hch
  | answered now =>
    cases hch
    simpa using (valueOf_ne_badOrder now).symm
  | printed now =>
    cases hch
    simpa using (valueOf_ne_badOrder now).symm

theorem Stage.wholeReply {c : Connection} (h : Stage c) {v : String} (hv : v ∈ c.client.printed) :
    ∃ ch, c.channel = some ch ∧ v ∈ ch.replies := by
  cases h with
  | idle => simp [NIOClientHandler.init] at hv
  | connecting ch hch => simp [NIOTimeProtocol.connecting] at hv
  | requested ch hch => simp [waiting] at hv
  | answered now => simp [waiting] at hv
  | printed now => exact ⟨_,rfl,hv⟩

omit [DecidableEq ι] in
theorem Staged.safe {s : System ι} (h : Staged s) : OneReply s ∧ WholeReply s :=
  ⟨fun i _ hch => (h i).oneReply hch,fun i _ _ hv => (h i).wholeReply hv⟩

theorem staged_of_connection {s t : System ι} {e : Event ι} (hs : Staged s) (h : step s e = some t)
    (he : Stage (t.connection e.connection)) : Staged t := by
  intro j
  by_cases hj : j = e.connection
  · exact hj ▸ he
  · rw [step_frame h hj]
    exact hs j

theorem Stage.of_requests {c : Connection} (h : Stage c) (hpos : 0 < c.requests.length)
    {ch : NIOServerHandler.Channel} (hch : c.channel = some ch) :
    c = ⟨waiting,some ⟨⟨true,true⟩,[],[]⟩,0,0⟩ ∧ ch = ⟨⟨true,true⟩,[],[]⟩ := by
  cases h with
  | idle => contradiction
  | connecting o ho => simp [Connection.requests,NIOTimeProtocol.connecting] at hpos
  | requested o ho =>
    rcases ho with rfl | rfl
    · contradiction
    · cases hch
      exact ⟨rfl,rfl⟩
  | answered now => simp [Connection.requests,waiting,requestLength] at hpos
  | printed now => simp [Connection.requests,waiting,requestLength] at hpos

theorem Stage.of_replies {c : Connection} (h : Stage c) (hpos : 0 < c.replies.length) :
    ∃ now, c = ⟨waiting,some ⟨⟨true,true⟩,encode (valueOf now),[valueOf now]⟩,requestLength,0⟩ := by
  have hfresh : ∀ o, Unread o → ∀ cl, (Connection.replies ⟨cl,o,0,0⟩).length = 0 := by
    rintro o (rfl | rfl) cl
    · rfl
    · rfl
  cases h with
  | idle => exact absurd hpos (by decide)
  | connecting o ho =>
    have hzero := hfresh o ho NIOTimeProtocol.connecting
    omega
  | requested o ho =>
    have hzero := hfresh o ho waiting
    omega
  | answered now => exact ⟨now,rfl⟩
  | printed now => simp [Connection.replies] at hpos

/-! ## Events on a connection whose reads take all -/

theorem Stage.start {c : Connection} (h : Stage c) (hc : c.client = NIOClientHandler.init)
    (connectsAtOnce : Bool) : Stage { c with
      client := NIOClientHandler.start (connectOutcome connectsAtOnce) } := by
  cases h with
  | idle =>
    cases connectsAtOnce with
    | false => exact Stage.connecting none (Or.inl rfl)
    | true => exact Stage.requested none (Or.inl rfl)
  | connecting o ho => simp [NIOTimeProtocol.connecting,NIOClientHandler.init] at hc
  | requested o ho => simp [waiting,NIOClientHandler.init] at hc
  | answered now => simp [waiting,NIOClientHandler.init] at hc
  | printed now => simp [waiting,NIOClientHandler.init] at hc

theorem Stage.finishConnect {c : Connection} (h : Stage c) {d : NIOClientHandler.State}
    (hd : NIOClientHandler.step c.client
      (.connectable .connected .returns (.accepts requestLength)) = some d) :
    Stage { c with client := d } := by
  obtain ⟨_,hkey,hinterest,rfl⟩ := NIOClientHandler.step_connectable hd
  rw [NIOClientHandler.caught_connected]
  cases h with
  | idle => contradiction
  | connecting o ho => exact Stage.requested o ho
  | requested o ho => contradiction
  | answered now => contradiction
  | printed now => contradiction

theorem Stage.accept {c : Connection} (h : Stage c) (hc : c.client ≠ NIOClientHandler.init)
    (hnone : c.channel = none) : Stage { c with channel := some ⟨⟨true,true⟩,[],[]⟩ } := by
  cases h with
  | idle => contradiction
  | connecting o ho => exact Stage.connecting _ (Or.inr rfl)
  | requested o ho => exact Stage.requested _ (Or.inr rfl)
  | answered now => contradiction
  | printed now => contradiction

theorem staged_of_step {s t : System ι} {e : Event ι} (hs : Staged s) (h : step s e = some t)
    (hall : ReadsAll s e) : Staged t := by
  apply staged_of_connection hs h
  cases e with
  | start i connectsAtOnce =>
    obtain ⟨hc,ht⟩ := step_start h
    change Stage (t.connection i)
    rw [ht]
    exact (hs i).start hc connectsAtOnce
  | finishConnect i =>
    obtain ⟨d,hd,ht⟩ := step_finishConnect h
    change Stage (t.connection i)
    rw [ht]
    exact (hs i).finishConnect hd
  | accept i =>
    obtain ⟨hc,hnone,ht⟩ := step_accept h
    change Stage (t.connection i)
    rw [ht]
    exact (hs i).accept hc hnone
  | serverRead i n now =>
    obtain ⟨hpos,hle,ch,hch,ht⟩ := step_serverRead h
    obtain ⟨hconn,rfl⟩ := (hs i).of_requests (Nat.lt_of_lt_of_le hpos hle) hch
    have hn : n = (s.connection i).requests.length := hall
    change Stage (t.connection i)
    rw [ht,hn,List.take_length,hconn]
    simp only [Connection.requests,waiting,List.drop_zero,decode_encode,process_query]
    simpa [requestLength,waiting] using Stage.answered now
  | clientRead i n =>
    obtain ⟨hpos,hle,ht⟩ := step_clientRead h
    obtain ⟨now,hconn⟩ := (hs i).of_replies (Nat.lt_of_lt_of_le hpos hle)
    have hn : n = (s.connection i).replies.length := hall
    change Stage (t.connection i)
    rw [ht,hn,List.take_length,hconn]
    simp only [Connection.replies,List.drop_zero,decode_encode]
    simpa [waiting] using Stage.printed now

/-! ## A read that cuts its stream -/

theorem process_cut_request {n : ℕ} (hn : n < requestLength) (now : Int64) :
    process (decode ((encode queryTimeOrder).take n)) now = badOrder := by
  apply process_of_length_ne
  rw [requestLength,ascii_queryTimeOrder.length_encode] at hn
  rw [ascii_queryTimeOrder.decode_take,String.length_ofList,List.length_take,String.length_toList]
  omega

theorem decode_cut_reply_ne {n : ℕ} {now : Int64} (hn : n < (encode (valueOf now)).length) :
    decode ((encode (valueOf now)).take n) ≠ valueOf now := by
  intro h
  have hlength := congrArg String.length h
  rw [(ascii_valueOf now).length_encode] at hn
  rw [(ascii_valueOf now).decode_take,String.length_ofList,List.length_take,
    String.length_toList] at hlength
  omega

theorem not_safe_of_step {s t : System ι} {e : Event ι} (hs : Staged s) (h : step s e = some t)
    (hcut : ¬ ReadsAll s e) : ¬ (OneReply t ∧ WholeReply t) := by
  cases e with
  | start i connectsAtOnce => exact absurd trivial hcut
  | finishConnect i => exact absurd trivial hcut
  | accept i => exact absurd trivial hcut
  | serverRead i n now =>
    obtain ⟨hpos,hle,ch,hch,ht⟩ := step_serverRead h
    obtain ⟨hconn,rfl⟩ := (hs i).of_requests (Nat.lt_of_lt_of_le hpos hle) hch
    have hrequests : (s.connection i).requests = encode queryTimeOrder := by
      simp [hconn,Connection.requests,waiting]
    have hne : n ≠ requestLength := fun hn => hcut (hn.trans (by rw [hrequests]; rfl))
    have hlt : n < requestLength := Nat.lt_of_le_of_ne (by rwa [hrequests] at hle) hne
    simp only [hrequests,process_cut_request hlt] at ht
    rintro ⟨hone,_⟩
    exact (hone i _ (congrArg Connection.channel ht)).2 (List.mem_singleton_self badOrder)
  | clientRead i n =>
    obtain ⟨hpos,hle,ht⟩ := step_clientRead h
    obtain ⟨now,hconn⟩ := (hs i).of_replies (Nat.lt_of_lt_of_le hpos hle)
    have hreplies : (s.connection i).replies = encode (valueOf now) := by
      simp [hconn,Connection.replies]
    have hne : n ≠ (s.connection i).replies.length := hcut
    have hlt : n < (encode (valueOf now)).length := by
      rw [hreplies] at hle hne
      omega
    rw [hreplies,hconn] at ht
    have hstop : (t.client i).stop = true := congrArg (fun c => c.client.stop) ht
    have hprinted : (t.client i).printed = [decode ((encode (valueOf now)).take n)] :=
      congrArg (fun c => c.client.printed) ht
    rintro ⟨_,hwhole⟩
    obtain ⟨ch,hch,hmem⟩ := hwhole i hstop _ (by rw [hprinted]; exact List.mem_singleton_self _)
    obtain rfl := Option.some.inj (hch.symm.trans (congrArg Connection.channel ht))
    exact decode_cut_reply_ne hlt (List.mem_singleton.mp hmem)

omit [DecidableEq ι] in
theorem staged_init : Staged (init : System ι) := fun _ => Stage.idle

/-- Every client gets one whole reply precisely when no read cuts a message. -/
theorem whole_replies_iff {events : List (Event ι)} {s : System ι}
    (hr : run step init events = some s) :
    Throughout step (fun s => OneReply s ∧ WholeReply s) init events ↔
      EachStep step ReadsAll init events :=
  throughout_iff_eachStep (fun _ => Staged.safe) (fun _ _ _ => staged_of_step)
    (fun _ _ _ => not_safe_of_step) staged_init hr

theorem whole_replies_two_clients :
    Throughout step (fun s => OneReply s ∧ WholeReply s) (init : System Bool)
      [.start true true,.start false false,.accept true,.finishConnect false,
        .serverRead true 16 7,.accept false,.serverRead false 16 42,
        .clientRead false 2,.clientRead true 1] :=
  (whole_replies_iff rfl).mpr (by decide)

/-- The server reads `QUERY` alone and answers a bad order; a client reads one
digit of its reply and stops. -/
theorem cut_reads_break_the_exchange :
    (∃ s, run step (init : System Unit) [.start () true,.accept (),.serverRead () 5 42] = some s ∧
      ¬ OneReply s) ∧
    ∃ s, run step (init : System Unit) [.start () true,.accept (),.serverRead () 16 42,
      .clientRead () 1] = some s ∧ ¬ WholeReply s := by
  refine ⟨⟨_,rfl,?_⟩,⟨_,rfl,?_⟩⟩
  · intro h
    exact (h () _ rfl).2 (by decide)
  · intro h
    obtain ⟨ch,hch,hmem⟩ := h () rfl "4" (by decide)
    cases hch
    exact absurd hmem (by decide)

end SunshineService.NIOTimeProtocol
