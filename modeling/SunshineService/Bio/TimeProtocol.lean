import SunshineService.Foundation.Delivery
import SunshineService.Foundation.Interleaving
import SunshineService.Foundation.LineReader
import SunshineService.Foundation.Pieces
import SunshineService.Utils.ProcessUtils

/-! # Blocking clients against the blocking server

The client prints the query on a line, waits for one line and closes its socket. The
handler of its connection answers line after line until the stream ends. No call fails,
either side uses the line separator of its platform, and the bytes of a stream arrive in
segments of any size. The server runs one handler for each client.
-/
namespace SunshineService.BIOTimeProtocol
open TransitionRun Delivery ProcessUtils Utf8 Constant Pieces LineReader

/-! ## The two sides of a connection -/

/-- `TimeClient`: `printed` is the line that it has got and printed. -/
structure Client where
  requested : Bool
  written : Bytes
  reader : Reader
  printed : Option String
  closed : Bool
  deriving DecidableEq

/-- `BIOHandler`: `requests` lists the arguments of `process`. -/
structure Server where
  reader : Reader
  requests : List String
  replies : List String
  written : Bytes
  returned : Bool
  deriving DecidableEq

def println (sep : Separator) (written : Bytes) (text : String) : Bytes :=
  written ++ (encode text ++ sep.bytes)

def Client.request (sep : Separator) (c : Client) : Client :=
  { c with
    requested := true
    written := println sep c.written queryTimeOrder }

/-- `readLine` returns with the first line, and the finally block closes. -/
def Client.receive (c : Client) (buf : Bytes) : Client :=
  let reader := feed c.reader buf
  match reader.lines with
  | [] => { c with reader := reader }
  | line :: _ => { c with
    reader := reader
    printed := some (decode line)
    closed := true }

def Server.answer (sep : Separator) (s : Server) (line : Bytes) (currentTimeMillis : Int64) : Server :=
  let body := decode line
  let reply := process body currentTimeMillis
  { s with
    requests := s.requests ++ [body]
    replies := s.replies ++ [reply]
    written := println sep s.written reply }

/-- The lines that a segment completes, with the time of each. -/
def Server.answers (sep : Separator) (s : Server) : List Bytes → (ℕ → Int64) → Server
  | [], _ => s
  | line :: lines, clock =>
    (s.answer sep line (clock 0)).answers sep lines (fun j => clock (j + 1))

def Server.receive (sep : Separator) (s : Server) (buf : Bytes) (clock : ℕ → Int64) : Server :=
  let reader := feed s.reader buf
  { s with reader := reader }.answers sep (reader.lines.drop s.reader.lines.length) clock

/-- The stream has ended: what is left is a last line, then `readLine` returns null. -/
def Server.endOfStream (sep : Separator) (s : Server) (currentTimeMillis : Int64) : Server :=
  if s.reader.line = [] then { s with returned := true }
  else { s.answer sep s.reader.line currentTimeMillis with returned := true }

/-! ## One connection -/

structure Exchange where
  client : Client
  server : Server
  serverRead : ℕ
  clientRead : ℕ
  deriving DecidableEq

def init : Exchange := ⟨⟨false,[],start,none,false⟩,⟨start,[],[],[],false⟩,0,0⟩

inductive Event
  | request (sep : Separator)
  | serverReceives (k : ℕ) (clock : ℕ → Int64)
  | serverEnds (currentTimeMillis : Int64)
  | clientReceives (k : ℕ)

variable (serverSep : Separator)

def step (s : Exchange) : Event → Option Exchange
  | .request sep => if s.client.requested then none else some { s with client := s.client.request sep }
  | .serverReceives k clock =>
    if s.server.returned then none
    else (segment s.client.written s.serverRead k).map (fun buf => { s with
      server := s.server.receive serverSep buf clock
      serverRead := s.serverRead + k })
  | .serverEnds currentTimeMillis =>
    if s.client.closed ∧ s.serverRead = s.client.written.length ∧ ¬ s.server.returned then
      some { s with server := s.server.endOfStream serverSep currentTimeMillis }
    else none
  | .clientReceives k =>
    if s.client.closed then none
    else (segment s.server.written s.clientRead k).map (fun buf => { s with
      client := s.client.receive buf
      clientRead := s.clientRead + k })

/-! ## What is on the streams -/

theorem plain_query : Plain (encode queryTimeOrder) := by
  have hall : (encode queryTimeOrder).all (fun b => b != 10 && b != 13) = true := by decide
  intro b hb
  simpa using List.all_eq_true.mp hall b hb

theorem plain_valueOf (now : Int64) : Plain (encode (valueOf now)) := by
  intro b hb
  rw [(ascii_valueOf now).encode_eq] at hb
  obtain ⟨c,hc,rfl⟩ := List.mem_map.mp hb
  rcases valueOf_char hc with rfl | hdigit
  · decide
  · simp only [Char.isDigit,Bool.and_eq_true,decide_eq_true_eq] at hdigit
    have hlo := UInt32.le_iff_toNat_le.mp hdigit.1
    have hhi := UInt32.le_iff_toNat_le.mp hdigit.2
    have hbyte := UInt32.toNat_toUInt8 c.val
    change 48 ≤ c.val.toNat at hlo
    change c.val.toNat ≤ 57 at hhi
    constructor
    · intro h
      rw [h] at hbyte
      change 10 = _ at hbyte
      omega
    · intro h
      rw [h] at hbyte
      change 13 = _ at hbyte
      omega

/-- Queries in, times out, each on a line of its own. -/
structure Answered (s : Server) (received : Bytes) : Prop where
  reader_eq : s.reader = feed start received
  requests_eq : s.requests = s.reader.lines.map decode
  length_eq : s.replies.length = s.requests.length
  replies : ∀ reply ∈ s.replies, ∃ now, reply = valueOf now
  written_eq : s.written = stream serverSep (s.replies.map encode)

theorem answers_returned (s : Server) (lines : List Bytes) (clock : ℕ → Int64) :
    (s.answers serverSep lines clock).returned = s.returned := by
  induction lines generalizing s clock with
  | nil => rfl
  | cons line lines ih => exact ih (s.answer serverSep line (clock 0)) (fun j => clock (j + 1))

theorem answers_eq {lines : List Bytes} (h : ∀ line ∈ lines, line = encode queryTimeOrder) (s : Server)
    (clock : ℕ → Int64) : ∃ times : List Int64, times.length = lines.length ∧
      s.answers serverSep lines clock = { s with
        requests := s.requests ++ lines.map decode
        replies := s.replies ++ times.map valueOf
        written := s.written ++ stream serverSep ((times.map valueOf).map encode) } := by
  induction lines generalizing s clock with
  | nil => exact ⟨[],rfl,by simp [Server.answers,stream]⟩
  | cons line lines ih =>
    obtain rfl := h line List.mem_cons_self
    obtain ⟨times,hlength,hrest⟩ := ih (fun l hl => h l (List.mem_cons_of_mem _ hl))
      (s.answer serverSep (encode queryTimeOrder) (clock 0)) (fun j => clock (j + 1))
    refine ⟨clock 0 :: times,by rw [List.length_cons,hlength,List.length_cons],?_⟩
    rw [Server.answers,hrest]
    simp [Server.answer,println,process_query,stream]

variable {serverSep}

theorem Answered.receive {s : Server} {received buf : Bytes} {sep : Separator} {lines : List Bytes}
    (h : Answered serverSep s received) (hlines : lines <+: [encode queryTimeOrder])
    (hpiece : received ++ buf <+: stream sep lines) (clock : ℕ → Int64) :
    Answered serverSep (s.receive serverSep buf clock) (received ++ buf) ∧
      s.written <+: (s.receive serverSep buf clock).written := by
  have hquery : ∀ line ∈ lines, line = encode queryTimeOrder :=
    fun line hline => List.mem_singleton.mp (hlines.subset hline)
  have hplain : ∀ line ∈ lines, Plain line := fun line hline => hquery line hline ▸ plain_query
  have hread : feed s.reader buf = feed start (received ++ buf) := by rw [h.reader_eq,feed_append]
  have hfirst : (feed s.reader buf).lines <+: lines := by
    rw [hread]
    exact feed_of_piece hplain hpiece
  -- the lines of this segment stand behind those that have been answered
  obtain ⟨new,hnew⟩ := feed_lines s.reader buf
  have hdrop : (feed s.reader buf).lines.drop s.reader.lines.length = new := by
    rw [← hnew,List.drop_left]
  obtain ⟨times,hlength,hanswers⟩ := answers_eq serverSep
    (fun line hline => hquery line (hfirst.subset (hnew ▸ List.mem_append_right _ hline)))
    { s with reader := feed s.reader buf } clock
  rw [Server.receive,hdrop,hanswers]
  refine ⟨⟨hread,?_,?_,?_,?_⟩,List.prefix_append _ _⟩
  · rw [← hnew,List.map_append,h.requests_eq]
  · rw [List.length_append,List.length_append,List.length_map,List.length_map,h.length_eq,hlength]
  · intro reply hreply
    rcases List.mem_append.mp hreply with hold | htime
    · exact h.replies reply hold
    · obtain ⟨now,_,rfl⟩ := List.mem_map.mp htime
      exact ⟨now,rfl⟩
  · rw [h.written_eq]
    simp [stream]

theorem Answered.plain_replies {s : Server} {received : Bytes} (h : Answered serverSep s received) :
    ∀ line ∈ s.replies.map encode, Plain line := by
  intro line hline
  obtain ⟨reply,hreply,rfl⟩ := List.mem_map.mp hline
  obtain ⟨now,rfl⟩ := h.replies reply hreply
  exact plain_valueOf now

/-! ## The invariant -/

variable (serverSep) in
structure Good (s : Exchange) : Prop where
  client : ∃ sep, s.client.written =
    stream sep (if s.client.requested then [encode queryTimeOrder] else [])
  server : Answered serverSep s.server (s.client.written.take s.serverRead)
  serverRead_le : s.serverRead ≤ s.client.written.length
  reader_eq : s.client.reader = feed start (s.server.written.take s.clientRead)
  clientRead_le : s.clientRead ≤ s.server.written.length
  printed_eq : s.client.printed = s.client.reader.lines.head?.map decode
  closed_eq : s.client.closed = s.client.printed.isSome
  returned : s.server.returned = true → s.client.closed = true

theorem good_init : Good serverSep init where
  client := ⟨.lf,rfl⟩
  server := ⟨rfl,rfl,rfl,by simp [init],rfl⟩
  serverRead_le := Nat.zero_le _
  reader_eq := rfl
  clientRead_le := Nat.zero_le _
  printed_eq := rfl
  closed_eq := rfl
  returned := fun h => absurd h (by decide)

theorem lines_of_requested (requested : Bool) :
    (if requested then [encode queryTimeOrder] else []) <+: [encode queryTimeOrder] := by
  cases requested with
  | false => exact List.nil_prefix
  | true => exact List.prefix_rfl

theorem plain_of_requested (requested : Bool) :
    ∀ line ∈ if requested then [encode queryTimeOrder] else [], Plain line := by
  intro line hline
  rw [List.mem_singleton.mp ((lines_of_requested requested).subset hline)]
  exact plain_query

theorem Good.reader_of_all {s : Exchange} (hs : Good serverSep s)
    (hall : s.serverRead = s.client.written.length) : ∃ sep, s.server.reader =
      after sep (if s.client.requested then [encode queryTimeOrder] else []) := by
  obtain ⟨sep,hsep⟩ := hs.client
  refine ⟨sep,?_⟩
  rw [hs.server.reader_eq,hall,List.take_length,hsep,feed_stream (plain_of_requested _)]

/-- A server that has received everything has no line left over. -/
theorem Good.line_eq_nil {s : Exchange} (hs : Good serverSep s)
    (hall : s.serverRead = s.client.written.length) : s.server.reader.line = [] := by
  obtain ⟨sep,hreader⟩ := hs.reader_of_all hall
  rw [hreader]
  rfl

theorem good_of_step (s : Exchange) (e : Event) (t : Exchange) (hs : Good serverSep s)
    (h : step serverSep s e = some t) : Good serverSep t := by
  cases e with
  | request sep =>
    simp only [step] at h
    split at h
    · contradiction
    · rename_i hrequested
      cases h
      obtain ⟨sep',hsep⟩ := hs.client
      rw [if_neg hrequested] at hsep
      have hempty : s.client.written = [] := hsep
      have hread := hs.serverRead_le
      rw [hempty,List.length_nil,Nat.le_zero] at hread
      refine { hs with
        client := ⟨sep,?_⟩
        server := ?_
        serverRead_le := ?_ }
      · simp [Client.request,println,hempty,stream]
      · have hserver := hs.server
        rw [hread] at hserver ⊢
        exact hserver
      · rw [hread]
        exact Nat.zero_le _
  | serverReceives k clock =>
    simp only [step] at h
    split at h
    · contradiction
    · obtain ⟨buf,hbuf,rfl⟩ := Option.map_eq_some_iff.mp h
      obtain ⟨hread,htake⟩ := segment_eq_some hbuf
      obtain ⟨sep,hsep⟩ := hs.client
      have hpiece : s.client.written.take s.serverRead ++ buf <+: s.client.written := by
        rw [htake]
        exact List.take_prefix _ _
      nth_rewrite 2 [hsep] at hpiece
      obtain ⟨hserver,hwritten⟩ := hs.server.receive (lines_of_requested _) hpiece clock
      exact {
        client := ⟨sep,hsep⟩
        server := by
          rw [← htake]
          exact hserver
        serverRead_le := hread
        reader_eq := by
          rw [take_eq_of_piece hwritten hs.clientRead_le]
          exact hs.reader_eq
        clientRead_le := hs.clientRead_le.trans hwritten.length_le
        printed_eq := hs.printed_eq
        closed_eq := hs.closed_eq
        returned := by
          rw [Server.receive,answers_returned]
          exact hs.returned }
  | serverEnds now =>
    simp only [step] at h
    split at h
    · rename_i hend
      cases h
      have hserver : s.server.endOfStream serverSep now = { s.server with returned := true } := by
        rw [Server.endOfStream,if_pos (hs.line_eq_nil hend.2.1)]
      rw [hserver]
      exact { hs with
        server := ⟨hs.server.reader_eq,hs.server.requests_eq,hs.server.length_eq,hs.server.replies,
          hs.server.written_eq⟩
        returned := fun _ => hend.1 }
    · contradiction
  | clientReceives k =>
    simp only [step] at h
    split at h
    · contradiction
    · rename_i hopen
      obtain ⟨buf,hbuf,rfl⟩ := Option.map_eq_some_iff.mp h
      obtain ⟨hread,htake⟩ := segment_eq_some hbuf
      have hreader : feed s.client.reader buf = feed start (s.server.written.take (s.clientRead + k)) := by
        rw [hs.reader_eq,← feed_append,htake]
      have hreceive : (s.client.receive buf) = { s.client with
          reader := feed s.client.reader buf
          printed := (feed s.client.reader buf).lines.head?.map decode
          closed := ((feed s.client.reader buf).lines.head?.map decode).isSome } := by
        have hprinted : s.client.printed = none := by
          rw [← Option.isNone_iff_eq_none,← Option.not_isSome,← hs.closed_eq]
          simpa using hopen
        unfold Client.receive
        cases hlines : (feed s.client.reader buf).lines with
        | nil => simp [hlines,hprinted,hs.closed_eq]
        | cons line lines => simp [hlines]
      rw [hreceive]
      exact {
        client := hs.client
        server := hs.server
        serverRead_le := hs.serverRead_le
        reader_eq := hreader
        clientRead_le := hread
        printed_eq := rfl
        closed_eq := rfl
        returned := fun hreturned => absurd (hs.returned hreturned) hopen }

theorem good_of_reachable {s : Exchange} (h : Reachable (step serverSep) init s) : Good serverSep s :=
  h.invariant good_of_step good_init

/-! ## The time that the client gets -/

/-- The clock showed `now` for a line that one of the reads had completed. -/
def Shown (as : List Event) (now : Int64) : Prop :=
  ∃ k clock j, Event.serverReceives k clock ∈ as ∧ clock j = now

theorem Shown.append {as : List Event} {now : Int64} (h : Shown as now) (bs : List Event) :
    Shown (as ++ bs) now := by
  obtain ⟨k,clock,j,hmem,hnow⟩ := h
  exact ⟨k,clock,j,List.mem_append_left bs hmem,hnow⟩

theorem mem_answers {lines : List Bytes} {s : Server} {clock : ℕ → Int64} {reply : String}
    (h : reply ∈ (s.answers serverSep lines clock).replies) :
    reply ∈ s.replies ∨ ∃ body j, reply = process body (clock j) := by
  induction lines generalizing s clock with
  | nil => exact Or.inl h
  | cons line lines ih =>
    rcases ih h with hold | ⟨body,j,rfl⟩
    · rcases List.mem_append.mp hold with hold | hnew
      · exact Or.inl hold
      · exact Or.inr ⟨decode line,0,List.mem_singleton.mp hnew⟩
    · exact Or.inr ⟨body,j + 1,rfl⟩

/-- A reply is the time that the clock showed at the read of its line. -/
theorem shown_of_step (as : List Event) (s : Exchange) (e : Event) (t : Exchange)
    (hr : run (step serverSep) init as = some s)
    (hs : ∀ reply ∈ s.server.replies, ∃ now, Shown as now ∧ reply = valueOf now)
    (h : step serverSep s e = some t) :
    ∀ reply ∈ t.server.replies, ∃ now, Shown (as ++ [e]) now ∧ reply = valueOf now := by
  have hgood := good_of_reachable ⟨as,hr⟩
  have ht := good_of_step s e t hgood h
  have hkept : ∀ reply ∈ s.server.replies, ∃ now, Shown (as ++ [e]) now ∧ reply = valueOf now := by
    intro reply hmem
    obtain ⟨now,hnow,heq⟩ := hs reply hmem
    exact ⟨now,hnow.append [e],heq⟩
  cases e with
  | request sep =>
    simp only [step] at h
    split at h
    · contradiction
    · cases h
      exact hkept
  | serverReceives k clock =>
    simp only [step] at h
    split at h
    · contradiction
    · obtain ⟨buf,_,rfl⟩ := Option.map_eq_some_iff.mp h
      intro reply hmem
      rcases mem_answers hmem with hold | ⟨body,j,rfl⟩
      · exact hkept reply hold
      · refine ⟨clock j,⟨k,clock,j,List.mem_append_right as List.mem_cons_self,rfl⟩,?_⟩
        obtain ⟨now,hnow⟩ := ht.server.replies _ hmem
        rcases process_time_or_badOrder body (clock j) with hbad | htime
        · exact absurd (hnow.symm.trans hbad) (valueOf_ne_badOrder now)
        · exact htime
  | serverEnds now =>
    simp only [step] at h
    split at h
    · rename_i hend
      cases h
      rw [Server.endOfStream,if_pos (hgood.line_eq_nil hend.2.1)]
      exact hkept
    · contradiction
  | clientReceives k =>
    simp only [step] at h
    split at h
    · contradiction
    · obtain ⟨buf,_,rfl⟩ := Option.map_eq_some_iff.mp h
      exact hkept

/-- One query, one time of the server's clock for it, and the client prints that time. -/
structure Exchanged (as : List Event) (s : Exchange) : Prop where
  requests : s.server.requests <+: [queryTimeOrder]
  length_eq : s.server.replies.length = s.server.requests.length
  time : ∀ reply ∈ s.server.replies, ∃ now, Shown as now ∧ reply = valueOf now
  printed : ∀ text, s.client.printed = some text → s.server.replies = [text]
  closed_iff : s.client.closed = true ↔ s.client.printed.isSome = true
  returned : s.server.returned = true → s.client.closed = true

theorem exchanged_of_own {as : List Event} {s : Exchange} (hr : run (step serverSep) init as = some s) :
    Exchanged as s := by
  have hs := good_of_reachable ⟨as,hr⟩
  have htime := run_history (by simp [init]) shown_of_step hr
  obtain ⟨sep,hsep⟩ := hs.client
  have hpiece : s.client.written.take s.serverRead <+:
      stream sep (if s.client.requested then [encode queryTimeOrder] else []) := by
    rw [← hsep]
    exact List.take_prefix _ _
  have hrequests : s.server.requests <+: [queryTimeOrder] := by
    have hlines := (feed_of_piece (plain_of_requested _) hpiece).trans (lines_of_requested _)
    rw [← hs.server.reader_eq] at hlines
    have hdecoded := hlines.map decode
    rwa [← hs.server.requests_eq,List.map_singleton,decode_encode] at hdecoded
  refine ⟨hrequests,hs.server.length_eq,htime,?_,by rw [hs.closed_eq],hs.returned⟩
  intro text htext
  have hback : s.server.written.take s.clientRead <+: stream serverSep (s.server.replies.map encode) := by
    rw [← hs.server.written_eq]
    exact List.take_prefix _ _
  have hlines := (feed_of_piece hs.server.plain_replies hback).map decode
  have hsame : (s.server.replies.map encode).map decode = s.server.replies := by
    simp [Function.comp_def]
  rw [hsame,← hs.reader_eq] at hlines
  rw [hs.printed_eq] at htext
  obtain ⟨line,hline,rfl⟩ := Option.map_eq_some_iff.mp htext
  have hlength : s.server.replies.length ≤ 1 := by
    rw [hs.server.length_eq]
    exact hrequests.length_le
  obtain ⟨rest,hrest⟩ := List.head?_eq_some_iff.mp hline
  rw [hrest,List.map_cons] at hlines
  obtain ⟨more,hmore⟩ := hlines
  rw [← hmore] at hlength ⊢
  simp only [List.cons_append,List.length_cons] at hlength
  rw [List.cons_append,List.eq_nil_of_length_eq_zero (by omega : (rest.map decode ++ more).length = 0)]

/-! ## Every exchange can end -/

theorem Good.of_reachable {s t : Exchange} (hs : Good serverSep s)
    (h : Reachable (step serverSep) s t) : Good serverSep t := h.invariant good_of_step hs

/-- The server reads what is still on its way. -/
theorem Good.read_rest {s : Exchange} (hs : Good serverSep s) (hreturned : s.server.returned = false) :
    ∃ t, Reachable (step serverSep) s t ∧ t.client = s.client ∧
      t.serverRead = t.client.written.length ∧ t.server.returned = false := by
  rcases Nat.lt_or_ge s.serverRead s.client.written.length with hlt | hge
  · obtain ⟨buf,hbuf⟩ := segment_rest hlt
    have hstep : step serverSep s (.serverReceives (s.client.written.length - s.serverRead) (fun _ => 0)) =
        some { s with
          server := s.server.receive serverSep buf (fun _ => 0)
          serverRead := s.serverRead + (s.client.written.length - s.serverRead) } := by
      simp only [step,hreturned,hbuf]
      rfl
    refine ⟨_,Reachable.single hstep,rfl,?_,?_⟩
    · exact Nat.add_sub_of_le hlt.le
    · rw [Server.receive,answers_returned]
      exact hreturned
  · exact ⟨s,Reachable.refl s,rfl,le_antisymm hs.serverRead_le hge,hreturned⟩

theorem send_query (s : Exchange) :
    ∃ t, Reachable (step serverSep) s t ∧ t.client.requested = true := by
  by_cases hrequested : s.client.requested = true
  · exact ⟨s,Reachable.refl s,hrequested⟩
  · have hstep : step serverSep s (.request .lf) = some { s with client := s.client.request .lf } := by
      simp only [step,hrequested]
      rfl
    exact ⟨_,Reachable.single hstep,rfl⟩

/-- A server that has read the query has answered it, so the client can get its line. -/
theorem Good.get_reply {s : Exchange} (hs : Good serverSep s) (hrequested : s.client.requested = true)
    (hall : s.serverRead = s.client.written.length) :
    ∃ t, Reachable (step serverSep) s t ∧ t.client.closed = true := by
  by_cases hclosed : s.client.closed = true
  · exact ⟨s,Reachable.refl s,hclosed⟩
  have hreply : s.server.replies.map encode ≠ [] := by
    obtain ⟨sep,hreader⟩ := hs.reader_of_all hall
    rw [if_pos hrequested] at hreader
    have hlength := hs.server.length_eq
    rw [hs.server.requests_eq,hreader,List.length_map] at hlength
    intro hnil
    rw [List.map_eq_nil_iff.mp hnil] at hlength
    contradiction
  -- whoever has received the whole reply has closed
  have hprints : ∀ t, Good serverSep t → t.server = s.server → t.clientRead = t.server.written.length →
      t.client.closed = true := by
    intro t ht hserver hread
    have hreader : t.client.reader.lines = s.server.replies.map encode := by
      rw [ht.reader_eq,hread,List.take_length,hserver,hs.server.written_eq,
        feed_stream hs.server.plain_replies]
      rfl
    rw [ht.closed_eq,ht.printed_eq,hreader,Option.isSome_map,List.isSome_head?]
    simpa using hreply
  rcases Nat.lt_or_ge s.clientRead s.server.written.length with hlt | hge
  · obtain ⟨buf,hbuf⟩ := segment_rest hlt
    have hstep : step serverSep s (.clientReceives (s.server.written.length - s.clientRead)) =
        some { s with
          client := s.client.receive buf
          clientRead := s.clientRead + (s.server.written.length - s.clientRead) } := by
      simp only [step,hclosed,hbuf]
      rfl
    exact ⟨_,Reachable.single hstep,hprints _ (good_of_step s _ _ hs hstep) rfl (Nat.add_sub_of_le hlt.le)⟩
  · exact absurd (hprints s hs rfl (le_antisymm hs.clientRead_le hge)) hclosed

theorem Good.finish {s : Exchange} (hs : Good serverSep s) (hclosed : s.client.closed = true) :
    ∃ t, Reachable (step serverSep) s t ∧ t.client.printed.isSome = true ∧ t.server.returned = true := by
  have hprinted : s.client.printed.isSome = true := hs.closed_eq.symm.trans hclosed
  by_cases hreturned : s.server.returned = true
  · exact ⟨s,Reachable.refl s,hprinted,hreturned⟩
  · obtain ⟨t,hst,hclient,hall,hrunning⟩ := hs.read_rest (by simpa using hreturned)
    have ht := hs.of_reachable hst
    have hstep : step serverSep t (.serverEnds 0) =
        some { t with server := { t.server with returned := true } } := by
      rw [step,if_pos ⟨hclient ▸ hclosed,hall,by simp [hrunning]⟩,Server.endOfStream,
        if_pos (ht.line_eq_nil hall)]
    exact ⟨_,hst.tail hstep,by rw [← hclient] at hprinted; exact hprinted,rfl⟩

theorem Good.can_end {s : Exchange} (hs : Good serverSep s) :
    ∃ t, Reachable (step serverSep) s t ∧ t.client.printed.isSome = true ∧ t.server.returned = true := by
  obtain ⟨t,hst,hrequested⟩ := send_query s
  have ht := hs.of_reachable hst
  by_cases hclosed : t.client.closed = true
  · obtain ⟨u,htu,hu⟩ := ht.finish hclosed
    exact ⟨u,hst.trans htu,hu⟩
  · have hrunning : t.server.returned = false := by
      rw [← Bool.not_eq_true]
      exact fun hreturned => hclosed (ht.returned hreturned)
    obtain ⟨u,htu,hclient,hall,_⟩ := ht.read_rest hrunning
    have hu := ht.of_reachable htu
    obtain ⟨v,huv,hv⟩ := hu.get_reply (hclient ▸ hrequested) hall
    obtain ⟨w,hvw,hw⟩ := (hu.of_reachable huv).finish hv
    exact ⟨w,((hst.trans htu).trans huv).trans hvw,hw⟩

/-! ## Any number of clients -/

/-- Each client gets the time that its own handler answered, however the streams of all
connections are cut and their steps are mixed. -/
theorem exchanged_of_run {as : List (Interleaving.Action Event)} {cs : List Exchange}
    (hr : run (Interleaving.step (step serverSep) init) [] as = some cs) :
    ∀ i c, cs[i]? = some c → Exchanged (Interleaving.own i as) c :=
  fun i c hc => exchanged_of_own ((Interleaving.run_own hr).2 i c hc)

/-- Two clients with different separators; the first segment ends inside one. -/
def twoClients : List (Interleaving.Action Event) :=
  [.spawn,.act 0 (.request .crlf),.spawn,.act 0 (.serverReceives 17 (fun _ => 7)),.act 1 (.request .cr),
    .act 1 (.serverReceives 5 (fun _ => 8)),.act 0 (.clientReceives 1),.act 0 (.clientReceives 1),
    .act 0 (.serverReceives 1 (fun _ => 9)),.act 0 (.serverEnds 9)]

set_option maxRecDepth 4000 in
/-- The first client has printed its time, the second one waits. -/
theorem exchanged_two_clients :
    ∃ cs, run (Interleaving.step (step .lf) init) [] twoClients = some cs ∧
      cs.map (fun c => c.client.printed) = [some "7",none] ∧
      ∀ i c, cs[i]? = some c → Exchanged (Interleaving.own i twoClients) c := by
  obtain ⟨cs,hr,hprinted⟩ : ∃ cs, run (Interleaving.step (step .lf) init) [] twoClients = some cs ∧
      cs.map (fun c => c.client.printed) = [some "7",none] := ⟨_,rfl,by decide⟩
  exact ⟨cs,hr,hprinted,exchanged_of_run hr⟩

/-- A client and its handler can always finish, and the others need not take part. -/
theorem exchange_can_finish {as : List (Interleaving.Action Event)} {cs : List Exchange}
    (hr : run (Interleaving.step (step serverSep) init) [] as = some cs) {i : ℕ} {c : Exchange}
    (hc : cs[i]? = some c) :
    ∃ (bs : List Event) (d : Exchange),
      run (Interleaving.step (step serverSep) init) cs (bs.map (.act i)) = some (cs.set i d) ∧
        d.client.printed.isSome = true ∧ d.server.returned = true := by
  have hgood := Interleaving.forall_of_run good_of_step good_init hr c (List.mem_of_getElem? hc)
  obtain ⟨d,⟨bs,hbs⟩,hd⟩ := hgood.can_end
  exact ⟨bs,d,Interleaving.run_act hc hbs,hd⟩

/-- The first client gets its time while the second one never sends anything. -/
theorem exchange_can_finish_beside_idle_client :
    ∃ (bs : List Event) (d : Exchange),
      run (Interleaving.step (step .crlf) init) [init,init] (bs.map (.act 0)) =
          some ([init,init].set 0 d) ∧
        d.client.printed.isSome = true ∧ d.server.returned = true := by
  have hr : run (Interleaving.step (step .crlf) init) [] [.spawn,.spawn] = some [init,init] := rfl
  exact exchange_can_finish hr rfl

end SunshineService.BIOTimeProtocol
