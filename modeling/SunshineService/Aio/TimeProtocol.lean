import SunshineService.Aio.ClientHandler
import SunshineService.Aio.ServerHandler

/-! # One AIO client against the AIO server

Every operation succeeds. The writes of either side may be split in any way, and the
bytes of a direction then arrive in one read, once all of them have been written.
-/
namespace SunshineService.AIOTimeProtocol
open TransitionRun ProcessUtils Utf8 Constant AIOClientHandler AIOServerHandler

structure System where
  client : AIOClientHandler.State
  server : AIOServerHandler.Connection

def init : System := ⟨AIOClientHandler.init,accepted⟩

inductive Event
  | connected
  | clientWrite (n : ℕ)
  | serverRead (currentTimeMillis : Int64)
  | serverWrite (n : ℕ)
  | clientRead

def isWrite : Operation → Bool
  | .write _ => true
  | _ => false

/-- Something was written and no write is still going on. -/
def arrived (channel : AsyncChannel) (outstanding : List Operation) : Bool :=
  !outstanding.any isWrite && !channel.written.isEmpty

def clientStep (s : System) (o : Completion) : Option System :=
  (AIOClientHandler.step encode s.client (0,o)).map (fun c => { s with client := c })

def serverStep (s : System) (o : Completion) (currentTimeMillis : Int64) : Option System :=
  (AIOServerHandler.step s.server (0,o,currentTimeMillis)).map (fun v => { s with server := v })

def step (s : System) : Event → Option System
  | .connected => clientStep s .connected
  | .clientWrite n => clientStep s (.accepted n)
  | .serverRead currentTimeMillis =>
    if arrived s.client.channel s.client.outstanding then
      serverStep s (.received s.client.channel.written) currentTimeMillis
    else none
  | .serverWrite n => serverStep s (.accepted n) 0
  | .clientRead =>
    if arrived s.server.channel s.server.outstanding then
      clientStep s (.received s.server.channel.written)
    else none

/-- What `put` in place of `get` leaves in the array of the client. -/
def zeros (reply : String) : String := String.ofList (List.replicate (encode reply).length '\x00')

inductive Stage : System → Prop
  | connecting : Stage init
  | requesting (written : Bytes) (src : ByteBuffer)
      (hsrc : written ++ src.contents = encode queryTimeOrder) : Stage ⟨writing written src,accepted⟩
  | requested : Stage ⟨reading (encode queryTimeOrder),accepted⟩
  | replying (now : Int64) (written : Bytes) (src : ByteBuffer)
      (hsrc : written ++ src.contents = encode (valueOf now)) :
      Stage ⟨reading (encode queryTimeOrder),replying queryTimeOrder (valueOf now) written src⟩
  | replied (now : Int64) : Stage ⟨reading (encode queryTimeOrder),
      replied queryTimeOrder (valueOf now) (encode (valueOf now))⟩
  | printed (now : Int64) : Stage ⟨answered (encode queryTimeOrder) (zeros (valueOf now)),
      replied queryTimeOrder (valueOf now) (encode (valueOf now))⟩

/-! ## The one event of each stage -/

theorem no_step {s t : System} {e : Event} (hnone : step s e = none) (h : step s e = some t) :
    False := by
  rw [hnone] at h
  contradiction

theorem stage_of_connecting {t : System} {e : Event} (h : step init e = some t) : Stage t := by
  cases e with
  | connected =>
    simp only [step,clientStep] at h
    obtain ⟨c,hc,rfl⟩ := Option.map_eq_some_iff.mp h
    rcases step_connecting encode hc with ⟨src,hsrc,rfl⟩ | ⟨ho,_⟩
    · exact Stage.requesting [] src hsrc
    · contradiction
  | _ => exact (no_step rfl h).elim

theorem stage_of_requesting {written : Bytes} {src : ByteBuffer} {t : System} {e : Event}
    (hsrc : written ++ src.contents = encode queryTimeOrder)
    (h : step ⟨writing written src,accepted⟩ e = some t) : Stage t := by
  cases e with
  | clientWrite n =>
    obtain ⟨c,hc,rfl⟩ := Option.map_eq_some_iff.mp h
    rcases step_writing encode hsrc hc with ⟨bytes,rest,hrest,rfl⟩ | rfl | ⟨ho,_⟩
    · exact Stage.requesting bytes rest hrest
    · exact Stage.requested
    · contradiction
  | _ => exact (no_step rfl h).elim

theorem contents_of_received {bytes : Bytes} {dst : ByteBuffer} (h : bytes.length ≤ readCapacity)
    (hdst : Operation.complete (.read (.allocate readCapacity)) (.received bytes) =
      some (.filled dst)) : dst.flip.contents = bytes := by
  obtain ⟨filled,hfilled,hcontents⟩ := Operation.complete_received h
  cases hfilled.symm.trans hdst
  exact hcontents

theorem stage_of_requested {t : System} {e : Event}
    (h : step ⟨reading (encode queryTimeOrder),accepted⟩ e = some t) : Stage t := by
  cases e with
  | serverRead now =>
    simp only [step] at h
    split at h
    · obtain ⟨v,hv,rfl⟩ := Option.map_eq_some_iff.mp h
      rcases step_accepted hv with ⟨dst,src,hdst,hsrc,rfl⟩ | ⟨ho,_⟩
      · have hcontents : dst.flip.contents = encode queryTimeOrder :=
          contents_of_received (by decide) hdst
        rw [hcontents,decode_encode,process_query] at hsrc ⊢
        exact Stage.replying now [] src hsrc
      · contradiction
    · contradiction
  | _ => exact (no_step rfl h).elim

theorem stage_of_replying {now : Int64} {written : Bytes} {src : ByteBuffer} {t : System} {e : Event}
    (hsrc : written ++ src.contents = encode (valueOf now))
    (h : step ⟨reading (encode queryTimeOrder),replying queryTimeOrder (valueOf now) written src⟩ e =
      some t) : Stage t := by
  cases e with
  | serverWrite n =>
    obtain ⟨v,hv,rfl⟩ := Option.map_eq_some_iff.mp h
    rcases step_replying hsrc hv with ⟨bytes,rest,hrest,rfl⟩ | rfl | ⟨ho,_⟩
    · exact Stage.replying now bytes rest hrest
    · exact Stage.replied now
    · contradiction
  | _ => exact (no_step rfl h).elim

theorem length_encode_valueOf_le (now : Int64) : (encode (valueOf now)).length ≤ readCapacity := by
  rw [(ascii_valueOf now).length_encode]
  exact (length_valueOf_le now).trans (by decide)

theorem stage_of_replied {now : Int64} {t : System} {e : Event}
    (h : step ⟨reading (encode queryTimeOrder),
      replied queryTimeOrder (valueOf now) (encode (valueOf now))⟩ e = some t) : Stage t := by
  cases e with
  | clientRead =>
    simp only [step] at h
    split at h
    · obtain ⟨c,hc,rfl⟩ := Option.map_eq_some_iff.mp h
      rcases step_reading encode hc with ⟨dst,hdst,rfl⟩ | ⟨ho,_⟩
      · have hcontents := contents_of_received (length_encode_valueOf_le now) hdst
        rw [← ByteBuffer.length_contents,hcontents,decode_replicate_zero]
        exact Stage.printed now
      · contradiction
    · contradiction
  | _ => exact (no_step rfl h).elim

theorem step_printed (now : Int64) (e : Event) :
    step ⟨answered (encode queryTimeOrder) (zeros (valueOf now)),
      replied queryTimeOrder (valueOf now) (encode (valueOf now))⟩ e = none := by
  cases e with
  | clientRead =>
    simp only [step]
    split
    · rfl
    · rfl
  | _ => rfl

theorem stage_of_step (s : System) (e : Event) (t : System) (hs : Stage s)
    (h : step s e = some t) : Stage t := by
  cases hs with
  | connecting => exact stage_of_connecting h
  | requesting written src hsrc => exact stage_of_requesting hsrc h
  | requested => exact stage_of_requested h
  | replying now written src hsrc => exact stage_of_replying hsrc h
  | replied now => exact stage_of_replied h
  | printed now => exact (no_step (step_printed now e) h).elim

/-! ## The end of an exchange -/

/-- The server was asked the query and the client prints what the server answered. -/
def EndToEnd (s : System) : Prop :=
  s.server.requests = [queryTimeOrder] ∧ s.client.printed = s.server.replies

theorem zeros_ne {reply : String} (hne : reply ≠ "") (hnul : '\x00' ∉ reply.toList) :
    zeros reply ≠ reply := by
  intro h
  rw [← h,zeros,String.toList_ofList] at hnul
  have hempty : (encode reply).length = 0 := by
    by_contra hlength
    exact hnul (List.mem_replicate.mpr ⟨hlength,rfl⟩)
  apply hne
  rw [← h,zeros,hempty]
  rfl

theorem zeros_valueOf_ne (now : Int64) : zeros (valueOf now) ≠ valueOf now := by
  apply zeros_ne (valueOf_ne_empty now)
  intro hnul
  rcases valueOf_char hnul with h | h
  · exact absurd h (by decide)
  · exact absurd h (by decide)

/-! ## Every exchange can come to its end -/

def Ends (s : System) : Prop := ∃ events t, run step s events = some t ∧ t.client.latch = 0

theorem ends_of_step {s t : System} {e : Event} (h : step s e = some t) (ht : Ends t) : Ends s := by
  obtain ⟨events,u,hr,hu⟩ := ht
  refine ⟨e :: events,u,?_,hu⟩
  rw [run_cons,h,Option.bind_some,hr]

theorem arrived_valueOf (now : Int64) : arrived ⟨true,encode (valueOf now)⟩ [] = true := by
  have hne : encode (valueOf now) ≠ [] := by
    intro hnil
    have hlength := (ascii_valueOf now).length_encode
    rw [hnil,List.length_nil] at hlength
    exact valueOf_ne_empty now (String.length_eq_zero_iff.mp hlength.symm)
  simp [arrived,hne]

theorem ends_replied (now : Int64) : Ends ⟨reading (encode queryTimeOrder),
    replied queryTimeOrder (valueOf now) (encode (valueOf now))⟩ := by
  obtain ⟨res,hres⟩ :=
    step_reading_received encode (encode queryTimeOrder) (length_encode_valueOf_le now)
  refine ⟨[.clientRead],⟨answered (encode queryTimeOrder) res,
    replied queryTimeOrder (valueOf now) (encode (valueOf now))⟩,?_,rfl⟩
  have harrived := arrived_valueOf now
  simp only [run_cons,step,clientStep,replied,harrived,↓reduceIte,hres]
  rfl

theorem ends_replying {now : Int64} {written : Bytes} {src : ByteBuffer}
    (hsrc : written ++ src.contents = encode (valueOf now)) :
    Ends ⟨reading (encode queryTimeOrder),replying queryTimeOrder (valueOf now) written src⟩ := by
  have hstep : step ⟨reading (encode queryTimeOrder),replying queryTimeOrder (valueOf now) written src⟩
      (.serverWrite src.remaining) = some ⟨reading (encode queryTimeOrder),
        replied queryTimeOrder (valueOf now) (encode (valueOf now))⟩ := by
    simp only [step,serverStep,step_replying_whole,Option.map_some,hsrc]
  exact ends_of_step hstep (ends_replied now)

theorem ends_requested : Ends ⟨reading (encode queryTimeOrder),accepted⟩ := by
  obtain ⟨dst,hdst,hcontents⟩ := Operation.complete_received
    (show (encode queryTimeOrder).length ≤ readCapacity by decide)
  obtain ⟨src,hsrc,hreply⟩ := step_accepted_filled hdst 0
  rw [hcontents,decode_encode,process_query] at hsrc hreply
  have hstep : step ⟨reading (encode queryTimeOrder),accepted⟩ (.serverRead 0) =
      some ⟨reading (encode queryTimeOrder),replying queryTimeOrder (valueOf 0) [] src⟩ := by
    have harrived : arrived (reading (encode queryTimeOrder)).channel
        (reading (encode queryTimeOrder)).outstanding = true := by decide
    simp only [step,harrived,↓reduceIte]
    exact congrArg (Option.map _) hreply
  exact ends_of_step hstep (ends_replying hsrc)

theorem ends_requesting {written : Bytes} {src : ByteBuffer}
    (hsrc : written ++ src.contents = encode queryTimeOrder) : Ends ⟨writing written src,accepted⟩ := by
  have hstep : step ⟨writing written src,accepted⟩ (.clientWrite src.remaining) =
      some ⟨reading (encode queryTimeOrder),accepted⟩ := by
    simp only [step,clientStep,step_writing_whole,Option.map_some,hsrc]
  exact ends_of_step hstep ends_requested

/-- Whatever has happened so far, an exchange can be brought to its end. -/
theorem exchange_can_end {s : System} (h : Reachable step init s) : Ends s := by
  have hstage := h.invariant stage_of_step Stage.connecting
  cases hstage with
  | connecting =>
    obtain ⟨src,hsrc,hconnected⟩ := step_connecting_connected encode
    have hstep : step init .connected = some ⟨writing [] src,accepted⟩ := by
      simp only [step,clientStep]
      exact congrArg (Option.map _) hconnected
    exact ends_of_step hstep (ends_requesting hsrc)
  | requesting written src hsrc => exact ends_requesting hsrc
  | requested => exact ends_requested
  | replying now written src hsrc => exact ends_replying hsrc
  | replied now => exact ends_replied now
  | printed now => exact ⟨[],_,rfl,rfl⟩

/-- Every exchange that comes to its end has asked the query, was answered with a clock
value and has printed as many NUL characters instead. -/
theorem exchange_prints_zeros {s : System} (h : Reachable step init s) (hdone : s.client.latch = 0) :
    s.server.requests = [queryTimeOrder] ∧
      (∃ now, s.server.replies = [valueOf now] ∧ s.client.printed = [zeros (valueOf now)]) ∧
      ¬ EndToEnd s := by
  have hstage := h.invariant stage_of_step Stage.connecting
  cases hstage with
  | connecting => contradiction
  | requesting written src hsrc => contradiction
  | requested => contradiction
  | replying now written src hsrc => contradiction
  | replied now => contradiction
  | printed now =>
    refine ⟨rfl,⟨now,rfl,rfl⟩,?_⟩
    rintro ⟨_,hprinted⟩
    exact zeros_valueOf_ne now (List.singleton_injective hprinted)

theorem exchange_prints_two_zeros :
    ∃ s, run step init [.connected,.clientWrite 5,.clientWrite 11,.serverRead 42,.serverWrite 1,
        .serverWrite 1,.clientRead] = some s ∧
      s.server.requests = [queryTimeOrder] ∧
      (∃ now, s.server.replies = [valueOf now] ∧ s.client.printed = [zeros (valueOf now)]) ∧
      ¬ EndToEnd s :=
  ⟨_,rfl,exchange_prints_zeros ⟨[.connected,.clientWrite 5,.clientWrite 11,.serverRead 42,
    .serverWrite 1,.serverWrite 1,.clientRead],rfl⟩ rfl⟩

/-- The shortest exchange, at time 42. -/
theorem exchange_loses_reply :
    ∃ s, run step init [.connected,.clientWrite 16,.serverRead 42,.serverWrite 2,.clientRead] = some s ∧
      s.server.replies = ["42"] ∧ s.client.printed = ["\x00\x00"] ∧ ¬ EndToEnd s := by
  refine ⟨_,rfl,by decide,by decide,?_⟩
  rintro ⟨_,hprinted⟩
  exact absurd hprinted (by decide)

end SunshineService.AIOTimeProtocol
