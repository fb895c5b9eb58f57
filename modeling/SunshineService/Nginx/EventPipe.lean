import SunshineService.Nginx.ChunkedLength

/-! # The event pipe behind the proxy

The pipe collects raw bytes in buffers. It passes a buffer to the chunked filter when
the buffer is full, and a partly filled one when it holds the minimal amount the filter
named last. So a response that has arrived whole may still wait in a buffer.
-/
namespace SunshineService.Nginx.Chunked
open StreamMachine Utf8

/-- `raw` is what the first free raw buffer holds. In the buffer that came with the header,
`front` stands before it. -/
structure Pipe where
  ctx : Ctx
  length : ℤ
  front : Bytes
  raw : Bytes
  bufs : List Linked
  upstreamDone : Bool
  upstreamEof : Bool
  connectionClose : Bool
  keepalive : Bool
  deriving DecidableEq

def Pipe.init (header : Bytes) (close : Bool) : Pipe :=
  ⟨⟨start,0⟩,3,header,[],[],false,false,close,false⟩

/-- The buffer holds `front` from its start on, and `buf` is the part that is to be read. -/
def chunkedFilter (p : Pipe) (front buf : Bytes) : Outcome × Pipe :=
  if buf = [] then (.again,p)
  else
    let f := runFilter (front ++ buf) p.ctx buf
    let p := { p with ctx := f.ctx,bufs := p.bufs ++ f.bufs }
    match f.outcome with
    | .done => (.done,{ p with upstreamDone := true,keepalive := !p.connectionClose })
    | .again => (.again,{ p with length := f.ctx.length })
    | o => (o,p)

/-- The filter returned an error, its position left the buffer, or it never returns. -/
def Outcome.failed (o : Outcome) : Bool := o = .invalid || o = .outside || o = .endless

/-- The first raw buffer is passed on, and another one takes its place. -/
def passBuffer (p : Pipe) (buf : Bytes) : Outcome × Pipe :=
  chunkedFilter { p with front := [],raw := [] } p.front buf

/-- Bytes that reach the end of their buffers are passed on, buffer by buffer. -/
def passFull (p : Pipe) : List Bytes → Outcome × Pipe
  | [] => (.again,p)
  | full :: more =>
    let r := passBuffer p (p.raw ++ full)
    if r.1.failed then r else passFull r.2 more

/-- What one call of `recv_chain` brings: the bytes that fill buffers, and those that do
not fill the last one. -/
structure Received where
  full : List Bytes
  part : Bytes

def Received.bytes (r : Received) : Bytes := r.full.flatten ++ r.part

def readLoop (p : Pipe) : List Received → Outcome × Pipe
  | [] => (.again,p)
  | r :: more =>
    if p.upstreamDone then (.again,p)
    else
      let q := passFull p r.full
      if q.1.failed then q else readLoop { q.2 with raw := q.2.raw ++ r.part } more

/-- A partly filled buffer that holds the minimal amount is passed on. -/
def passMinimal (p : Pipe) : Outcome × Pipe :=
  if p.length ≠ -1 ∧ p.length ≤ p.raw.length then passBuffer p p.raw
  else (.again,p)

def passAtEof (p : Pipe) : Outcome × Pipe :=
  if p.upstreamEof then passBuffer p p.raw else (.again,p)

/-- One call, with what `recv_chain` brings until it has no more, and whether it then
reports the end of the stream. -/
def readUpstream (p : Pipe) (received : List Received) (eof : Bool) : Outcome × Pipe :=
  if p.upstreamEof ∨ p.upstreamDone then (.again,p)
  else
    let r := readLoop p received
    if r.1.failed then r
    else
      let p := { r.2 with upstreamEof := eof && !r.2.upstreamDone }
      let r := passMinimal p
      if r.1.failed then r
      else
        let p := { r.2 with upstreamDone := r.2.upstreamDone || r.2.length = 0 }
        passAtEof p

/-- The calls for the events of one response, until one fails. -/
def readEvents (p : Pipe) : List (List Received) → Outcome × Pipe
  | [] => (.again,p)
  | received :: more =>
    let r := readUpstream p received false
    if r.1.failed then r else readEvents r.2 more

def receivedBytes (received : List Received) : Bytes := (received.map Received.bytes).flatten

/-! What a pipe has received of a response. -/

/-- The response goes on: the filter has read `c`, the rest is raw. -/
structure Open (p : Pipe) (s : Bytes) : Prop where
  notDone : p.upstreamDone = false
  split : ∃ c d, s = c ++ p.raw ∧ dataOf p.bufs = some d ∧
    feed turn start c = ⟨d,.again p.ctx.toPlace⟩
  length : p.length = minimalLength p.ctx.toPlace

structure Closed (p : Pipe) (s : Bytes) : Prop where
  done : p.upstreamDone = true
  raw : p.raw = []
  ended : ∃ d, dataOf p.bufs = some d ∧ feed turn start s = ⟨d,.stopped .done []⟩

def Piped (p : Pipe) (s : Bytes) : Prop := Open p s ∨ Closed p s

/-- A whole response of which `s` has arrived so far. -/
structure Arriving (whole d s : Bytes) : Prop where
  ended : feed turn start whole = ⟨d,.stopped .done []⟩
  arrived : s <+: whole

theorem Arriving.of_append {whole d s t : Bytes} (h : Arriving whole d (s ++ t)) : Arriving whole d s :=
  ⟨h.ended,(List.prefix_append s t).trans h.arrived⟩

theorem Closed.eq_nil {p : Pipe} {whole d s t : Bytes} (h : Closed p s)
    (hw : Arriving whole d (s ++ t)) : t = [] := by
  obtain ⟨rest,hrest⟩ := hw.arrived
  obtain ⟨e,-,hs⟩ := h.ended
  have hended := hw.ended
  rw [← hrest,List.append_assoc,feed_append,hs] at hended
  have hstand := congrArg Fed.stand hended
  simp only [Fed.andThen,Stand.stopped.injEq,List.nil_append,List.append_eq_nil_iff] at hstand
  exact hstand.2.1

theorem passBuffer_nil (p : Pipe) : passBuffer p [] = (.again,{ p with front := [],raw := [] }) := rfl

/-- The filter takes a buffer of a response that is arriving. -/
theorem chunkedFilter_piped {p : Pipe} {front whole d e c buf : Bytes} (hdone : p.upstreamDone = false)
    (hraw : p.raw = []) (hlen : p.length = minimalLength p.ctx.toPlace) (hbufs : dataOf p.bufs = some e)
    (hf : feed turn start c = ⟨e,.again p.ctx.toPlace⟩) (hw : Arriving whole d (c ++ buf)) :
    (chunkedFilter p front buf).1.failed = false ∧ Piped (chunkedFilter p front buf).2 (c ++ buf) ∧
      (chunkedFilter p front buf).2.raw = [] := by
  by_cases hbuf : buf = []
  · subst hbuf
    have hcall : chunkedFilter p front [] = (.again,p) := rfl
    rw [hcall]
    exact ⟨rfl,.inl ⟨hdone,⟨c,e,by rw [hraw],hbufs,hf⟩,hlen⟩,hraw⟩
  have h := runFilter_agrees front buf (sized_start.feed hf)
  have hmeans := h.means
  have hfeed := feed_append_of_again hf buf
  have hdata : dataOf (p.bufs ++ (runFilter (front ++ buf) p.ctx buf).bufs) =
      (fedData (feed turn p.ctx.toPlace buf)).map (e ++ ·) := by
    rw [dataOf_append,hbufs,h.out]
    rfl
  obtain ⟨rest,hrest⟩ := hw.arrived
  have hended := hw.ended
  rw [← hrest] at hended
  obtain ⟨-,hstop⟩ | ⟨q,hagain,-,-⟩ := feed_of_append_stopped hended
  · have hst : (feed turn p.ctx.toPlace buf).stand = .stopped .done [] := by
      rw [hfeed] at hstop
      exact congrArg Fed.stand hstop
    rw [hst] at hmeans hfeed
    rw [fedData,hst] at hdata
    have ho : (runFilter (front ++ buf) p.ctx buf).outcome = .done := hmeans
    simp only [chunkedFilter,if_neg hbuf,ho]
    exact ⟨rfl,.inr ⟨rfl,hraw,_,hdata,hfeed⟩,hraw⟩
  · have hst : (feed turn p.ctx.toPlace buf).stand = .again q := by
      rw [hfeed] at hagain
      exact congrArg Fed.stand hagain
    rw [hst] at hmeans hfeed
    rw [fedData,hst] at hdata
    obtain ⟨ho,rfl⟩ := hmeans
    simp only [chunkedFilter,if_neg hbuf,ho]
    exact ⟨rfl,.inl ⟨hdone,⟨c ++ buf,_,by rw [hraw,List.append_nil],hdata,hfeed⟩,h.length _ hst⟩,hraw⟩

/-- Passing on what is raw, with more bytes behind it. -/
theorem Piped.filter {p : Pipe} {whole d s more : Bytes} (h : Piped p s)
    (hw : Arriving whole d (s ++ more)) :
    (passBuffer p (p.raw ++ more)).1.failed = false ∧
      Piped (passBuffer p (p.raw ++ more)).2 (s ++ more) ∧
      (passBuffer p (p.raw ++ more)).2.raw = [] := by
  obtain h | h := h
  · obtain ⟨c,e,rfl,hbufs,hf⟩ := h.split
    rw [List.append_assoc] at hw ⊢
    exact chunkedFilter_piped h.notDone rfl h.length hbufs hf hw
  · obtain rfl := h.eq_nil hw
    rw [h.raw,List.append_nil,List.append_nil,passBuffer_nil]
    exact ⟨rfl,.inr ⟨h.done,rfl,h.ended⟩,rfl⟩

theorem Piped.passFull {p : Pipe} {whole d s : Bytes} {full : List Bytes} (h : Piped p s)
    (hw : Arriving whole d (s ++ full.flatten)) :
    (passFull p full).1.failed = false ∧ Piped (passFull p full).2 (s ++ full.flatten) := by
  induction full generalizing p s with
  | nil => exact ⟨rfl,by rwa [List.flatten_nil,List.append_nil]⟩
  | cons f full ih =>
    rw [List.flatten_cons,← List.append_assoc] at hw ⊢
    obtain ⟨hfail,hp,-⟩ := h.filter hw.of_append
    simp only [Chunked.passFull,hfail]
    exact ih hp hw

/-- Bytes that do not fill their buffer stay raw. -/
theorem Piped.part {p : Pipe} {whole d s more : Bytes} (h : Piped p s)
    (hw : Arriving whole d (s ++ more)) : Piped { p with raw := p.raw ++ more } (s ++ more) := by
  obtain h | h := h
  · obtain ⟨c,e,rfl,hbufs,hf⟩ := h.split
    exact .inl ⟨h.notDone,⟨c,e,List.append_assoc c p.raw more,hbufs,hf⟩,h.length⟩
  · obtain rfl := h.eq_nil hw
    rw [List.append_nil,List.append_nil]
    exact .inr ⟨h.done,h.raw,h.ended⟩

theorem Piped.readLoop {p : Pipe} {whole d s : Bytes} {received : List Received} (h : Piped p s)
    (hw : Arriving whole d (s ++ receivedBytes received)) :
    (readLoop p received).1.failed = false ∧
      Piped (readLoop p received).2 (s ++ receivedBytes received) := by
  induction received generalizing p s with
  | nil => exact ⟨rfl,by rwa [receivedBytes,List.map_nil,List.flatten_nil,List.append_nil]⟩
  | cons r received ih =>
    have hbytes : s ++ receivedBytes (r :: received) =
        s ++ r.full.flatten ++ r.part ++ receivedBytes received := by
      simp [receivedBytes,Received.bytes]
    by_cases hd : p.upstreamDone
    · have hloop : Chunked.readLoop p (r :: received) = (.again,p) := by
        simp only [Chunked.readLoop,hd,if_true]
      rw [hloop]
      obtain h | h := h
      · rw [h.notDone] at hd
        cases hd
      · rw [h.eq_nil hw,List.append_nil]
        exact ⟨rfl,.inr h⟩
    · rw [hbytes] at hw ⊢
      obtain ⟨hfail,hp⟩ := h.passFull hw.of_append.of_append
      simp only [Chunked.readLoop,hd,hfail]
      exact ih (hp.part hw.of_append) hw

theorem Open.length_le {p : Pipe} {s : Bytes} (h : Open p s) (hfit : Fits start s) :
    p.length ≤ missing p.ctx.toPlace +
        (if p.ctx.state = .chunkSize ∧ p.ctx.size ≠ 0 then 1 else 0) ∧
      p.length ≠ 0 ∧ p.length ≠ -1 := by
  obtain ⟨c,e,rfl,-,hf⟩ := h.split
  have hread : Fits start c := hfit.left
  rw [h.length]
  exact minimalLength_le (hread.nonneg sized_start le_rfl hf) (size_lt_of_feed (by norm_num [start]) hf)

/-- Nothing that the filter would take stays raw after a call. -/
def Rested (p : Pipe) : Prop := p.upstreamDone = false → p.raw = [] ∨ (p.raw.length : ℤ) < p.length

theorem passBuffer_eof (p : Pipe) (buf : Bytes) : (passBuffer p buf).2.upstreamEof = p.upstreamEof := by
  unfold passBuffer chunkedFilter
  split
  · rfl
  · cases ho : (runFilter (p.front ++ buf) p.ctx buf).outcome <;> simp only [ho]

theorem Piped.passMinimal {p : Pipe} {whole d s : Bytes} (h : Piped p s) (hw : Arriving whole d s)
    (hfit : Fits start s) : (passMinimal p).1.failed = false ∧ Piped (passMinimal p).2 s ∧
      Rested (passMinimal p).2 ∧ (passMinimal p).2.upstreamEof = p.upstreamEof := by
  unfold Chunked.passMinimal
  split
  · have hw' : Arriving whole d (s ++ []) := by rwa [List.append_nil]
    obtain ⟨hfail,hp,hraw⟩ := h.filter hw'
    rw [List.append_nil] at hfail hp hraw
    rw [List.append_nil] at hp
    exact ⟨hfail,hp,fun _ => .inl hraw,passBuffer_eof _ _⟩
  · rename_i hcond
    refine ⟨rfl,h,fun hd => .inr ?_,rfl⟩
    obtain h | h := h
    · by_contra hlt
      exact hcond ⟨(h.length_le hfit).2.2,not_lt.mp hlt⟩
    · rw [h.done] at hd
      cases hd

theorem Piped.withEof {p : Pipe} {s : Bytes} (h : Piped p s) (eof : Bool) :
    Piped { p with upstreamEof := eof } s := by
  obtain h | h := h
  · exact .inl ⟨h.notDone,h.split,h.length⟩
  · exact .inr ⟨h.done,h.raw,h.ended⟩

/-- The length is never zero, so only the filter ends the response. -/
theorem Piped.done_eq {p : Pipe} {s : Bytes} (h : Piped p s) (hfit : Fits start s) :
    { p with upstreamDone := p.upstreamDone || p.length = 0 } = p := by
  obtain h | h := h
  · have hlen : decide (p.length = 0) = false := decide_eq_false (h.length_le hfit).2.1
    rw [hlen,Bool.or_false]
  · rw [h.done,Bool.true_or]
    have hdone := h.done
    cases p
    simp_all

/-- A call that is not at once over, by its parts. -/
theorem readUpstream_eq {p : Pipe} {received : List Received} {eof : Bool}
    (hopen : ¬ (p.upstreamEof = true ∨ p.upstreamDone = true)) {q : Pipe}
    (hq : q = { (readLoop p received).2 with
      upstreamEof := eof && !(readLoop p received).2.upstreamDone })
    (hfail : (readLoop p received).1.failed = false) (hfail' : (passMinimal q).1.failed = false)
    (hsame : { (passMinimal q).2 with
      upstreamDone := (passMinimal q).2.upstreamDone || (passMinimal q).2.length = 0 } = (passMinimal q).2) :
    readUpstream p received eof = passAtEof (passMinimal q).2 := by
  subst hq
  simp only [readUpstream,if_neg hopen,hfail,hfail',hsame]
  rfl

theorem Piped.readUpstream {p : Pipe} {whole d s : Bytes} {received : List Received} (h : Piped p s)
    (heof : p.upstreamEof = false) (hr : Rested p) (hfit : Fits start whole)
    (hw : Arriving whole d (s ++ receivedBytes received)) :
    (readUpstream p received false).1.failed = false ∧
      Piped (readUpstream p received false).2 (s ++ receivedBytes received) ∧
      (readUpstream p received false).2.upstreamEof = false ∧
      Rested (readUpstream p received false).2 := by
  by_cases hd : p.upstreamDone
  · have hcall : Chunked.readUpstream p received false = (.again,p) := by
      simp only [Chunked.readUpstream,hd,or_true,if_true]
    rw [hcall]
    obtain h | h := h
    · rw [h.notDone] at hd
      cases hd
    · rw [h.eq_nil hw,List.append_nil]
      exact ⟨rfl,.inr h,heof,hr⟩
  · obtain ⟨hfail,hp⟩ := h.readLoop hw
    obtain ⟨rest,hrest⟩ := hw.arrived
    have hfit' : Fits start (s ++ receivedBytes received) := by
      rw [← hrest] at hfit
      exact hfit.left
    obtain ⟨hfail',hp',hr',heof'⟩ := (hp.withEof _).passMinimal hw hfit'
    have hopen : ¬ (p.upstreamEof = true ∨ p.upstreamDone = true) := by
      rw [heof]
      simpa using hd
    rw [readUpstream_eq hopen rfl hfail hfail' (hp'.done_eq hfit')]
    have hcall : ∀ q : Pipe, q.upstreamEof = false → passAtEof q = (.again,q) := by
      intro q hq
      simp only [passAtEof,hq]
      rfl
    rw [hcall _ heof']
    exact ⟨rfl,hp',heof',hr'⟩

theorem piped_init (header : Bytes) (close : Bool) : Piped (.init header close) [] :=
  .inl ⟨rfl,⟨[],[],rfl,rfl,rfl⟩,rfl⟩

theorem Piped.readEvents {p : Pipe} {whole d s : Bytes} {events : List (List Received)} (h : Piped p s)
    (heof : p.upstreamEof = false) (hr : Rested p) (hfit : Fits start whole)
    (hw : Arriving whole d (s ++ (events.map receivedBytes).flatten)) :
    (readEvents p events).1.failed = false ∧
      Piped (readEvents p events).2 (s ++ (events.map receivedBytes).flatten) ∧
      (readEvents p events).2.upstreamEof = false ∧ Rested (readEvents p events).2 := by
  induction events generalizing p s with
  | nil => exact ⟨rfl,by rwa [List.map_nil,List.flatten_nil,List.append_nil],heof,hr⟩
  | cons received events ih =>
    rw [List.map_cons,List.flatten_cons,← List.append_assoc] at hw ⊢
    obtain ⟨hfail,hp,heof',hr'⟩ := h.readUpstream heof hr hfit hw.of_append
    simp only [Chunked.readEvents,hfail]
    exact ih hp heof' hr' hw

/-- The end of the stream passes on what is raw. -/
theorem Piped.readEof {p : Pipe} {whole d : Bytes} (h : Piped p whole) (heof : p.upstreamEof = false)
    (hfit : Fits start whole) (hended : feed turn start whole = ⟨d,.stopped .done []⟩) :
    Closed (Chunked.readUpstream p [] true).2 whole := by
  by_cases hd : p.upstreamDone
  · have hcall : Chunked.readUpstream p [] true = (.again,p) := by
      simp only [Chunked.readUpstream,hd,or_true,if_true]
    rw [hcall]
    obtain h | h := h
    · rw [h.notDone] at hd
      cases hd
    · exact h
  have hdone : p.upstreamDone = false := by simpa using hd
  have hw : Arriving whole d whole := ⟨hended,List.prefix_rfl⟩
  obtain ⟨hfail,hp,-,heof'⟩ := (h.withEof (true && !p.upstreamDone)).passMinimal hw hfit
  have hopen : ¬ (p.upstreamEof = true ∨ p.upstreamDone = true) := by simp [heof,hdone]
  have hcall := @readUpstream_eq p [] true hopen _ rfl rfl hfail (hp.done_eq hfit)
  have hw' : Arriving whole d (whole ++ []) := by rwa [List.append_nil]
  obtain ⟨-,hlast,hraw⟩ := hp.filter hw'
  rw [List.append_nil] at hlast hraw
  have heof'' :
      (Chunked.passMinimal { p with upstreamEof := true && !p.upstreamDone }).2.upstreamEof = true := by
    rw [heof',hdone]
    rfl
  rw [List.append_nil] at hlast
  rw [hcall]
  change Closed (passAtEof (Chunked.passMinimal { p with upstreamEof := true && !p.upstreamDone }).2).2 whole
  rw [passAtEof,if_pos heof'']
  obtain hlast | hlast := hlast
  · obtain ⟨c,e,hc,-,hf⟩ := hlast.split
    rw [hraw,List.append_nil] at hc
    rw [← hc,hended] at hf
    cases hf
  · exact hlast

/-- The whole response has arrived, and the filter has not been given its end. -/
structure Waiting (p : Pipe) : Prop where
  state : p.ctx.state = .chunkSize
  size : 0 < p.ctx.size
  raw : (p.raw.length : ℤ) = p.ctx.size + 5

/-- What the filter has not been given of a whole response would end it. -/
theorem Open.rest {p : Pipe} {whole d : Bytes} (h : Open p whole) (hfit : Fits start whole)
    (hended : feed turn start whole = ⟨d,.stopped .done []⟩) :
    Sized p.ctx.toPlace ∧ 0 ≤ p.ctx.size ∧ Fits p.ctx.toPlace p.raw ∧
      (feed turn p.ctx.toPlace p.raw).stand = .stopped .done [] := by
  obtain ⟨c,e,rfl,-,hf⟩ := h.split
  have hread : Fits start c := hfit.left
  rw [feed_append_of_again hf,Fed.mk.injEq] at hended
  exact ⟨sized_start.feed hf,hread.nonneg sized_start le_rfl hf,hfit.right hf,hended.2⟩

theorem Open.waiting {p : Pipe} {whole d : Bytes} (h : Open p whole) (hr : Rested p)
    (hfit : Fits start whole) (hended : feed turn start whole = ⟨d,.stopped .done []⟩) : Waiting p := by
  obtain ⟨hs,h0,hrest,hstand⟩ := h.rest hfit hended
  have hmissing := missing_le hs h0 hrest (congrArg (Fed.mk _) hstand)
  have hle := (h.length_le hfit).1
  have hlt : (p.raw.length : ℤ) < p.length := by
    obtain hnil | hlt := hr h.notDone
    · rw [hnil] at hstand
      cases hstand
    · exact hlt
  by_cases hsize : p.ctx.state = .chunkSize ∧ p.ctx.size ≠ 0
  · rw [if_pos hsize] at hle
    have heq : missing p.ctx.toPlace = p.ctx.size + 5 := by simp only [missing,hsize.1,if_neg hsize.2]
    exact ⟨hsize.1,lt_of_le_of_ne h0 (Ne.symm hsize.2),by omega⟩
  · rw [if_neg hsize] at hle
    omega

/-- The calls that bring a whole response. -/
theorem readEvents_whole {whole d : Bytes} (hfit : Fits start whole)
    (hended : feed turn start whole = ⟨d,.stopped .done []⟩) (header : Bytes) (close : Bool)
    {events : List (List Received)} (hbytes : (events.map receivedBytes).flatten = whole) :
    (readEvents (.init header close) events).1.failed = false ∧
      Piped (readEvents (.init header close) events).2 whole ∧
      (readEvents (.init header close) events).2.upstreamEof = false ∧
      Rested (readEvents (.init header close) events).2 := by
  have hw : Arriving whole d ([] ++ (events.map receivedBytes).flatten) :=
    ⟨hended,[],by rw [hbytes,List.nil_append,List.append_nil]⟩
  have h := (piped_init header close).readEvents rfl (fun _ => .inl rfl) hfit hw
  rwa [hbytes,List.nil_append] at h

/-- When a well formed response with sizes in range has arrived whole, in any reads and
any buffers, all its data has been passed on, or the last buffer that was passed on ended
in the digits of a size `n` that is not zero and exactly the `n + 5` bytes that end the
response are waiting. They wait until the upstream closes. -/
theorem done_or_waiting (b : Body) (hb : b.InRange) (header : Bytes) (close : Bool)
    (events : List (List Received)) (hbytes : (events.map receivedBytes).flatten = b.text) :
    (readEvents (.init header close) events).1.failed = false ∧
      ((readEvents (.init header close) events).2.upstreamDone = false ↔
        Waiting (readEvents (.init header close) events).2) ∧
      ((readEvents (.init header close) events).2.upstreamDone = true →
        dataOf (readEvents (.init header close) events).2.bufs = some b.data) ∧
      (readUpstream (readEvents (.init header close) events).2 [] true).2.upstreamDone = true ∧
      dataOf (readUpstream (readEvents (.init header close) events).2 [] true).2.bufs = some b.data := by
  have hfit := fits_body b hb
  have hended := feed_body b []
  rw [List.append_nil] at hended
  obtain ⟨hfail,hp,heof,hr⟩ := readEvents_whole hfit hended header close hbytes
  have hclosed := hp.readEof heof hfit hended
  have hdata : ∀ q : Pipe, Closed q b.text → dataOf q.bufs = some b.data := by
    intro q hq
    obtain ⟨e,hbufs,he⟩ := hq.ended
    rw [he,Fed.mk.injEq] at hended
    rw [hbufs,hended.1]
  refine ⟨hfail,⟨fun hd => ?_,fun hwait => ?_⟩,fun hd => ?_,hclosed.done,hdata _ hclosed⟩
  · obtain hp | hp := hp
    · exact hp.waiting hr hfit hended
    · rw [hp.done] at hd
      cases hd
  · obtain hp | hp := hp
    · exact hp.notDone
    · have hraw := hwait.raw
      have hpos := hwait.size
      rw [hp.raw,List.length_nil] at hraw
      omega
  · obtain hp | hp := hp
    · rw [hp.notDone] at hd
      cases hd
    · exact hdata _ hp

/-- One chunk, with bare line feeds. -/
theorem exists_bareBody :
    ∃ b : Body, b.InRange ∧ b.text = [53,10,104,101,108,108,111,10,48,10,10] ∧
      b.data = [104,101,108,108,111] := by
  refine ⟨⟨[⟨⟨[53],[],[lf],List.cons_ne_nil _ _,by decide,.inl rfl,.inl rfl⟩,
    [104,101,108,108,111],[],[lf],List.cons_ne_nil _ _,rfl,text_nil,.inl rfl⟩],
    ⟨⟨[48],[],[lf],List.cons_ne_nil _ _,by decide,.inl rfl,.inl rfl⟩,[],[lf],rfl,.inl rfl⟩⟩,⟨?_,?_⟩,rfl,rfl⟩
  · intro c hc
    obtain rfl := List.mem_singleton.mp hc
    decide
  · decide

/-- A buffer is full with the size of the chunk, the rest comes in one read. -/
def bareEvents : List (List Received) :=
  [[⟨[[53]],[10]⟩],[⟨[],[104,101,108,108,111,10,48,10,10]⟩]]

/-- The whole response has arrived, and its data waits. -/
theorem done_or_waiting_bare :
    (readEvents (.init [] false) bareEvents).2.upstreamDone = false ∧
      dataOf (readEvents (.init [] false) bareEvents).2.bufs = some [] ∧
      dataOf (readUpstream (readEvents (.init [] false) bareEvents).2 [] true).2.bufs =
        some [104,101,108,108,111] := by
  obtain ⟨b,hb,htext,hdata⟩ := exists_bareBody
  have h := done_or_waiting b hb [] false bareEvents htext.symm
  rw [← hdata]
  exact ⟨h.2.1.mpr ⟨by decide +kernel,by decide +kernel,by decide +kernel⟩,by decide +kernel,h.2.2.2.2⟩

/-- What waits begins with a line feed, right behind the digits. -/
theorem Open.not_waiting {p : Pipe} {whole d : Bytes} (h : Open p whole) (hfit : Fits start whole)
    (hended : feed turn start whole = ⟨d,.stopped .done []⟩) (hlines : Each turn NoBareLf start whole) :
    ¬ Waiting p := by
  intro hwait
  obtain ⟨hs,h0,hfit',hstand⟩ := h.rest hfit hended
  have hraw := hwait.raw
  have hlines' : Each turn NoBareLf p.ctx.toPlace p.raw := by
    obtain ⟨c,e,rfl,-,hf⟩ := h.split
    exact hlines.right hf
  cases hb : p.raw with
  | nil =>
    rw [hb] at hstand
    cases hstand
  | cons b raw =>
    rw [hb] at hstand hfit' hlines' hraw
    cases ht : turn p.ctx.toPlace b with
    | stop why =>
      rw [feed_stop ht,Stand.stopped.injEq] at hstand
      obtain ⟨rfl,-⟩ := hstand
      obtain ⟨hst | hst,-⟩ := switch_of_done ht <;> rw [hwait.state] at hst <;> cases hst
    | next q emit =>
      rw [feed_next ht] at hstand
      have hlf := hlines'.head hwait.state
      have hbefore := missing_le_of_digits hwait.state hwait.size hfit'.head hlf ht
      have hq := (missing_le_of_turn hs h0 hfit'.head ht).2
      have hends : feed turn q raw = ⟨(feed turn q raw).out,.stopped .done []⟩ := congrArg (Fed.mk _) hstand
      have hafter := missing_le (hs.turn ht) hq (hfit'.next ht) hends
      have heq : missing p.ctx.toPlace = p.ctx.size + 5 := by
        simp only [missing,hwait.state,if_neg hwait.size.ne']
      rw [List.length_cons] at hraw
      omega

/-- A response that the body filter wrote has passed the pipe with its last byte, in any
reads and any buffers. -/
theorem written_passes (r : Response) (header : Bytes) (close : Bool) (events : List (List Received))
    (hbytes : (events.map receivedBytes).flatten = r.written) :
    (readEvents (.init header close) events).1.failed = false ∧
      (readEvents (.init header close) events).2.upstreamDone = true ∧
      dataOf (readEvents (.init header close) events).2.bufs = some r.data := by
  have hfit := fits_body r.body (inRange_written r)
  have hended := feed_body r.body []
  rw [text_body] at hfit
  rw [List.append_nil,text_body,data_body] at hended
  obtain ⟨hfail,hp,-,hr⟩ := readEvents_whole hfit hended header close hbytes
  obtain hp | hp := hp
  · exact absurd (hp.waiting hr hfit hended) (hp.not_waiting hfit hended (noBareLf_written r))
  · obtain ⟨e,hbufs,he⟩ := hp.ended
    rw [he,Fed.mk.injEq] at hended
    exact ⟨hfail,hp.done,by rw [hbufs,hended.1]⟩

theorem written_passes_greeting :
    dataOf (readEvents (.init [72,13,10] true) [[⟨[[50,13,10,104],[105,13,10,49]],[13,10]⟩],
      [⟨[[33,13,10,48]],[13]⟩,⟨[],[10,13,10]⟩]]).2.bufs = some [104,105,33] :=
  (written_passes greeting [72,13,10] true [[⟨[[50,13,10,104],[105,13,10,49]],[13,10]⟩],
    [⟨[[33,13,10,48]],[13]⟩,⟨[],[10,13,10]⟩]] written_greeting.symm).2.2

end SunshineService.Nginx.Chunked
