import SunshineService.Nginx.ChunkedFilter
import SunshineService.Nginx.ChunkedFormat

/-! # Responses in chunks without buffering

The upstream reads into one buffer and calls the filter for each read. The buffer is
reset when nothing of it is busy, and until then the reads go on, also behind the end of
the response. Sizes that are negative and bytes behind the end apart, cuts make no
difference: the filter ends a response exactly at the end of a well formed body.
-/
namespace SunshineService.Nginx.Chunked
open StreamMachine Utf8

/-- `buffer` is what the buffer for the reads holds before the next of them. -/
structure Upstream where
  ctx : Ctx
  length : ℤ
  outBufs : List Linked
  buffer : Bytes
  connectionClose : Bool
  keepalive : Bool
  deriving DecidableEq

/-- After the header of a chunked response, which may still stand in the buffer. -/
def Upstream.init (header : Bytes) (connectionClose : Bool) : Upstream :=
  ⟨⟨start,0⟩,-1,[],header,connectionClose,false⟩

def nonBufferedChunkedFilter (u : Upstream) (bytes : Bytes) : Outcome × Upstream :=
  let mem := u.buffer ++ bytes
  let f := runFilter mem u.ctx bytes
  let u := { u with ctx := f.ctx,outBufs := u.outBufs ++ f.bufs,buffer := mem }
  match f.outcome with
  | .done => (.done,{ u with length := 0,keepalive := !u.connectionClose })
  | o => (o,u)

/-- One turn of the loop: what `recv` brings, and whether buffers are still busy after the
write behind it. A turn may only write. -/
structure Recv where
  bytes : Bytes
  busy : Bool

/-- The filter is called for what `recv` brings. -/
def Recv.call (u : Upstream) (r : Recv) : Outcome × Upstream :=
  if r.bytes = [] then (.again,u) else nonBufferedChunkedFilter u r.bytes

/-- The response is finalized when it has ended and nothing is busy, or when a call fails.
While buffers are busy the reads go on, also behind the end. -/
def processNonBuffered (u : Upstream) : List Recv → Outcome × Upstream
  | [] => (if u.length = 0 then .done else .again,u)
  | r :: reads =>
    let called := r.call u
    if called.1 = .again ∨ called.1 = .done then
      if r.busy then processNonBuffered called.2 reads
      else if called.2.length = 0 then (.done,called.2)
      else processNonBuffered { called.2 with buffer := [] } reads
    else called

def recvBytes (reads : List Recv) : Bytes := (reads.map Recv.bytes).flatten

theorem recvBytes_cons (r : Recv) (reads : List Recv) :
    recvBytes (r :: reads) = r.bytes ++ recvBytes reads := rfl

theorem recvBytes_append (reads more : List Recv) :
    recvBytes (reads ++ more) = recvBytes reads ++ recvBytes more := by simp [recvBytes]

/-- While buffers are busy, nothing arrives behind the end. -/
def StopsAtEnd (p : Place) (reads : List Recv) : Prop :=
  ∀ pre r post rest, reads = pre ++ r :: post → r.busy = true →
    (feed turn p (recvBytes (pre ++ [r]))).stand = .stopped .done rest → recvBytes post = []

/-- What the flags are behind a part of the stream. -/
def Flags (u v : Upstream) : Stand Place UInt8 End → Prop
  | .again _ | .stopped .invalid _ => v.length = u.length ∧ v.keepalive = u.keepalive
  | .stopped .done _ => v.length = 0 ∧ v.keepalive = !u.connectionClose
  | .stopped .negative _ => True

/-- The calls have emitted what the plain machine emits, and end as it does. -/
structure Follows (u : Upstream) (r : Outcome × Upstream) (fed : Fed Place UInt8 End) : Prop where
  out : dataOf r.2.outBufs = (dataOf u.outBufs).bind (fun d => (fedData fed).map (d ++ ·))
  means : r.1.Means r.2.ctx.toPlace fed.stand
  flags : Flags u r.2 fed.stand

theorem connectionClose_filter (u : Upstream) (bytes : Bytes) :
    (nonBufferedChunkedFilter u bytes).2.connectionClose = u.connectionClose := by
  cases ho : (runFilter (u.buffer ++ bytes) u.ctx bytes).outcome <;>
    simp only [nonBufferedChunkedFilter,ho]

theorem outBufs_filter (u : Upstream) (bytes : Bytes) :
    (nonBufferedChunkedFilter u bytes).2.outBufs =
      u.outBufs ++ (runFilter (u.buffer ++ bytes) u.ctx bytes).bufs := by
  cases ho : (runFilter (u.buffer ++ bytes) u.ctx bytes).outcome <;>
    simp only [nonBufferedChunkedFilter,ho]

theorem nonBufferedChunkedFilter_follows (u : Upstream) (bytes : Bytes) (hs : Sized u.ctx.toPlace) :
    Follows u (nonBufferedChunkedFilter u bytes) (feed turn u.ctx.toPlace bytes) := by
  have h := runFilter_agrees u.buffer bytes hs
  have hout : dataOf (u.outBufs ++ (runFilter (u.buffer ++ bytes) u.ctx bytes).bufs) =
      (dataOf u.outBufs).bind (fun d => (fedData (feed turn u.ctx.toPlace bytes)).map (d ++ ·)) := by
    rw [dataOf_append,h.out]
  have hmeans := h.means
  rcases hst : (feed turn u.ctx.toPlace bytes).stand with q | ⟨_ | _ | _,rest⟩ <;> rw [hst] at hmeans
  · obtain ⟨ho,hp⟩ := hmeans
    simp only [nonBufferedChunkedFilter,ho]
    exact ⟨hout,hst ▸ ⟨rfl,hp⟩,hst ▸ ⟨rfl,rfl⟩⟩
  · have ho : (runFilter (u.buffer ++ bytes) u.ctx bytes).outcome = .done := hmeans
    simp only [nonBufferedChunkedFilter,ho]
    exact ⟨hout,hst ▸ rfl,hst ▸ ⟨rfl,rfl⟩⟩
  · have ho : (runFilter (u.buffer ++ bytes) u.ctx bytes).outcome = .invalid := hmeans
    simp only [nonBufferedChunkedFilter,ho]
    exact ⟨hout,hst ▸ rfl,hst ▸ ⟨rfl,rfl⟩⟩
  · exact ⟨by rw [outBufs_filter,hout],hst ▸ trivial,hst ▸ trivial⟩

theorem Recv.call_follows (u : Upstream) (r : Recv) (hs : Sized u.ctx.toPlace) :
    Follows u (r.call u) (feed turn u.ctx.toPlace r.bytes) := by
  unfold Recv.call
  split
  · rename_i hnil
    rw [hnil,feed_nil]
    refine ⟨?_,⟨rfl,rfl⟩,⟨rfl,rfl⟩⟩
    cases dataOf u.outBufs <;> simp [fedData]
  · exact nonBufferedChunkedFilter_follows u r.bytes hs

theorem Recv.connectionClose_call (u : Upstream) (r : Recv) :
    (r.call u).2.connectionClose = u.connectionClose := by
  unfold Recv.call
  split
  · rfl
  · exact connectionClose_filter u r.bytes

theorem Recv.dataOf_call {u : Upstream} (r : Recv) (h : dataOf u.outBufs = none) :
    dataOf (r.call u).2.outBufs = none := by
  unfold Recv.call
  split
  · exact h
  · rw [outBufs_filter,dataOf_append,h]
    rfl

theorem dataOf_turn {u : Upstream} {r : Recv} {reads : List Recv}
    (hcall : dataOf (r.call u).2.outBufs = none)
    (hrest : ∀ v : Upstream, dataOf v.outBufs = none →
      dataOf (processNonBuffered v reads).2.outBufs = none) :
    dataOf (processNonBuffered u (r :: reads)).2.outBufs = none := by
  unfold processNonBuffered
  dsimp only
  split_ifs
  · exact hrest _ hcall
  · exact hcall
  · exact hrest _ hcall
  · exact hcall

/-- A buffer that is no data stays in the chain. -/
theorem dataOf_processNonBuffered (reads : List Recv) (u : Upstream) (h : dataOf u.outBufs = none) :
    dataOf (processNonBuffered u reads).2.outBufs = none := by
  induction reads generalizing u with
  | nil => exact h
  | cons r reads ih => exact dataOf_turn (r.dataOf_call h) ih

/-- Behind the end, turns that only write change nothing. -/
theorem processNonBuffered_idle {u : Upstream} {reads : List Recv} (hlen : u.length = 0)
    (h : recvBytes reads = []) : processNonBuffered u reads = (.done,u) := by
  induction reads with
  | nil => simp only [processNonBuffered,if_pos hlen]
  | cons r reads ih =>
    rw [recvBytes_cons,List.append_eq_nil_iff] at h
    have hcall : r.call u = (.again,u) := if_pos h.1
    simp only [processNonBuffered,hcall,true_or,if_true,hlen,ih h.2]
    split <;> rfl

theorem StopsAtEnd.tail {p q : Place} {r : Recv} {reads : List Recv} {out : Bytes}
    (h : StopsAtEnd p (r :: reads)) (hf : feed turn p r.bytes = ⟨out,.again q⟩) :
    StopsAtEnd q reads := by
  intro pre s post rest hreads hbusy hst
  refine h (r :: pre) s post rest (by rw [hreads]; rfl) hbusy ?_
  rw [List.cons_append,recvBytes_cons,feed_append_of_again hf]
  exact hst

theorem StopsAtEnd.idle {p : Place} {r : Recv} {reads : List Recv} {rest : Bytes}
    (h : StopsAtEnd p (r :: reads)) (hbusy : r.busy = true)
    (hst : (feed turn p r.bytes).stand = .stopped .done rest) : recvBytes reads = [] := by
  refine h [] r reads rest rfl hbusy ?_
  rwa [List.nil_append,recvBytes_cons,show recvBytes [] = [] from rfl,List.append_nil]

theorem fedData_append (d out : Bytes) (stand : Stand Place UInt8 End) :
    fedData ⟨d ++ out,stand⟩ = (fedData ⟨out,stand⟩).map (d ++ ·) := by
  rcases stand with q | ⟨_ | _ | _,rest⟩ <;> rfl

theorem Follows.andThen {u v : Upstream} {o : Outcome} {r : Outcome × Upstream} {p q : Place}
    {bytes out more : Bytes} (h : Follows u (o,v) (feed turn p bytes))
    (hf : feed turn p bytes = ⟨out,.again q⟩) (hclose : v.connectionClose = u.connectionClose)
    (h' : Follows v r (feed turn q more)) : Follows u r (feed turn p (bytes ++ more)) := by
  rw [hf] at h
  rw [feed_append_of_again hf]
  refine ⟨?_,h'.means,?_⟩
  · rw [h'.out,h.out,fedData_append]
    cases dataOf u.outBufs with
    | none => rfl
    | some d => cases fedData (feed turn q more) <;> simp [fedData]
  · obtain ⟨hl,hk⟩ : v.length = u.length ∧ v.keepalive = u.keepalive := h.flags
    have hflags := h'.flags
    dsimp only
    generalize (feed turn q more).stand = stand at hflags ⊢
    rcases stand with t | ⟨_ | _ | _,rest⟩
    · exact ⟨hflags.1.trans hl,hflags.2.trans hk⟩
    · exact ⟨hflags.1,hclose ▸ hflags.2⟩
    · exact ⟨hflags.1.trans hl,hflags.2.trans hk⟩
    · trivial

theorem Follows.stopped {u : Upstream} {r : Outcome × Upstream} {p : Place} {bytes rest : Bytes}
    {why : End} (h : Follows u r (feed turn p bytes)) (hst : (feed turn p bytes).stand = .stopped why rest)
    (more : Bytes) : Follows u r (feed turn p (bytes ++ more)) := by
  have hthen : feed turn p (bytes ++ more) = ⟨(feed turn p bytes).out,.stopped why (rest ++ more)⟩ := by
    rw [feed_append]
    simp only [Fed.andThen,hst]
  obtain ⟨hout,hmeans,hflags⟩ := h
  rw [hst] at hmeans hflags
  rw [hthen]
  refine ⟨?_,?_,?_⟩
  · rw [hout,fedData,fedData,hst]
    cases why <;> rfl
  · cases why <;> exact hmeans
  · cases why <;> exact hflags

/-- Reading the response in pieces is what the plain machine makes of the whole. -/
theorem processNonBuffered_follows (u : Upstream) (reads : List Recv) (hs : Sized u.ctx.toPlace)
    (hlen : u.length ≠ 0) (hend : StopsAtEnd u.ctx.toPlace reads) :
    Follows u (processNonBuffered u reads) (feed turn u.ctx.toPlace (recvBytes reads)) := by
  induction reads generalizing u with
  | nil =>
    have hrun : processNonBuffered u [] = (.again,u) := by simp only [processNonBuffered,if_neg hlen]
    rw [hrun]
    refine ⟨?_,⟨rfl,rfl⟩,⟨rfl,rfl⟩⟩
    cases dataOf u.outBufs <;> simp [fedData,recvBytes]
  | cons r reads ih =>
    have hcall := r.call_follows u hs
    have hclose := r.connectionClose_call u
    rcases hr : r.call u with ⟨o,v⟩
    rw [hr] at hcall hclose
    have hout := hcall.out
    have hmeans := hcall.means
    have hflags := hcall.flags
    rw [recvBytes_cons]
    rcases hst : (feed turn u.ctx.toPlace r.bytes).stand with q | ⟨_ | _ | _,rest⟩ <;>
      rw [hst] at hmeans hflags
    · -- the response goes on behind this turn
      obtain ⟨rfl,rfl⟩ := hmeans
      have hf : feed turn u.ctx.toPlace r.bytes = ⟨_,.again v.ctx.toPlace⟩ := congrArg (Fed.mk _) hst
      have hv : v.length ≠ 0 := hflags.1.symm ▸ hlen
      have hrest := ih v (hs.feed hf) hv (hend.tail hf)
      have hreset := ih { v with buffer := [] } (hs.feed hf) hv (hend.tail hf)
      simp only [processNonBuffered,hr,true_or,if_true,if_neg hv]
      split
      · exact hcall.andThen hf hclose hrest
      · exact hcall.andThen hf hclose ⟨hreset.out,hreset.means,hreset.flags⟩
    · obtain rfl : o = .done := hmeans
      have hrun : processNonBuffered u (r :: reads) = (.done,v) := by
        simp only [processNonBuffered,hr,or_true,if_true,if_pos hflags.1]
        split
        · exact processNonBuffered_idle hflags.1 (hend.idle ‹_› hst)
        · rfl
      rw [hrun]
      exact hcall.stopped hst _
    · obtain rfl : o = .invalid := hmeans
      have hrun : processNonBuffered u (r :: reads) = (.invalid,v) := by
        simp only [processNonBuffered,hr,reduceCtorEq,or_self,if_false]
      rw [hrun]
      exact hcall.stopped hst _
    · -- a buffer that is no data has been linked
      have hnone : dataOf (r.call u).2.outBufs = none := by
        rw [hr,hout,fedData,hst]
        cases dataOf u.outBufs <;> rfl
      have hrun := dataOf_turn hnone (dataOf_processNonBuffered reads)
      have hturn : Follows u (processNonBuffered u (r :: reads)) (feed turn u.ctx.toPlace r.bytes) :=
        ⟨by rw [hrun,← hout,← hnone,hr],hst ▸ trivial,hst ▸ trivial⟩
      exact hturn.stopped hst _

theorem fedData_eq_none_iff {fed : Fed Place UInt8 End} :
    fedData fed = none ↔ ∃ rest, fed.stand = .stopped .negative rest := by
  obtain ⟨out,stand⟩ := fed
  rcases stand with q | ⟨_ | _ | _,rest⟩ <;> simp [fedData]

theorem Outcome.Means.unique {o o' : Outcome} {p p' : Place} {stand : Stand Place UInt8 End}
    (h : o.Means p stand) (h' : o'.Means p' stand) (hneg : ∀ rest, stand ≠ .stopped .negative rest) :
    o = o' ∧ (o = .again → p = p') := by
  rcases stand with q | ⟨_ | _ | _,rest⟩
  · exact ⟨h.1.trans h'.1.symm,fun _ => h.2.trans h'.2.symm⟩
  · exact ⟨Eq.trans h (Eq.symm h'),fun hagain => absurd (hagain.symm.trans h) nofun⟩
  · exact ⟨Eq.trans h (Eq.symm h'),fun hagain => absurd (hagain.symm.trans h) nofun⟩
  · exact absurd rfl (hneg rest)

theorem Flags.unique {u v v' : Upstream} {stand : Stand Place UInt8 End} (h : Flags u v stand)
    (h' : Flags u v' stand) (hneg : ∀ rest, stand ≠ .stopped .negative rest) :
    v.length = v'.length ∧ v.keepalive = v'.keepalive := by
  rcases stand with q | ⟨_ | _ | _,rest⟩
  · exact ⟨h.1.trans h'.1.symm,h.2.trans h'.2.symm⟩
  · exact ⟨h.1.trans h'.1.symm,h.2.trans h'.2.symm⟩
  · exact ⟨h.1.trans h'.1.symm,h.2.trans h'.2.symm⟩
  · exact absurd rfl (hneg rest)

/-! What the filter makes of a response that arrives in reads. -/

/-- While buffers are busy, nothing arrives behind the end of a body. -/
def EndsWithBody (reads : List Recv) : Prop :=
  ∀ pre r post, reads = pre ++ r :: post → r.busy = true →
    (∃ b : Body, b.text <+: recvBytes (pre ++ [r])) → recvBytes post = []

theorem EndsWithBody.stopsAtEnd {reads : List Recv} (h : EndsWithBody reads) : StopsAtEnd start reads := by
  intro pre r post rest hreads hbusy hst
  obtain ⟨b,hb,-⟩ := feed_done_iff.mp (congrArg (Fed.mk _) hst)
  exact h pre r post hreads hbusy ⟨b,rest,hb.symm⟩

theorem endsWithBody_of_text {b : Body} {reads : List Recv} (h : recvBytes reads <+: b.text) :
    EndsWithBody reads := by
  rintro pre r post rfl - ⟨c,left,hleft⟩
  obtain ⟨rest,hrest⟩ := h
  have htext : b.text = c.text ++ (left ++ (recvBytes post ++ rest)) := by
    rw [← hrest,List.append_cons,recvBytes_append,← hleft]
    simp
  have hb := feed_body b []
  rw [List.append_nil,htext,feed_body,Fed.mk.injEq,Stand.stopped.injEq] at hb
  simp only [List.append_eq_nil_iff] at hb
  exact hb.2.2.2.1

theorem endsWithBody_of_idle {reads : List Recv} (h : ∀ r ∈ reads, r.busy = false) :
    EndsWithBody reads := by
  rintro pre r post rfl hbusy -
  have hidle := h r (by simp)
  rw [hbusy] at hidle
  cases hidle

section Reads

variable {header : Bytes} {close : Bool} {reads : List Recv}

theorem processNonBuffered_init (header : Bytes) (close : Bool) (hend : EndsWithBody reads) :
    Follows (.init header close) (processNonBuffered (.init header close) reads)
      (feed turn start (recvBytes reads)) :=
  processNonBuffered_follows (.init header close) reads sized_start (show (-1 : ℤ) ≠ 0 by decide)
    hend.stopsAtEnd

theorem Follows.dataOf_init {r : Outcome × Upstream} {fed : Fed Place UInt8 End}
    (h : Follows (.init header close) r fed) : dataOf r.2.outBufs = fedData fed := by
  rw [h.out]
  cases hd : fedData fed <;> simp [Upstream.init,dataOf]

/-- The filter ends the response with data `d` exactly where the reads begin with a well
formed body of this data, however they cut it. -/
theorem ended_iff (header : Bytes) (close : Bool) (reads : List Recv) (d : Bytes)
    (hsizes : ¬ NegativeSize (recvBytes reads)) (hend : EndsWithBody reads) :
    ((processNonBuffered (.init header close) reads).1 = .done ∧
        dataOf (processNonBuffered (.init header close) reads).2.outBufs = some d) ↔
      ∃ b : Body, b.text <+: recvBytes reads ∧ b.data = d := by
  have hfollows := processNonBuffered_init header close hend
  have hmeans := hfollows.means
  rw [hfollows.dataOf_init]
  constructor
  · rintro ⟨hdone,hd⟩
    rw [hdone] at hmeans
    rcases hst : (feed turn start (recvBytes reads)).stand with q | ⟨_ | _ | _,rest⟩ <;>
      rw [hst] at hmeans
    · cases hmeans.1
    · obtain ⟨b,hb,hout⟩ := feed_done_iff.mp (congrArg (Fed.mk _) hst)
      rw [fedData,hst,hout] at hd
      exact ⟨b,⟨rest,hb.symm⟩,Option.some.inj hd⟩
    · cases hmeans
    · exact absurd (negativeSize_iff.mpr ⟨rest,hst⟩) hsizes
  · rintro ⟨b,⟨rest,hrest⟩,rfl⟩
    rw [← hrest,feed_body] at hmeans ⊢
    exact ⟨hmeans,rfl⟩

theorem ended_greeting :
    ∃ b : Body, b.text <+: [50,10,104,105,10,48,10,10] ∧ b.data = [104,105] := by
  have hfeed : feed turn start [50,10,104,105,10,48,10,10] = ⟨[104,105],.stopped .done []⟩ := by
    decide +kernel
  obtain ⟨b,htext,-⟩ := feed_done_iff.mp hfeed
  rw [List.append_nil] at htext
  exact (ended_iff [] false [⟨[50,10,104],false⟩,⟨[105,10,48,10,10],false⟩] [104,105]
    (NegativeSize.not_of_stand (congrArg Fed.stand hfeed) nofun)
    (endsWithBody_of_text ⟨[],htext⟩)).mp (by decide +kernel)

/-- The filter links a buffer whose end lies before its beginning exactly where a chunk
announces a negative size. -/
theorem backwards_linked_iff (header : Bytes) (close : Bool) (reads : List Recv)
    (hend : EndsWithBody reads) :
    (∃ n, .backwards n ∈ (processNonBuffered (.init header close) reads).2.outBufs) ↔
      NegativeSize (recvBytes reads) := by
  rw [← dataOf_eq_none_iff,(processNonBuffered_init header close hend).dataOf_init,
    fedData_eq_none_iff,negativeSize_iff]

/-- The size is 2 ^ 64 - 1. In one read the position moves back by one byte, and the end
of the stream is an end of the response. -/
theorem backwards_linked_minusOne :
    NegativeSize [102,102,102,102,102,102,102,102,102,102,102,102,102,102,102,102,10,48,10,10] ∧
      (processNonBuffered (.init [] false)
        [⟨[102,102,102,102,102,102,102,102,102,102,102,102,102,102,102,102,10,48,10,10],false⟩]).1 = .done := by
  refine ⟨(backwards_linked_iff [] false
    [⟨[102,102,102,102,102,102,102,102,102,102,102,102,102,102,102,102,10,48,10,10],false⟩]
    (endsWithBody_of_idle ?_)).mp ⟨-1,by decide +kernel⟩,by decide +kernel⟩
  intro r hr
  rw [List.mem_singleton.mp hr]

end Reads

end SunshineService.Nginx.Chunked
