import SunshineService.Foundation.FiniteOrbit
import SunshineService.Nginx.ChunkedParser
import Mathlib.Data.Finset.Dedup

/-! # The input filters for a chunked response

Both filters call the parser in a loop and take the data in one piece for each call.
They differ in what they record. At a negative size the position moves back over bytes
that have been read before, and the loop goes on there. As long as that does not happen
the filters emit what the plain machine emits from the whole, over any cuts of the stream.
-/
namespace SunshineService.Nginx.Chunked
open StreamMachine FiniteOrbit Utf8

theorem parseLoop_cases (p : Place) (buf : Bytes) :
    (∃ q, parseLoop p buf = (.again,q,[]) ∧ feed turn p buf = ⟨[],.again q⟩) ∨
    (∃ q pre ch rest, parseLoop p buf = (.ok,q,ch :: rest) ∧ buf = pre ++ ch :: rest ∧
      feed turn p pre = ⟨[],.again q⟩ ∧ q.state = .chunkData) ∨
    (∃ q rest, parseLoop p buf = (.done,q,rest) ∧ feed turn p buf = ⟨[],.stopped .done rest⟩) ∨
    ∃ q rest, parseLoop p buf = (.error,q,rest) ∧ feed turn p buf = ⟨[],.stopped .invalid rest⟩ := by
  induction buf generalizing p with
  | nil => exact .inl ⟨p,rfl,rfl⟩
  | cons b buf ih =>
    cases hs : switch p b with
    | data =>
      have hloop : parseLoop p (b :: buf) = (.ok,p,b :: buf) := by simp only [parseLoop,hs]
      exact .inr (.inl ⟨p,[],b,buf,hloop,rfl,rfl,switch_data_iff.mp hs⟩)
    | done =>
      have hloop : parseLoop p (b :: buf) = (.done,p,buf) := by simp only [parseLoop,hs]
      exact .inr (.inr (.inl ⟨p,buf,hloop,feed_stop (turn_of_done hs) buf⟩))
    | invalid =>
      have hloop : parseLoop p (b :: buf) = (.error,p,buf) := by simp only [parseLoop,hs]
      exact .inr (.inr (.inr ⟨p,buf,hloop,feed_stop (turn_of_invalid hs) buf⟩))
    | next q =>
      have hloop : parseLoop p (b :: buf) = parseLoop q buf := by simp only [parseLoop,hs]
      have hfeed := fun bs => feed_next (turn_of_next hs) bs
      rw [hloop,hfeed]
      obtain ⟨r,hr,hf⟩ | ⟨r,pre,ch,rest,hr,rfl,hf,hd⟩ | ⟨r,rest,hr,hf⟩ | ⟨r,rest,hr,hf⟩ := ih q
      · exact .inl ⟨r,hr,by rw [hf]; rfl⟩
      · exact .inr (.inl ⟨r,b :: pre,ch,rest,hr,rfl,by rw [hfeed,hf]; rfl,hd⟩)
      · exact .inr (.inr (.inl ⟨r,rest,hr,by rw [hf]; rfl⟩))
      · exact .inr (.inr (.inr ⟨r,rest,hr,by rw [hf]; rfl⟩))

/-- A buffer that a filter has linked to its chain. -/
inductive Linked
  | data (bytes : Bytes)
  /-- Its end lies before its beginning. -/
  | backwards (size : ℤ)
  deriving DecidableEq

/-- What a chain holds, when it is data throughout. -/
def dataOf : List Linked → Option Bytes
  | [] => some []
  | .data bytes :: bufs => (dataOf bufs).map (bytes ++ ·)
  | .backwards _ :: _ => none

theorem dataOf_append (xs ys : List Linked) :
    dataOf (xs ++ ys) = (dataOf xs).bind (fun d => (dataOf ys).map (d ++ ·)) := by
  induction xs with
  | nil => simp [dataOf]
  | cons b xs ih =>
    cases b with
    | backwards n => rfl
    | data bytes =>
      rw [List.cons_append,dataOf,dataOf,ih]
      cases dataOf xs <;> cases dataOf ys <;> simp

theorem dataOf_eq_none_iff (bufs : List Linked) :
    dataOf bufs = none ↔ ∃ n, Linked.backwards n ∈ bufs := by
  induction bufs with
  | nil => simp [dataOf]
  | cons b bufs ih => cases b <;> simp [dataOf,ih]

/-- How a call of a filter ends. When the position has left the buffer, what is read there
is not the stream, and an endless loop links one buffer after the other. -/
inductive Outcome
  | again
  | done
  | invalid
  | outside
  | endless
  deriving DecidableEq

structure Filtered where
  ctx : Ctx
  bufs : List Linked
  outcome : Outcome
  deriving DecidableEq

def Filtered.link (b : Linked) (f : Filtered) : Filtered := { f with bufs := b :: f.bufs }

/-- `pos += n` in a buffer with the bytes `mem`, where `buf` is left from `pos` on. -/
def seek (mem buf : Bytes) (n : ℤ) : Option Bytes :=
  if 0 ≤ n then some (buf.drop n.toNat)
  else if 0 ≤ mem.length - buf.length + n then some (mem.drop (mem.length - buf.length + n).toNat)
  else none

/-- The buffer from `pos` to `pos + n`. -/
def linked (buf : Bytes) (n : ℤ) : Linked := if 0 ≤ n then .data (buf.take n.toNat) else .backwards n

/-- The loop both filters share, for a number of turns. The buffer holds `mem` from its
start on, and `buf` is the part that is to be read. -/
def filterLoop (mem : Bytes) : ℕ → Ctx → Bytes → Filtered
  | 0, ctx, _ => ⟨ctx,[],.endless⟩
  | turns + 1, ctx, buf =>
    match parseChunked ctx buf with
    | (.ok,c,rest) =>
      if c.size ≤ rest.length then
        match seek mem rest c.size with
        | some buf => (filterLoop mem turns { c with size := 0 } buf).link (linked rest c.size)
        | none => ⟨{ c with size := 0 },[linked rest c.size],.outside⟩
      else (filterLoop mem turns { c with size := c.size - rest.length } []).link (.data rest)
    | (.done,c,_) => ⟨c,[],.done⟩
    | (.again,c,_) => ⟨c,[],.again⟩
    | (.error,c,_) => ⟨c,[],.invalid⟩

/-- The loop until it ends. After so many turns it has been in one place twice and never
ends, see `endless_forever`. -/
def runFilter (mem : Bytes) (ctx : Ctx) (buf : Bytes) : Filtered :=
  filterLoop mem (mem.length + 3) ctx buf

section Turns

variable {mem : Bytes} {turns : ℕ} {ctx c : Ctx} {buf rest : Bytes}

theorem filterLoop_ok (h : parseChunked ctx buf = (.ok,c,rest)) :
    filterLoop mem (turns + 1) ctx buf =
      if c.size ≤ rest.length then
        match seek mem rest c.size with
        | some buf => (filterLoop mem turns { c with size := 0 } buf).link (linked rest c.size)
        | none => ⟨{ c with size := 0 },[linked rest c.size],.outside⟩
      else (filterLoop mem turns { c with size := c.size - rest.length } []).link (.data rest) := by
  simp only [filterLoop,h]

theorem filterLoop_again (h : parseChunked ctx buf = (.again,c,rest)) :
    filterLoop mem (turns + 1) ctx buf = ⟨c,[],.again⟩ := by
  simp only [filterLoop,h]

theorem filterLoop_done (h : parseChunked ctx buf = (.done,c,rest)) :
    filterLoop mem (turns + 1) ctx buf = ⟨c,[],.done⟩ := by
  simp only [filterLoop,h]

theorem filterLoop_error (h : parseChunked ctx buf = (.error,c,rest)) :
    filterLoop mem (turns + 1) ctx buf = ⟨c,[],.invalid⟩ := by
  simp only [filterLoop,h]

end Turns

/-- What the outcome of a call says about the plain machine. -/
def Outcome.Means (o : Outcome) (p : Place) : Stand Place UInt8 End → Prop
  | .again q => o = .again ∧ p = q
  | .stopped .done _ => o = .done
  | .stopped .invalid _ => o = .invalid
  | .stopped .negative _ => True

/-- What the plain machine has emitted, unless it stopped at a negative size. -/
def fedData (fed : Fed Place UInt8 End) : Option Bytes :=
  match fed.stand with
  | .stopped .negative _ => none
  | _ => some fed.out

/-- The filter emits what the plain machine emits and ends as it does; at a negative size
it has linked a buffer that is no data. -/
structure Agrees (f : Filtered) (fed : Fed Place UInt8 End) : Prop where
  out : dataOf f.bufs = fedData fed
  means : f.outcome.Means f.ctx.toPlace fed.stand
  length : ∀ q, fed.stand = .again q → f.ctx.length = minimalLength q

/-- A piece of data is taken in one step, then the loop goes on behind it. -/
theorem Agrees.link {p q r : Place} {pre taken left : Bytes} {f : Filtered}
    (hpre : feed turn p pre = ⟨[],.again q⟩) (htaken : feed turn q taken = ⟨taken,.again r⟩)
    (h : Agrees f (feed turn r left)) :
    Agrees (f.link (.data taken)) (feed turn p (pre ++ (taken ++ left))) := by
  have hfeed : feed turn p (pre ++ (taken ++ left)) =
      ⟨taken ++ (feed turn r left).out,(feed turn r left).stand⟩ := by
    rw [feed_append_of_again hpre,feed_append_of_again htaken]
    rfl
  rw [hfeed]
  refine ⟨?_,h.means,h.length⟩
  rw [Filtered.link,dataOf,h.out]
  obtain ⟨out,stand⟩ := feed turn r left
  cases stand with
  | again t => rfl
  | stopped why rest => cases why <;> rfl

theorem seek_of_nonneg {mem buf : Bytes} {n : ℤ} (hn : 0 ≤ n) :
    seek mem buf n = some (buf.drop n.toNat) :=
  if_pos hn

theorem linked_of_nonneg {buf : Bytes} {n : ℤ} (hn : 0 ≤ n) : linked buf n = .data (buf.take n.toNat) :=
  if_pos hn

theorem linked_of_neg {buf : Bytes} {n : ℤ} (hn : n < 0) : linked buf n = .backwards n :=
  if_neg hn.not_ge

theorem dataOf_of_negative {mem : Bytes} {turns : ℕ} {ctx c : Ctx} {buf rest : Bytes}
    (hp : parseChunked ctx buf = (.ok,c,rest)) (hneg : c.size < 0) :
    dataOf (filterLoop mem (turns + 1) ctx buf).bufs = none := by
  rw [filterLoop_ok hp,if_pos (by omega),linked_of_neg hneg]
  split <;> rfl

theorem agrees (mem : Bytes) {turns : ℕ} {ctx : Ctx} {buf : Bytes} (hs : Sized (settle ctx.toPlace))
    (hturns : buf.length < turns) :
    Agrees (filterLoop mem turns ctx buf) (feed turn (settle ctx.toPlace) buf) := by
  induction turns generalizing ctx buf with
  | zero => omega
  | succ turns ih =>
    obtain ⟨q,hl,hf⟩ | ⟨q,pre,ch,rest,hl,rfl,hf,hd⟩ | ⟨q,rest,hl,hf⟩ | ⟨q,rest,hl,hf⟩ :=
      parseLoop_cases (settle ctx.toPlace) buf
    · have hp : parseChunked ctx buf = (.again,⟨q,minimalLength q⟩,[]) := by simp only [parseChunked,hl]
      rw [filterLoop_again hp,hf]
      refine ⟨rfl,⟨rfl,rfl⟩,fun r hr => ?_⟩
      rw [Stand.again.inj hr]
    · have hp : parseChunked ctx (pre ++ ch :: rest) = (.ok,⟨q,minimalLength q⟩,ch :: rest) := by
        simp only [parseChunked,hl]
      have hq : q = ⟨.chunkData,q.size⟩ := by rw [← hd]
      have hne : q.size ≠ 0 := hs.feed hf (.inr (.inr hd))
      rw [List.length_append,List.length_cons] at hturns
      by_cases hneg : q.size < 0
      · have hstop : feed turn (settle ctx.toPlace) (pre ++ ch :: rest) = ⟨[],.stopped .negative rest⟩ :=
          feed_of_stop hf (turn_data_negative hd hneg ch)
        rw [hstop]
        exact ⟨dataOf_of_negative hp hneg,trivial,nofun⟩
      rw [filterLoop_ok hp]
      dsimp only
      split_ifs with hle
      · -- the buffer holds the rest of the chunk
        obtain ⟨n,hn⟩ := Int.eq_ofNat_of_zero_le (not_lt.mp hneg)
        rw [seek_of_nonneg (not_lt.mp hneg),linked_of_nonneg (not_lt.mp hneg),hn,Int.toNat_natCast]
        have hlen : ((ch :: rest).take n).length = n := by
          rw [List.length_take]
          omega
        have htaken := feed_data (n := n) ((ch :: rest).take n) (by omega) (by omega)
        have hplace : settle ⟨.chunkData,0⟩ = settle { q with size := 0 } := by rw [hd]
        rw [hlen,sub_self,← hn,← hq,hplace] at htaken
        have hrest := @ih ⟨{ q with size := 0 },minimalLength q⟩ ((ch :: rest).drop n)
          (hplace ▸ sized_settle_data 0) (by rw [List.length_drop,List.length_cons]; omega)
        have hall := hrest.link hf htaken
        rwa [List.take_append_drop] at hall
      · -- the buffer ends inside the chunk
        have htaken := feed_data (n := q.size) (ch :: rest) (by omega) (by omega)
        have hplace : settle ⟨.chunkData,q.size - (ch :: rest).length⟩ =
          settle { q with size := q.size - (ch :: rest).length } := by rw [hd]
        rw [← hq,hplace] at htaken
        have hrest := @ih ⟨{ q with size := q.size - (ch :: rest).length },minimalLength q⟩ []
          (hplace ▸ sized_settle_data _) (by rw [List.length_nil]; omega)
        have hall := hrest.link hf htaken
        rwa [List.append_nil] at hall
    · have hp : parseChunked ctx buf = (.done,{ ctx with size := q.size },buf) := by
        simp only [parseChunked,hl]
      rw [filterLoop_done hp,hf]
      exact ⟨rfl,rfl,nofun⟩
    · have hp : parseChunked ctx buf = (.error,{ ctx with size := q.size },buf) := by
        simp only [parseChunked,hl]
      rw [filterLoop_error hp,hf]
      exact ⟨rfl,rfl,nofun⟩

theorem runFilter_agrees (front : Bytes) {ctx : Ctx} (buf : Bytes) (hs : Sized ctx.toPlace) :
    Agrees (runFilter (front ++ buf) ctx buf) (feed turn ctx.toPlace buf) := by
  have hsettled : Sized (settle ctx.toPlace) := by rwa [hs.settle_eq]
  have hturns : buf.length < (front ++ buf).length + 3 := by
    rw [List.length_append]
    omega
  have h := agrees (front ++ buf) hsettled hturns
  rwa [hs.settle_eq] at h

/-! Loops that never end. -/

/-- Where the next turn of the loop begins, when this one has taken data. -/
def next (mem : Bytes) (p : Place) (buf : Bytes) : Option Bytes :=
  match parseChunked ⟨p,0⟩ buf with
  | (.ok,c,rest) => if c.size ≤ rest.length then seek mem rest c.size else none
  | _ => none

/-- The place behind data that has been taken. -/
def spent : Place := ⟨.chunkData,0⟩

section Endless

variable {mem buf b rest : Bytes} {p : Place} {turns : ℕ} {l : ℤ} {c : Ctx}

/-- A chunk is found whatever length was named before. -/
theorem parseChunked_ok (h : parseChunked ⟨p,l⟩ buf = (.ok,c,rest)) :
    (∀ k, parseChunked ⟨p,k⟩ buf = (.ok,c,rest)) ∧ c.state = .chunkData ∧ rest <:+ buf := by
  obtain ⟨q,hl,-⟩ | ⟨q,pre,ch,tail,hl,rfl,-,hd⟩ | ⟨q,tail,hl,-⟩ | ⟨q,tail,hl,-⟩ :=
    parseLoop_cases (settle p) buf
  all_goals simp only [parseChunked,hl,Prod.mk.injEq,reduceCtorEq,false_and] at h
  obtain ⟨-,rfl,rfl⟩ := h
  exact ⟨fun k => by simp only [parseChunked,hl],hd,List.suffix_append pre _⟩

theorem next_of_endless (h : (filterLoop mem (turns + 2) ⟨p,l⟩ buf).outcome = .endless) :
    ∃ b l', next mem p buf = some b ∧ (filterLoop mem (turns + 1) ⟨spent,l'⟩ b).outcome = .endless := by
  rcases hp : parseChunked ⟨p,l⟩ buf with ⟨rc,c,rest⟩
  cases rc with
  | again =>
    rw [filterLoop_again hp] at h
    cases h
  | done =>
    rw [filterLoop_done hp] at h
    cases h
  | error =>
    rw [filterLoop_error hp] at h
    cases h
  | ok =>
    obtain ⟨hall,hd,-⟩ := parseChunked_ok hp
    rw [filterLoop_ok hp] at h
    split_ifs at h with hle
    · cases hb : seek mem rest c.size with
      | none =>
        rw [hb] at h
        cases h
      | some b =>
        rw [hb] at h
        refine ⟨b,c.length,by simp only [next,hall 0,if_pos hle,hb],?_⟩
        rw [spent,← hd]
        exact h
    · -- the buffer is at its end, and the next turn finds nothing in it
      have hnil : parseChunked { c with size := c.size - rest.length } [] =
          (.again,⟨_,_⟩,[]) := rfl
      have hlast : (filterLoop mem (turns + 1) { c with size := c.size - rest.length } []).outcome =
          .again := by rw [filterLoop_again hnil]
      exact absurd (hlast.symm.trans h) (by decide)

theorem endless_of_next (h : next mem p buf = some b) : ∃ l', ∀ turns l,
    (filterLoop mem (turns + 1) ⟨p,l⟩ buf).outcome = (filterLoop mem turns ⟨spent,l'⟩ b).outcome := by
  unfold next at h
  split at h
  · rename_i c rest hp
    obtain ⟨hall,hd,-⟩ := parseChunked_ok hp
    split at h
    · rename_i hle
      refine ⟨c.length,fun turns l => ?_⟩
      rw [filterLoop_ok (hall l),if_pos hle,h,spent,← hd]
      rfl
    · contradiction
  · contradiction

theorem steps_of_endless (h : (filterLoop mem (turns + 1) ⟨spent,l⟩ buf).outcome = .endless) :
    (steps (next mem spent) turns buf).isSome := by
  induction turns generalizing buf l with
  | zero => rfl
  | succ turns ih =>
    obtain ⟨b,l',hb,hrest⟩ := next_of_endless h
    rw [steps,hb]
    exact ih hrest

theorem endless_of_steps (h : (steps (next mem spent) turns buf).isSome) (l : ℤ) :
    (filterLoop mem turns ⟨spent,l⟩ buf).outcome = .endless := by
  induction turns generalizing buf l with
  | zero => rfl
  | succ turns ih =>
    obtain ⟨d,hd⟩ := Option.isSome_iff_exists.mp h
    obtain ⟨b,hb,hrest⟩ := Option.bind_eq_some_iff.mp hd
    obtain ⟨l',hsame⟩ := endless_of_next hb
    rw [hsame]
    exact ih (Option.isSome_iff_exists.mpr ⟨d,hrest⟩) l'

theorem suffix_of_next (hbuf : buf <:+ mem) (h : next mem p buf = some b) : b <:+ mem := by
  unfold next at h
  split at h
  · rename_i c rest hp
    split at h
    · unfold seek at h
      split_ifs at h
      · cases h
        exact (List.drop_suffix _ _).trans ((parseChunked_ok hp).2.2.trans hbuf)
      · cases h
        exact List.drop_suffix _ _
    · contradiction
  · contradiction

/-- A loop that has made more turns than the buffer has places never ends. -/
theorem endless_forever {ctx : Ctx} (hbuf : buf <:+ mem)
    (h : (runFilter mem ctx buf).outcome = .endless) (turns : ℕ) : (filterLoop mem turns ctx buf).outcome = .endless := by
  cases turns with
  | zero => rfl
  | succ turns =>
    obtain ⟨b,l,hb,hrest⟩ := next_of_endless h
    have hS : ∀ xs ∈ mem.tails.toFinset, ∀ ys, next mem spent xs = some ys →
        ys ∈ mem.tails.toFinset := by
      intro xs hxs ys hys
      rw [List.mem_toFinset,List.mem_tails] at hxs ⊢
      exact suffix_of_next hxs hys
    have hmem : b ∈ mem.tails.toFinset := by
      rw [List.mem_toFinset,List.mem_tails]
      exact suffix_of_next hbuf hb
    have hcard : mem.tails.toFinset.card ≤ mem.length + 1 := by
      have hle := mem.tails.toFinset_card_le
      rwa [List.length_tails] at hle
    have hforever := steps_forever hS hmem (isSome_of_le hcard (steps_of_endless hrest)) turns
    obtain ⟨l',hsame⟩ := endless_of_next hb
    rw [hsame]
    exact endless_of_steps hforever l'

/-- The size is 2 ^ 64 - 18: the position moves back to the end of the line before it. -/
example :
    let mem := [49,10,97,10,102,102,102,102,102,102,102,102,102,102,102,102,102,102,101,101,10,98]
    (runFilter mem ⟨start,0⟩ mem).outcome = .endless := by decide +kernel

/-- Once the loop has ended, more turns change nothing. -/
theorem filterLoop_of_le {ctx : Ctx} {m n : ℕ} (hmn : m ≤ n)
    (h : (filterLoop mem m ctx buf).outcome ≠ .endless) :
    filterLoop mem n ctx buf = filterLoop mem m ctx buf := by
  induction m generalizing n ctx buf with
  | zero => exact absurd rfl h
  | succ m ih =>
    obtain ⟨n,rfl⟩ := Nat.exists_eq_add_of_le' (Nat.one_le_of_lt hmn)
    have hmn := Nat.le_of_succ_le_succ hmn
    rcases hp : parseChunked ctx buf with ⟨rc,c,rest⟩
    cases rc with
    | again => rw [filterLoop_again hp,filterLoop_again hp]
    | done => rw [filterLoop_done hp,filterLoop_done hp]
    | error => rw [filterLoop_error hp,filterLoop_error hp]
    | ok =>
      rw [filterLoop_ok hp] at h ⊢
      rw [filterLoop_ok hp]
      split_ifs at h ⊢ with hle
      · cases hb : seek mem rest c.size with
        | none => rfl
        | some b =>
          rw [hb] at h
          exact congrArg (Filtered.link _) (ih hmn h)
      · exact congrArg (Filtered.link _) (ih hmn h)

end Endless

end SunshineService.Nginx.Chunked
