import SunshineService.Nginx.ChunkedParser

/-! # The chunked format

A body is a list of chunks and a last chunk. The structures carry what makes their
text well formed, so a body is well formed by construction. The parser ends a response
exactly at the end of a body, and it is more liberal than the format it reads: line ends
may lack the carriage return, and any text may stand between the data and the line end
behind it. A size counts modulo the range of `off_t`.
-/
namespace SunshineService.Nginx.Chunked
open StreamMachine Utf8

def Digits (ds : Bytes) : Prop := ∀ b ∈ ds, (digitOf b).isSome

/-- Text inside a line. -/
def Text (w : Bytes) : Prop := ∀ b ∈ w, b ≠ cr ∧ b ≠ lf

instance (ds : Bytes) : Decidable (Digits ds) := List.decidableBAll (fun b => (digitOf b).isSome = true) ds

instance (w : Bytes) : Decidable (Text w) := List.decidableBAll (fun b => b ≠ cr ∧ b ≠ lf) w

def Eol (e : Bytes) : Prop := e = [lf] ∨ e = [cr,lf]

def Extension (x : Bytes) : Prop := x = [] ∨ ∃ b w, x = b :: w ∧ opensExtension b ∧ Text w

/-- The number that hexadecimal digits continue. -/
def numberFrom (v : ℤ) (ds : Bytes) : ℤ := ds.foldl (fun v b => v * 16 + (digitOf b).getD 0) v

structure SizeLine where
  digits : Bytes
  extension : Bytes
  eol : Bytes
  digits_ne : digits ≠ []
  isDigits : Digits digits
  isExtension : Extension extension
  isEol : Eol eol

namespace SizeLine

def text (l : SizeLine) : Bytes := l.digits ++ (l.extension ++ l.eol)

def number (l : SizeLine) : ℤ := numberFrom 0 l.digits

def size (l : SizeLine) : ℤ := offT l.number

end SizeLine

structure Chunk extends SizeLine where
  data : Bytes
  junk : Bytes
  close : Bytes
  data_ne : data ≠ []
  data_length : (data.length : ℤ) = toSizeLine.size
  isJunk : Text junk
  isClose : Eol close

def Chunk.text (c : Chunk) : Bytes := c.toSizeLine.text ++ (c.data ++ (c.junk ++ c.close))

structure Header where
  line : Bytes
  eol : Bytes
  line_ne : line ≠ []
  isText : Text line
  isEol : Eol eol

structure LastChunk extends SizeLine where
  headers : List Header
  close : Bytes
  size_zero : toSizeLine.size = 0
  isClose : Eol close

def headersText (hs : List Header) : Bytes := (hs.map (fun h => h.line ++ h.eol)).flatten

def LastChunk.text (l : LastChunk) : Bytes := l.toSizeLine.text ++ (headersText l.headers ++ l.close)

def chunksText (cs : List Chunk) : Bytes := (cs.map Chunk.text).flatten

def chunksData (cs : List Chunk) : Bytes := (cs.map Chunk.data).flatten

theorem chunksText_append (cs ds : List Chunk) :
    chunksText (cs ++ ds) = chunksText cs ++ chunksText ds := by simp [chunksText]

theorem chunksData_append (cs ds : List Chunk) :
    chunksData (cs ++ ds) = chunksData cs ++ chunksData ds := by simp [chunksData]

@[simp] theorem chunksText_singleton (c : Chunk) : chunksText [c] = c.text := by simp [chunksText]

@[simp] theorem chunksData_singleton (c : Chunk) : chunksData [c] = c.data := by simp [chunksData]

structure Body where
  chunks : List Chunk
  last : LastChunk

def Body.text (b : Body) : Bytes := chunksText b.chunks ++ b.last.text

def Body.data (b : Body) : Bytes := chunksData b.chunks

/-! What the plain machine makes of each part. -/

theorem offT_step (v d : ℤ) : offT (offT v * 16 + d) = offT (v * 16 + d) := by
  rw [offT,offT,Int.add_bmod,Int.bmod_mul_bmod,← Int.add_bmod]
  rfl

theorem digitOf_range {b : UInt8} {d : ℤ} (h : digitOf b = some d) : 0 ≤ d ∧ d < 16 := by
  unfold digitOf at h
  split_ifs at h with hdec hhex <;> simp only [UInt8.le_iff_toNat_le] at * <;>
    obtain rfl := Option.some.inj h
  · obtain ⟨hl,hr⟩ := hdec
    have hl : 48 ≤ b.toNat := hl
    have hr : b.toNat ≤ 57 := hr
    omega
  · obtain ⟨hl,hr⟩ := hhex
    have hl : 97 ≤ (b ||| 0x20).toNat := hl
    have hr : (b ||| 0x20).toNat ≤ 102 := hr
    omega

theorem digitOf_cr : digitOf cr = none := by decide

theorem digitOf_lf : digitOf lf = none := by decide

theorem digitOf_opensExtension {b : UInt8} (h : opensExtension b) : digitOf b = none := by
  simp only [opensExtension,Bool.or_eq_true,decide_eq_true_eq] at h
  obtain (rfl | rfl) | rfl := h <;> decide

theorem not_eol_of_opensExtension {b : UInt8} (h : opensExtension b) : b ≠ cr ∧ b ≠ lf := by
  simp only [opensExtension,Bool.or_eq_true,decide_eq_true_eq] at h
  obtain (rfl | rfl) | rfl := h <;> decide

/-- The place stays as it is until the line ends. -/
def Skips (p : Place) : Prop := ∀ b, b ≠ cr → b ≠ lf → switch p b = .next p

/-- Both kinds of line end lead from `p` to `q`. -/
def EndsLine (p q : Place) : Prop :=
  switch p lf = .next q ∧ ∃ r, switch p cr = .next r ∧ switch r lf = .next q

theorem feed_single {p q : Place} {b : UInt8} (h : switch p b = .next q) :
    feed turn p [b] = ⟨[],.again q⟩ := by
  rw [feed_next (turn_of_next h),feed_nil]
  rfl

theorem feed_silent_append {p q : Place} {xs : Bytes} (h : feed turn p xs = ⟨[],.again q⟩) (ys : Bytes) :
    feed turn p (xs ++ ys) = feed turn q ys := by
  rw [feed_append_of_again h]
  rfl

theorem feed_text {p : Place} (hp : Skips p) {w : Bytes} (hw : Text w) :
    feed turn p w = ⟨[],.again p⟩ := by
  induction w with
  | nil => rfl
  | cons b w ih =>
    obtain ⟨hcr,hlf⟩ := hw b List.mem_cons_self
    rw [feed_next (turn_of_next (hp b hcr hlf)),ih (fun c hc => hw c (List.mem_cons_of_mem b hc))]
    rfl

theorem feed_eol {p q : Place} (h : EndsLine p q) {e : Bytes} (he : Eol e) :
    feed turn p e = ⟨[],.again q⟩ := by
  obtain ⟨hlf,r,hcr,hr⟩ := h
  obtain rfl | rfl := he
  · exact feed_single hlf
  · exact (feed_silent_append (feed_single hcr) [lf]).trans (feed_single hr)

theorem skips_chunkExtension (v : ℤ) : Skips ⟨.chunkExtension,v⟩ :=
  fun b hcr hlf => by simp only [switch,if_neg hcr,if_neg hlf]

theorem skips_lastChunkExtension (v : ℤ) : Skips ⟨.lastChunkExtension,v⟩ :=
  fun b hcr hlf => by simp only [switch,if_neg hcr,if_neg hlf]

theorem skips_afterData (v : ℤ) : Skips ⟨.afterData,v⟩ :=
  fun b hcr hlf => by simp only [switch,if_neg hcr,if_neg hlf]

theorem skips_trailerHeader (v : ℤ) : Skips ⟨.trailerHeader,v⟩ :=
  fun b hcr hlf => by simp only [switch,if_neg hcr,if_neg hlf]

theorem endsLine_chunkExtension (v : ℤ) : EndsLine ⟨.chunkExtension,v⟩ ⟨.chunkData,v⟩ :=
  ⟨rfl,⟨.chunkExtensionAlmostDone,v⟩,rfl,rfl⟩

theorem endsLine_lastChunkExtension (v : ℤ) : EndsLine ⟨.lastChunkExtension,v⟩ ⟨.trailer,v⟩ :=
  ⟨rfl,⟨.lastChunkExtensionAlmostDone,v⟩,rfl,rfl⟩

theorem endsLine_afterData (v : ℤ) : EndsLine ⟨.afterData,v⟩ ⟨.chunkStart,v⟩ :=
  ⟨rfl,⟨.afterDataAlmostDone,v⟩,rfl,rfl⟩

theorem endsLine_trailerHeader (v : ℤ) : EndsLine ⟨.trailerHeader,v⟩ ⟨.trailer,v⟩ :=
  ⟨rfl,⟨.trailerHeaderAlmostDone,v⟩,rfl,rfl⟩

/-- Where the line of a size leads: a zero size is the last one. -/
def afterLine (v : ℤ) : Place := if v = 0 then ⟨.trailer,v⟩ else ⟨.chunkData,v⟩

theorem endsLine_chunkSize (v : ℤ) : EndsLine ⟨.chunkSize,v⟩ (afterLine v) := by
  unfold afterLine
  by_cases hv : v = 0
  · subst hv
    exact ⟨rfl,⟨.lastChunkExtensionAlmostDone,0⟩,rfl,rfl⟩
  · rw [if_neg hv]
    refine ⟨?_,⟨.chunkExtensionAlmostDone,v⟩,?_,rfl⟩ <;>
      simp [switch,digitOf_lf,digitOf_cr,hv,show lf ≠ cr by decide]

theorem switch_digit {v d : ℤ} {b : UInt8} (h : digitOf b = some d) :
    switch ⟨.chunkSize,offT v⟩ b = .next ⟨.chunkSize,offT (v * 16 + d)⟩ := by
  simp only [switch,h,offT_step]

theorem feed_digits {v : ℤ} {ds : Bytes} (hds : Digits ds) :
    feed turn ⟨.chunkSize,offT v⟩ ds = ⟨[],.again ⟨.chunkSize,offT (numberFrom v ds)⟩⟩ := by
  induction ds generalizing v with
  | nil => rfl
  | cons b ds ih =>
    obtain ⟨d,hd⟩ := Option.isSome_iff_exists.mp (hds b List.mem_cons_self)
    rw [feed_next (turn_of_next (switch_digit hd)),ih (fun c hc => hds c (List.mem_cons_of_mem b hc))]
    simp [numberFrom,hd]

theorem offT_of_lt {n : ℤ} (h0 : 0 ≤ n) (h : n < 2 ^ 63) : offT n = n := by
  apply Int.bmod_eq_of_le <;> norm_num <;> omega

/-- The first digit sets the size that the others continue. -/
theorem feed_number {v : ℤ} {ds : Bytes} (hne : ds ≠ []) (hds : Digits ds) :
    feed turn ⟨.chunkStart,v⟩ ds = ⟨[],.again ⟨.chunkSize,offT (numberFrom 0 ds)⟩⟩ := by
  cases ds with
  | nil => exact absurd rfl hne
  | cons b ds =>
    obtain ⟨d,hd⟩ := Option.isSome_iff_exists.mp (hds b List.mem_cons_self)
    obtain ⟨h0,h16⟩ := digitOf_range hd
    have hsw : switch ⟨.chunkStart,v⟩ b = .next ⟨.chunkSize,offT d⟩ := by
      simp only [switch,hd,offT_of_lt h0 (by omega)]
    rw [feed_next (turn_of_next hsw),feed_digits (fun c hc => hds c (List.mem_cons_of_mem b hc))]
    simp [numberFrom,hd]

theorem feed_sizeLine (v : ℤ) (l : SizeLine) :
    feed turn ⟨.chunkStart,v⟩ l.text = ⟨[],.again (afterLine l.size)⟩ := by
  have hnumber : feed turn ⟨.chunkStart,v⟩ l.text = feed turn ⟨.chunkSize,l.size⟩ (l.extension ++ l.eol) :=
    feed_silent_append (feed_number l.digits_ne l.isDigits) _
  rw [hnumber]
  obtain hx | ⟨b,w,hx,hb,hw⟩ := l.isExtension
  · rw [hx]
    exact feed_eol (endsLine_chunkSize l.size) l.isEol
  · obtain ⟨hcr,hlf⟩ := not_eol_of_opensExtension hb
    rw [hx,List.cons_append]
    by_cases hz : l.size = 0
    · have hsw : switch ⟨.chunkSize,l.size⟩ b = .next ⟨.lastChunkExtension,l.size⟩ := by
        simp only [switch,digitOf_opensExtension hb,hz,if_true,if_neg hcr,if_neg hlf,hb]
      rw [← List.singleton_append,feed_silent_append (feed_single hsw),
        feed_silent_append (feed_text (skips_lastChunkExtension _) hw),afterLine,if_pos hz]
      exact feed_eol (endsLine_lastChunkExtension _) l.isEol
    · have hsw : switch ⟨.chunkSize,l.size⟩ b = .next ⟨.chunkExtension,l.size⟩ := by
        simp only [switch,digitOf_opensExtension hb,hz,if_false,if_neg hcr,if_neg hlf,hb,if_true]
      rw [← List.singleton_append,feed_silent_append (feed_single hsw),
        feed_silent_append (feed_text (skips_chunkExtension _) hw),afterLine,if_neg hz]
      exact feed_eol (endsLine_chunkExtension _) l.isEol

theorem feed_chunk (v : ℤ) (c : Chunk) :
    feed turn ⟨.chunkStart,v⟩ c.text = ⟨c.data,.again ⟨.chunkStart,0⟩⟩ := by
  have hlen := List.length_pos_iff.mpr c.data_ne
  have hsize := c.data_length
  have hdata := feed_data (n := c.size) c.data (by omega) (by omega)
  rw [hsize,sub_self] at hdata
  have hafter : afterLine c.size = ⟨.chunkData,c.size⟩ := if_neg (by omega)
  have htail : feed turn (settle ⟨.chunkData,0⟩) (c.junk ++ c.close) = ⟨[],.again ⟨.chunkStart,0⟩⟩ :=
    (feed_silent_append (feed_text (skips_afterData 0) c.isJunk) _).trans
      (feed_eol (endsLine_afterData 0) c.isClose)
  rw [Chunk.text,feed_silent_append (feed_sizeLine v c.toSizeLine),hafter,
    feed_append_of_again hdata,htail,List.append_nil]

theorem feed_chunks (v : ℤ) (cs : List Chunk) :
    ∃ u, feed turn ⟨.chunkStart,v⟩ (chunksText cs) = ⟨chunksData cs,.again ⟨.chunkStart,u⟩⟩ := by
  induction cs generalizing v with
  | nil => exact ⟨v,rfl⟩
  | cons c cs ih =>
    obtain ⟨u,hu⟩ := ih 0
    refine ⟨u,?_⟩
    rw [← List.singleton_append,chunksText_append,chunksData_append,chunksText_singleton,
      chunksData_singleton,feed_append_of_again (feed_chunk v c),hu]

theorem switch_trailer (v : ℤ) {b : UInt8} (hcr : b ≠ cr) (hlf : b ≠ lf) :
    switch ⟨.trailer,v⟩ b = .next ⟨.trailerHeader,v⟩ := by
  simp only [switch,if_neg hcr,if_neg hlf]

theorem headersText_cons (h : Header) (hs : List Header) :
    ∃ b w, b ≠ cr ∧ b ≠ lf ∧ Text w ∧ headersText (h :: hs) = b :: (w ++ (h.eol ++ headersText hs)) := by
  obtain ⟨b,w,hline⟩ := List.exists_cons_of_ne_nil h.line_ne
  have htext := h.isText
  rw [hline] at htext
  obtain ⟨hcr,hlf⟩ := htext b List.mem_cons_self
  exact ⟨b,w,hcr,hlf,fun c hc => htext c (List.mem_cons_of_mem b hc),by simp [headersText,hline]⟩

theorem feed_headers (v : ℤ) (hs : List Header) :
    feed turn ⟨.trailer,v⟩ (headersText hs) = ⟨[],.again ⟨.trailer,v⟩⟩ := by
  induction hs with
  | nil => rfl
  | cons h hs ih =>
    obtain ⟨b,w,hcr,hlf,hw,hall⟩ := headersText_cons h hs
    rw [hall,← List.singleton_append,feed_silent_append (feed_single (switch_trailer v hcr hlf)),
      feed_silent_append (feed_text (skips_trailerHeader v) hw),
      feed_silent_append (feed_eol (endsLine_trailerHeader v) h.isEol),ih]

theorem feed_lastChunk (v : ℤ) (l : LastChunk) (rest : Bytes) :
    feed turn ⟨.chunkStart,v⟩ (l.text ++ rest) = ⟨[],.stopped .done rest⟩ := by
  have hafter : afterLine l.size = ⟨.trailer,l.size⟩ := if_pos l.size_zero
  rw [LastChunk.text,List.append_assoc,feed_silent_append (feed_sizeLine v l.toSizeLine),hafter,
    List.append_assoc,feed_silent_append (feed_headers _ l.headers)]
  have hdone : ∀ p : Place, switch p lf = .done → feed turn p (lf :: rest) = ⟨[],.stopped .done rest⟩ :=
    fun p hp => feed_stop (turn_of_done hp) rest
  obtain hc | hc := l.isClose <;> rw [hc]
  · exact hdone _ rfl
  · have hcr : switch ⟨.trailer,l.size⟩ cr = .next ⟨.trailerAlmostDone,l.size⟩ := rfl
    exact (feed_silent_append (feed_single hcr) _).trans (hdone _ rfl)

/-- A well formed body is read to its end and gives its data. -/
theorem feed_body (b : Body) (rest : Bytes) :
    feed turn start (b.text ++ rest) = ⟨b.data,.stopped .done rest⟩ := by
  obtain ⟨u,hu⟩ := feed_chunks 0 b.chunks
  rw [Body.text,List.append_assoc,start,feed_append_of_again hu,feed_lastChunk,List.append_nil]
  rfl

/-! What the text read so far is, at each place. -/

inductive Reading : Place → Bytes → Bytes → Prop
  | chunkStart (cs : List Chunk) (v : ℤ) :
    Reading ⟨.chunkStart,v⟩ (chunksText cs) (chunksData cs)
  | chunkSize (cs : List Chunk) (ds : Bytes) (hne : ds ≠ []) (hds : Digits ds) :
    Reading ⟨.chunkSize,offT (numberFrom 0 ds)⟩ (chunksText cs ++ ds) (chunksData cs)
  | extension (cs : List Chunk) (ds : Bytes) (b : UInt8) (w : Bytes) (v : ℤ) (hne : ds ≠ [])
    (hds : Digits ds) (hb : opensExtension b) (hw : Text w) (hv : v = offT (numberFrom 0 ds)) :
    Reading ⟨if v = 0 then .lastChunkExtension else .chunkExtension,v⟩
      (chunksText cs ++ (ds ++ b :: w)) (chunksData cs)
  | extensionAlmostDone (cs : List Chunk) (ds x : Bytes) (v : ℤ) (hne : ds ≠ [])
    (hds : Digits ds) (hx : Extension x) (hv : v = offT (numberFrom 0 ds)) :
    Reading ⟨if v = 0 then .lastChunkExtensionAlmostDone else .chunkExtensionAlmostDone,v⟩
      (chunksText cs ++ (ds ++ (x ++ [cr]))) (chunksData cs)
  | chunkData (cs : List Chunk) (l : SizeLine) (d : Bytes) (hsize : l.size ≠ 0)
    (hd : d = [] ∨ (d.length : ℤ) < l.size) :
    Reading ⟨.chunkData,l.size - d.length⟩ (chunksText cs ++ (l.text ++ d)) (chunksData cs ++ d)
  | afterData (cs : List Chunk) (l : SizeLine) (d w : Bytes) (hne : d ≠ [])
    (hd : (d.length : ℤ) = l.size) (hw : Text w) :
    Reading ⟨.afterData,0⟩ (chunksText cs ++ (l.text ++ (d ++ w))) (chunksData cs ++ d)
  | afterDataAlmostDone (cs : List Chunk) (l : SizeLine) (d w : Bytes) (hne : d ≠ [])
    (hd : (d.length : ℤ) = l.size) (hw : Text w) :
    Reading ⟨.afterDataAlmostDone,0⟩ (chunksText cs ++ (l.text ++ (d ++ (w ++ [cr]))))
      (chunksData cs ++ d)
  | trailer (cs : List Chunk) (l : SizeLine) (hs : List Header) (hsize : l.size = 0) :
    Reading ⟨.trailer,0⟩ (chunksText cs ++ (l.text ++ headersText hs)) (chunksData cs)
  | trailerAlmostDone (cs : List Chunk) (l : SizeLine) (hs : List Header) (hsize : l.size = 0) :
    Reading ⟨.trailerAlmostDone,0⟩ (chunksText cs ++ (l.text ++ (headersText hs ++ [cr])))
      (chunksData cs)
  | trailerHeader (cs : List Chunk) (l : SizeLine) (hs : List Header) (w : Bytes)
    (hsize : l.size = 0) (hne : w ≠ []) (hw : Text w) :
    Reading ⟨.trailerHeader,0⟩ (chunksText cs ++ (l.text ++ (headersText hs ++ w))) (chunksData cs)
  | trailerHeaderAlmostDone (cs : List Chunk) (l : SizeLine) (hs : List Header) (w : Bytes)
    (hsize : l.size = 0) (hne : w ≠ []) (hw : Text w) :
    Reading ⟨.trailerHeaderAlmostDone,0⟩ (chunksText cs ++ (l.text ++ (headersText hs ++ (w ++ [cr]))))
      (chunksData cs)

theorem text_nil : Text [] := fun _ h => absurd h List.not_mem_nil

theorem Text.concat {w : Bytes} {b : UInt8} (hw : Text w) (hcr : b ≠ cr) (hlf : b ≠ lf) :
    Text (w ++ [b]) := by
  intro c hc
  obtain hc | hc := List.mem_append.mp hc
  · exact hw c hc
  · rw [List.mem_singleton.mp hc]
    exact ⟨hcr,hlf⟩

theorem numberFrom_concat {v d : ℤ} {ds : Bytes} {b : UInt8} (h : digitOf b = some d) :
    numberFrom v (ds ++ [b]) = numberFrom v ds * 16 + d := by
  simp [numberFrom,h]

theorem Digits.concat {ds : Bytes} {b : UInt8} (hds : Digits ds) (hb : (digitOf b).isSome) :
    Digits (ds ++ [b]) := by
  intro c hc
  obtain hc | hc := List.mem_append.mp hc
  · exact hds c hc
  · rwa [List.mem_singleton.mp hc]

/-- A line that ends is a line of a size. -/
theorem Reading.line (cs : List Chunk) {ds x e : Bytes} (hne : ds ≠ []) (hds : Digits ds)
    (hx : Extension x) (he : Eol e) :
    Reading (afterLine (offT (numberFrom 0 ds))) (chunksText cs ++ (ds ++ (x ++ e))) (chunksData cs) := by
  let l : SizeLine := ⟨ds,x,e,hne,hds,hx,he⟩
  unfold afterLine
  split
  · rename_i hz
    rw [hz]
    have h := Reading.trailer cs l [] hz
    simp only [headersText,List.map_nil,List.flatten_nil,List.append_nil] at h
    exact h
  · rename_i hz
    have h := Reading.chunkData cs l [] hz (.inl rfl)
    simp only [List.append_nil,List.length_nil,Nat.cast_zero,sub_zero] at h
    exact h

theorem Reading.chunk (cs : List Chunk) {l : SizeLine} {d w e : Bytes} (hne : d ≠ [])
    (hd : (d.length : ℤ) = l.size) (hw : Text w) (he : Eol e) :
    Reading ⟨.chunkStart,0⟩ (chunksText cs ++ (l.text ++ (d ++ (w ++ e)))) (chunksData cs ++ d) := by
  let c : Chunk := ⟨l,d,w,e,hne,hd,hw,he⟩
  have h := Reading.chunkStart (cs ++ [c]) 0
  rw [chunksText_append,chunksData_append,chunksText_singleton,chunksData_singleton] at h
  exact h

theorem Reading.header (cs : List Chunk) {l : SizeLine} (hs : List Header) {w e : Bytes}
    (hsize : l.size = 0) (hne : w ≠ []) (hw : Text w) (he : Eol e) :
    Reading ⟨.trailer,0⟩ (chunksText cs ++ (l.text ++ (headersText hs ++ (w ++ e)))) (chunksData cs) := by
  have h := Reading.trailer cs l (hs ++ [⟨w,e,hne,hw,he⟩]) hsize
  simp only [headersText,List.map_append,List.flatten_append,List.map_singleton,List.flatten_cons,
    List.flatten_nil,List.append_nil] at h
  exact h

/-- A byte behind the digits of a size. -/
theorem turn_afterDigits {v : ℤ} {b : UInt8} (hb : digitOf b = none) :
    turn ⟨.chunkSize,v⟩ b =
      if b = cr then
        .next ⟨if v = 0 then .lastChunkExtensionAlmostDone else .chunkExtensionAlmostDone,v⟩ []
      else if b = lf then .next (afterLine v) []
      else if opensExtension b then
        .next ⟨if v = 0 then .lastChunkExtension else .chunkExtension,v⟩ []
      else .stop .invalid := by
  unfold turn switch afterLine
  simp only [hb]
  split_ifs <;> rfl

/-- A byte in an extension. -/
theorem turn_extension {v : ℤ} {b : UInt8} :
    turn ⟨if v = 0 then .lastChunkExtension else .chunkExtension,v⟩ b =
      if b = cr then
        .next ⟨if v = 0 then .lastChunkExtensionAlmostDone else .chunkExtensionAlmostDone,v⟩ []
      else if b = lf then .next (afterLine v) []
      else .next ⟨if v = 0 then .lastChunkExtension else .chunkExtension,v⟩ [] := by
  unfold turn switch afterLine
  split_ifs <;> simp_all

theorem turn_extensionAlmostDone {v : ℤ} {b : UInt8} :
    turn ⟨if v = 0 then .lastChunkExtensionAlmostDone else .chunkExtensionAlmostDone,v⟩ b =
      if b = lf then .next (afterLine v) [] else .stop .invalid := by
  unfold turn switch afterLine
  split_ifs <;> simp_all

theorem reading_kept : Kept turn Reading := by
  intro p text out b q emit h ht
  have hlf : Eol [lf] := .inl rfl
  have hcrlf : Eol [cr,lf] := .inr rfl
  cases h with
  | chunkStart cs v =>
    cases hd : digitOf b with
    | none => simp [turn,switch,hd] at ht
    | some d =>
      simp only [turn,switch,hd,Turn.next.injEq] at ht
      obtain ⟨rfl,rfl⟩ := ht
      obtain ⟨h0,h16⟩ := digitOf_range hd
      have h := Reading.chunkSize cs [b] (List.cons_ne_nil b []) (fun c hc => by
        rw [List.mem_singleton.mp hc,hd]
        rfl)
      have hn : offT (numberFrom 0 [b]) = d := by
        simp only [numberFrom,List.foldl_cons,List.foldl_nil,hd,Option.getD_some,zero_mul,zero_add]
        exact offT_of_lt h0 (by omega)
      rw [hn] at h
      simpa using h
  | chunkSize cs ds hne hds =>
    cases hd : digitOf b with
    | some d =>
      simp only [turn,switch,hd,Turn.next.injEq] at ht
      obtain ⟨rfl,rfl⟩ := ht
      have h := Reading.chunkSize cs (ds ++ [b]) (by simp) (hds.concat (by rw [hd]; rfl))
      rw [numberFrom_concat hd,← offT_step] at h
      simpa using h
    | none =>
      rw [turn_afterDigits hd] at ht
      by_cases hc : b = cr
      · rw [if_pos hc] at ht
        obtain ⟨rfl,rfl⟩ := Turn.next.inj ht
        have h := Reading.extensionAlmostDone cs ds [] _ hne hds (.inl rfl) rfl
        simpa [hc] using h
      rw [if_neg hc] at ht
      by_cases hl : b = lf
      · rw [if_pos hl] at ht
        obtain ⟨rfl,rfl⟩ := Turn.next.inj ht
        have h := Reading.line cs hne hds (.inl rfl) hlf
        simpa [hl] using h
      rw [if_neg hl] at ht
      by_cases hx : opensExtension b
      · rw [if_pos hx] at ht
        obtain ⟨rfl,rfl⟩ := Turn.next.inj ht
        have h := Reading.extension cs ds b [] _ hne hds hx text_nil rfl
        simpa using h
      · rw [if_neg hx] at ht
        cases ht
  | extension cs ds c w v hne hds hc hw hv =>
    rw [turn_extension] at ht
    have hx : Extension (c :: w) := .inr ⟨c,w,rfl,hc,hw⟩
    by_cases hcr : b = cr
    · rw [if_pos hcr] at ht
      obtain ⟨rfl,rfl⟩ := Turn.next.inj ht
      have h := Reading.extensionAlmostDone cs ds _ v hne hds hx hv
      simpa [hcr] using h
    rw [if_neg hcr] at ht
    by_cases hl : b = lf
    · rw [if_pos hl] at ht
      obtain ⟨rfl,rfl⟩ := Turn.next.inj ht
      have h := Reading.line cs hne hds hx hlf
      simpa [hl,← hv] using h
    · rw [if_neg hl] at ht
      obtain ⟨rfl,rfl⟩ := Turn.next.inj ht
      have h := Reading.extension cs ds c (w ++ [b]) v hne hds hc (hw.concat hcr hl) hv
      simpa using h
  | extensionAlmostDone cs ds x v hne hds hx hv =>
    rw [turn_extensionAlmostDone] at ht
    split at ht
    · rename_i hl
      obtain ⟨rfl,rfl⟩ := Turn.next.inj ht
      have h := Reading.line cs hne hds hx hcrlf
      simpa [hl,← hv] using h
    · cases ht
  | chunkData cs l d hsize hd =>
    by_cases hneg : l.size - d.length < 0
    · rw [turn_data_negative rfl hneg] at ht
      cases ht
    have hlt : (d.length : ℤ) < l.size := by
      obtain rfl | hd := hd
      · rw [List.length_nil] at hneg ⊢
        omega
      · exact hd
    have hlen : ((d ++ [b]).length : ℤ) = d.length + 1 := by simp
    rw [turn_data (by omega)] at ht
    obtain ⟨rfl,rfl⟩ := Turn.next.inj ht
    by_cases hlast : l.size - d.length - 1 = 0
    · -- the last byte of the chunk
      have h := Reading.afterData cs l (d ++ [b]) [] (by simp) (by omega) text_nil
      rw [hlast]
      simpa [settle] using h
    · have h := Reading.chunkData cs l (d ++ [b]) hsize (.inr (by omega))
      have hsized : Sized ⟨.chunkData,l.size - d.length - 1⟩ := fun _ => hlast
      rw [hsized.settle_eq]
      rw [hlen,← sub_sub] at h
      simpa using h
  | afterData cs l d w hne hd hw =>
    by_cases hc : b = cr
    · subst hc
      obtain ⟨rfl,rfl⟩ := Turn.next.inj ht
      have h := Reading.afterDataAlmostDone cs l d w hne hd hw
      simpa using h
    by_cases hl : b = lf
    · subst hl
      obtain ⟨rfl,rfl⟩ := Turn.next.inj ht
      have h := Reading.chunk cs hne hd hw hlf
      simpa using h
    · rw [turn_of_next (skips_afterData 0 b hc hl)] at ht
      obtain ⟨rfl,rfl⟩ := Turn.next.inj ht
      have h := Reading.afterData cs l d (w ++ [b]) hne hd (hw.concat hc hl)
      simpa using h
  | afterDataAlmostDone cs l d w hne hd hw =>
    by_cases hl : b = lf
    · subst hl
      obtain ⟨rfl,rfl⟩ := Turn.next.inj ht
      have h := Reading.chunk cs hne hd hw hcrlf
      simpa using h
    · simp [turn,switch,hl] at ht
  | trailer cs l hs hsize =>
    by_cases hc : b = cr
    · subst hc
      obtain ⟨rfl,rfl⟩ := Turn.next.inj ht
      have h := Reading.trailerAlmostDone cs l hs hsize
      simpa using h
    by_cases hl : b = lf
    · subst hl
      cases ht
    · rw [turn_of_next (switch_trailer 0 hc hl)] at ht
      obtain ⟨rfl,rfl⟩ := Turn.next.inj ht
      have hw : Text [b] := text_nil.concat hc hl
      have h := Reading.trailerHeader cs l hs [b] hsize (List.cons_ne_nil b []) hw
      simpa using h
  | trailerAlmostDone cs l hs hsize =>
    by_cases hl : b = lf
    · subst hl
      cases ht
    · simp [turn,switch,hl] at ht
  | trailerHeader cs l hs w hsize hne hw =>
    by_cases hc : b = cr
    · subst hc
      obtain ⟨rfl,rfl⟩ := Turn.next.inj ht
      have h := Reading.trailerHeaderAlmostDone cs l hs w hsize hne hw
      simpa using h
    by_cases hl : b = lf
    · subst hl
      obtain ⟨rfl,rfl⟩ := Turn.next.inj ht
      have h := Reading.header cs hs hsize hne hw hlf
      simpa using h
    · rw [turn_of_next (skips_trailerHeader 0 b hc hl)] at ht
      obtain ⟨rfl,rfl⟩ := Turn.next.inj ht
      have h := Reading.trailerHeader cs l hs (w ++ [b]) hsize (by simp) (hw.concat hc hl)
      simpa using h
  | trailerHeaderAlmostDone cs l hs w hsize hne hw =>
    by_cases hl : b = lf
    · subst hl
      obtain ⟨rfl,rfl⟩ := Turn.next.inj ht
      have h := Reading.header cs hs hsize hne hw hcrlf
      simpa using h
    · simp [turn,switch,hl] at ht

theorem reading_start : Reading start [] [] := Reading.chunkStart [] 0

theorem switch_of_done {p : Place} {b : UInt8} (h : turn p b = .stop .done) :
    (p.state = .trailer ∨ p.state = .trailerAlmostDone) ∧ b = lf := by
  cases hs : switch p b with
  | next q => simp [turn_of_next hs] at h
  | invalid => simp [turn_of_invalid hs] at h
  | data =>
    simp only [turn,hs] at h
    split at h <;> cases h
  | done =>
    unfold switch at hs
    split at hs <;> (repeat' split at hs) <;> simp_all

theorem switch_of_negative {p : Place} {b : UInt8} (h : turn p b = .stop .negative) :
    p.state = .chunkData ∧ p.size < 0 := by
  cases hs : switch p b with
  | next q => simp [turn_of_next hs] at h
  | invalid => simp [turn_of_invalid hs] at h
  | done => simp [turn_of_done hs] at h
  | data =>
    simp only [turn,hs] at h
    split at h
    · exact ⟨switch_data_iff.mp hs,by assumption⟩
    · cases h

theorem Reading.body (cs : List Chunk) (l : SizeLine) (hs : List Header) {e : Bytes} (hsize : l.size = 0)
    (he : Eol e) : ∃ b : Body, chunksText cs ++ (l.text ++ (headersText hs ++ e)) = b.text ∧
      chunksData cs = b.data :=
  ⟨⟨cs,⟨l,hs,e,hsize,he⟩⟩,rfl,rfl⟩

theorem Reading.done {p : Place} {text out : Bytes} {b : UInt8} (h : Reading p text out)
    (hb : turn p b = .stop .done) : ∃ body : Body, text ++ [b] = body.text ∧ out = body.data := by
  obtain ⟨hst,rfl⟩ := switch_of_done hb
  cases h with
  | trailer cs l hs hsize => simpa using Reading.body cs l hs hsize (.inl rfl)
  | trailerAlmostDone cs l hs hsize => simpa using Reading.body cs l hs hsize (.inr rfl)
  | extension => split at hst <;> simp at hst
  | extensionAlmostDone => split at hst <;> simp at hst
  | _ => simp at hst

theorem Reading.negative {p : Place} {text out : Bytes} {b : UInt8} (h : Reading p text out)
    (hb : turn p b = .stop .negative) : ∃ (cs : List Chunk) (l : SizeLine), l.size < 0 ∧
      text = chunksText cs ++ l.text ∧ out = chunksData cs := by
  obtain ⟨hst,hneg⟩ := switch_of_negative hb
  cases h with
  | chunkData cs l d hsize hd =>
    obtain rfl | hd := hd
    · exact ⟨cs,l,by simpa using hneg,by simp,by simp⟩
    · have hneg : l.size - d.length < 0 := hneg
      omega
  | extension => split at hst <;> simp at hst
  | extensionAlmostDone => split at hst <;> simp at hst
  | _ => simp at hst

/-- The parser ends a response exactly at the end of a body. -/
theorem feed_done_iff {s out rest : Bytes} :
    feed turn start s = ⟨out,.stopped .done rest⟩ ↔ ∃ b : Body, s = b.text ++ rest ∧ out = b.data := by
  constructor
  · intro hf
    obtain ⟨pre,b,p,rfl,hp,hb⟩ := reading_kept.of_stopped reading_start hf
    obtain ⟨body,htext,hout⟩ := hp.done hb
    exact ⟨body,by rw [← htext,List.append_assoc]; rfl,hout⟩
  · rintro ⟨b,rfl,rfl⟩
    exact feed_body b rest

/-- Data of a negative size is due exactly behind the line of such a size. -/
theorem feed_negative_iff {s out rest : Bytes} :
    feed turn start s = ⟨out,.stopped .negative rest⟩ ↔
      ∃ (cs : List Chunk) (l : SizeLine) (b : UInt8), l.size < 0 ∧
        s = chunksText cs ++ (l.text ++ b :: rest) ∧ out = chunksData cs := by
  constructor
  · intro hf
    obtain ⟨pre,b,p,rfl,hp,hb⟩ := reading_kept.of_stopped reading_start hf
    obtain ⟨cs,l,hneg,rfl,rfl⟩ := hp.negative hb
    exact ⟨cs,l,b,hneg,by rw [List.append_assoc],rfl⟩
  · rintro ⟨cs,l,b,hneg,rfl,rfl⟩
    obtain ⟨u,hu⟩ := feed_chunks 0 cs
    have hafter : afterLine l.size = ⟨.chunkData,l.size⟩ := if_neg (by omega)
    rw [start,feed_append_of_again hu,feed_silent_append (feed_sizeLine u l),hafter,
      feed_stop (turn_data_negative rfl hneg b)]
    simp

theorem offT_eq (n : ℤ) : offT n = n % 2 ^ 64 - if 2 ^ 63 ≤ n % 2 ^ 64 then 2 ^ 64 else 0 := by
  rw [offT,Int.bmod_eq_emod]
  norm_num

theorem offT_neg_iff {n : ℤ} : offT n < 0 ↔ 2 ^ 63 ≤ n % 2 ^ 64 := by
  have hlt : n % 2 ^ 64 < 2 ^ 64 := Int.emod_lt_of_pos n (by norm_num)
  have hnn : 0 ≤ n % 2 ^ 64 := Int.emod_nonneg n (by norm_num)
  rw [offT_eq]
  split_ifs with h <;> omega

/-- A chunk announces a number that is negative as an `off_t`, and a byte follows its line. -/
def NegativeSize (s : Bytes) : Prop :=
  ∃ (cs : List Chunk) (l : SizeLine) (b : UInt8), 2 ^ 63 ≤ l.number % 2 ^ 64 ∧
    chunksText cs ++ (l.text ++ [b]) <+: s

theorem negativeSize_iff {s : Bytes} :
    NegativeSize s ↔ ∃ rest, (feed turn start s).stand = .stopped .negative rest := by
  constructor
  · rintro ⟨cs,l,b,hbig,rest,rfl⟩
    have hf : feed turn start (chunksText cs ++ (l.text ++ b :: rest)) =
        ⟨chunksData cs,.stopped .negative rest⟩ :=
      feed_negative_iff.mpr ⟨cs,l,b,offT_neg_iff.mpr hbig,rfl,rfl⟩
    exact ⟨rest,by simpa using congrArg Fed.stand hf⟩
  · rintro ⟨rest,hrest⟩
    obtain ⟨cs,l,b,hneg,hs,-⟩ := feed_negative_iff.mp (congrArg (Fed.mk _) hrest)
    exact ⟨cs,l,b,offT_neg_iff.mp hneg,rest,by rw [hs]; simp⟩

theorem NegativeSize.not_of_stand {s : Bytes} {stand : Stand Place UInt8 End}
    (hst : (feed turn start s).stand = stand) (h : ∀ rest, stand ≠ .stopped .negative rest) :
    ¬ NegativeSize s := by
  intro hneg
  obtain ⟨rest,hrest⟩ := negativeSize_iff.mp hneg
  exact h rest (hst.symm.trans hrest)

end SunshineService.Nginx.Chunked
