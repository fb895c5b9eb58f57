import SunshineService.Nginx.NonBuffered

/-! # The body filter that writes chunks

Each call of the filter turns a chain of buffers into one chunk, or into nothing when
the chain has no data. The call with the last buffer adds the last chunk. What it writes
is a well formed body, so the proxy's filter reads the data back.
-/
namespace SunshineService.Nginx.Chunked
open StreamMachine Utf8

/-- Bytes are in memory or in a file. -/
structure Buf where
  bytes : Bytes
  inMemory : Bool
  inFile : Bool
  flush : Bool
  sync : Bool
  lastBuf : Bool
  held : bytes ≠ [] → inMemory ∨ inFile

structure Request where
  chunked : Bool
  headerOnly : Bool

def hex : Bytes := [48,49,50,51,52,53,54,55,56,57,97,98,99,100,101,102]

/-- The loop of `ngx_sprintf_num` for lower case hexadecimal, which fills `temp` backwards. -/
def sprintfHex (ui64 : ℕ) (p : Bytes) : Bytes :=
  let p := hex.getD (ui64 % 16) 0 :: p
  if ui64 / 16 = 0 then p else sprintfHex (ui64 / 16) p

def crlf : Bytes := [cr,lf]

def temporaryBuf (bytes : Bytes) (lastBuf : Bool) : Buf :=
  ⟨bytes,true,false,false,false,lastBuf,fun _ => .inl rfl⟩

def chainSize (bufs : List Buf) : ℕ := (bufs.map (fun b => b.bytes.length)).sum

def chainBytes (bufs : List Buf) : Bytes := (bufs.map Buf.bytes).flatten

/-- A buffer without data goes on only if it carries a flag. -/
def passes (b : Buf) : Bool := b.flush || b.sync || b.inMemory || b.inFile

def isLast (bufs : List Buf) : Bool := (bufs.getLast?.map Buf.lastBuf).getD false

/-- The flag of the last buffer moves to the buffer that ends the body. -/
def clearLast (bufs : List Buf) : List Buf :=
  bufs.dropLast ++ (bufs.getLast?.map (fun b => { b with lastBuf := false })).toList

def chunkedBodyFilter (r : Request) (bufs : List Buf) : List Buf :=
  if bufs = [] ∨ !r.chunked ∨ r.headerOnly then bufs
  else
    let size := chainSize bufs
    let out := (if isLast bufs then clearLast bufs else bufs).filter passes
    let out := if size ≠ 0 then temporaryBuf (sprintfHex size [] ++ crlf) false :: out else out
    if isLast bufs then
      out ++ [temporaryBuf ((crlf ++ 48 :: crlf ++ crlf).drop (if size = 0 then 2 else 0)) true]
    else if 0 < size then out ++ [temporaryBuf crlf false]
    else out

theorem digitOf_hex : ∀ n < 16, digitOf (hex.getD n 0) = some (n : ℤ) := by decide

theorem sprintfHex_spec (n : ℕ) (p : Bytes) :
    numberFrom 0 (sprintfHex n p) = numberFrom n p ∧ (Digits p → Digits (sprintfHex n p)) ∧
      sprintfHex n p ≠ [] := by
  induction n using Nat.strong_induction_on generalizing p with
  | _ n ih =>
    have hdigit := digitOf_hex (n % 16) (Nat.mod_lt n (by norm_num))
    have hdigits : Digits p → Digits (hex.getD (n % 16) 0 :: p) := by
      intro hp c hc
      obtain rfl | hc := List.mem_cons.mp hc
      · rw [hdigit]
        rfl
      · exact hp c hc
    rw [sprintfHex]
    split
    · rename_i hz
      refine ⟨?_,hdigits,List.cons_ne_nil _ p⟩
      simp only [numberFrom,List.foldl_cons,hdigit,Option.getD_some]
      congr 1
      omega
    · rename_i hz
      obtain ⟨hnumber,hall,hne⟩ := ih (n / 16) (by omega) (hex.getD (n % 16) 0 :: p)
      refine ⟨?_,fun hp => hall (hdigits hp),hne⟩
      rw [hnumber]
      simp only [numberFrom,List.foldl_cons,hdigit,Option.getD_some]
      congr 1
      omega

theorem chainBytes_passes (bufs : List Buf) : chainBytes (bufs.filter passes) = chainBytes bufs := by
  induction bufs with
  | nil => rfl
  | cons b bufs ih =>
    by_cases hb : passes b
    · rw [List.filter_cons_of_pos hb]
      simpa [chainBytes] using ih
    · have hnil : b.bytes = [] := by
        by_contra hne
        obtain hm | hf := b.held hne <;> simp_all [passes]
      rw [List.filter_cons_of_neg hb,ih]
      simp [chainBytes,hnil]

theorem chainBytes_clearLast (bufs : List Buf) : chainBytes (clearLast bufs) = chainBytes bufs := by
  obtain rfl | ⟨init,b,rfl⟩ := List.eq_nil_or_concat bufs
  · rfl
  · simp [clearLast,chainBytes]

theorem length_chainBytes (bufs : List Buf) : (chainBytes bufs).length = chainSize bufs := by
  simp [chainBytes,chainSize,Function.comp_def]

/-- A chain the filter is called with. Its size is an `off_t`. -/
structure Chain where
  bufs : List Buf
  size_lt : chainSize bufs < 2 ^ 63

/-- A response passes the filter in some calls, the last of them with the last buffer. -/
structure Response where
  chains : List Chain
  last : Chain
  notLast : ∀ c ∈ chains, isLast c.bufs = false
  isLast_last : isLast last.bufs = true

def Chain.written (c : Chain) : Bytes := chainBytes (chunkedBodyFilter ⟨true,false⟩ c.bufs)

def Chain.data (c : Chain) : Bytes := chainBytes c.bufs

def Response.written (r : Response) : Bytes := (r.chains.map Chain.written).flatten ++ r.last.written

def Response.data (r : Response) : Bytes := (r.chains.map Chain.data).flatten ++ r.last.data

def sizeLine (n : ℕ) : SizeLine where
  digits := sprintfHex n []
  extension := []
  eol := crlf
  digits_ne := (sprintfHex_spec n []).2.2
  isDigits := (sprintfHex_spec n []).2.1 nofun
  isExtension := .inl rfl
  isEol := .inr rfl

theorem number_sizeLine (n : ℕ) : (sizeLine n).number = n := (sprintfHex_spec n []).1

theorem size_sizeLine {n : ℕ} (hn : n < 2 ^ 63) : (sizeLine n).size = n := by
  rw [SizeLine.size,number_sizeLine]
  exact offT_of_lt (Int.natCast_nonneg n) (by exact_mod_cast hn)

theorem Chain.length_data (c : Chain) : c.data.length = chainSize c.bufs := length_chainBytes c.bufs

def Chain.chunk (c : Chain) (h : c.data ≠ []) : Chunk where
  toSizeLine := sizeLine (chainSize c.bufs)
  data := c.data
  junk := []
  close := crlf
  data_ne := h
  data_length := by rw [size_sizeLine c.size_lt,c.length_data]
  isJunk := nofun
  isClose := .inr rfl

/-- The chunks of a chain: none, when it has no data. -/
def Chain.chunks (c : Chain) : List Chunk := if h : c.data = [] then [] else [c.chunk h]

def lastChunk : LastChunk where
  toSizeLine := sizeLine 0
  headers := []
  close := crlf
  size_zero := size_sizeLine (by norm_num)
  isClose := .inr rfl

theorem chunksData_chunks (c : Chain) : chunksData c.chunks = c.data := by
  unfold Chain.chunks
  split
  · rename_i h
    rw [h]
    rfl
  · rw [chunksData_singleton]
    rfl

theorem lastChunk_text : lastChunk.text = 48 :: (crlf ++ crlf) := by
  have hzero : sprintfHex 0 [] = [48] := by
    rw [sprintfHex]
    rfl
  change sprintfHex 0 [] ++ ([] ++ crlf) ++ ([] ++ crlf) = _
  rw [hzero]
  rfl

theorem chunk_text (c : Chain) (h : c.data ≠ []) :
    (c.chunk h).text = sprintfHex (chainSize c.bufs) [] ++ crlf ++ (c.data ++ crlf) := rfl

@[simp] theorem chainBytes_nil : chainBytes [] = [] := rfl

theorem chainBytes_append (bs cs : List Buf) :
    chainBytes (bs ++ cs) = chainBytes bs ++ chainBytes cs := by
  simp [chainBytes]

theorem chainBytes_temporaryBuf (bytes : Bytes) (flag : Bool) (bs : List Buf) :
    chainBytes (temporaryBuf bytes flag :: bs) = bytes ++ chainBytes bs := by
  simp [chainBytes,temporaryBuf]

/-- A call of the filter writes the chunk of its chain, and after the last chain the end. -/
theorem written_eq (c : Chain) :
    c.written = chunksText c.chunks ++ if isLast c.bufs then lastChunk.text else [] := by
  by_cases hbufs : c.bufs = []
  · have hwritten : c.written = [] := by
      rw [Chain.written,chunkedBodyFilter,if_pos (.inl hbufs),hbufs]
      rfl
    have hdata : c.data = [] := by
      rw [Chain.data,hbufs]
      rfl
    have hchunks : c.chunks = [] := dif_pos hdata
    rw [hwritten,hchunks,hbufs]
    rfl
  have hkept : chainBytes ((if isLast c.bufs then clearLast c.bufs else c.bufs).filter passes) = c.data := by
    rw [chainBytes_passes]
    split
    · exact chainBytes_clearLast c.bufs
    · rfl
  have hcond : ¬ (c.bufs = [] ∨ (!(⟨true,false⟩ : Request).chunked) = true ∨
      (⟨true,false⟩ : Request).headerOnly = true) := by simp [hbufs]
  unfold Chain.written chunkedBodyFilter
  rw [if_neg hcond]
  dsimp only
  generalize (if isLast c.bufs then clearLast c.bufs else c.bufs).filter passes = out at hkept ⊢
  by_cases hdata : c.data = []
  · have hsize : chainSize c.bufs = 0 := by rw [← c.length_data,hdata,List.length_nil]
    have hchunks : c.chunks = [] := dif_pos hdata
    rw [hdata] at hkept
    by_cases hl : isLast c.bufs <;>
      simp [hsize,hl,hchunks,chainBytes_append,chainBytes_temporaryBuf,hkept,lastChunk_text,
        chunksText,crlf]
  · have hsize : chainSize c.bufs ≠ 0 := by
      rw [← c.length_data]
      exact (List.length_pos_iff.mpr hdata).ne'
    have hchunks : c.chunks = [c.chunk hdata] := dif_neg hdata
    by_cases hl : isLast c.bufs <;>
      simp [hsize,hl,hchunks,chainBytes_append,chainBytes_temporaryBuf,hkept,lastChunk_text,
        chunk_text,Nat.pos_of_ne_zero hsize,crlf]

def Response.body (r : Response) : Body :=
  ⟨(r.chains.map Chain.chunks).flatten ++ r.last.chunks,lastChunk⟩

/-- What the filter writes of a response is the text of a well formed body. -/
theorem text_body (r : Response) : r.body.text = r.written := by
  have hchains : ∀ cs : List Chain, (∀ c ∈ cs, isLast c.bufs = false) →
      chunksText (cs.map Chain.chunks).flatten = (cs.map Chain.written).flatten := by
    intro cs hcs
    induction cs with
    | nil => rfl
    | cons c cs ih =>
      rw [List.map_cons,List.flatten_cons,chunksText_append,List.map_cons,List.flatten_cons,
        ih (fun d hd => hcs d (List.mem_cons_of_mem c hd)),written_eq,hcs c List.mem_cons_self]
      simp
  rw [Response.body,Body.text,Response.written,chunksText_append,hchains r.chains r.notLast,written_eq,
    r.isLast_last,if_pos rfl,List.append_assoc]

theorem data_body (r : Response) : r.body.data = r.data := by
  have hchains : ∀ cs : List Chain,
      chunksData (cs.map Chain.chunks).flatten = (cs.map Chain.data).flatten := by
    intro cs
    induction cs with
    | nil => rfl
    | cons c cs ih =>
      rw [List.map_cons,List.flatten_cons,chunksData_append,ih,chunksData_chunks]
      rfl
  rw [Response.body,Body.data,Response.data,chunksData_append,hchains,chunksData_chunks]

/-- The sizes the filter writes are numbers in range, on lines of their own. -/
theorem exists_sizeLine (r : Response) {c : Chunk} (hc : c ∈ r.body.chunks) :
    ∃ n < 2 ^ 63, c.toSizeLine = sizeLine n := by
  have hchunks : ∀ d : Chain, c ∈ d.chunks → ∃ n < 2 ^ 63, c.toSizeLine = sizeLine n := by
    intro d hd
    unfold Chain.chunks at hd
    split at hd
    · exact absurd hd List.not_mem_nil
    · rw [List.mem_singleton.mp hd]
      exact ⟨chainSize d.bufs,d.size_lt,rfl⟩
  obtain hc | hc := List.mem_append.mp hc
  · obtain ⟨cs,hcs,hc⟩ := List.mem_flatten.mp hc
    obtain ⟨d,-,rfl⟩ := List.mem_map.mp hcs
    exact hchunks d hc
  · exact hchunks r.last hc

/-- However the reads cut what one server's filter writes, the other's filter passes on
the data in order, and it takes the response as ended with its last byte and not before. -/
theorem read_written (r : Response) (header : Bytes) (close : Bool) (reads : List Recv)
    (h : recvBytes reads <+: r.written) :
    ∃ d, dataOf (processNonBuffered (.init header close) reads).2.outBufs = some d ∧ d <+: r.data ∧
      ((processNonBuffered (.init header close) reads).1 = .done ∨
        (processNonBuffered (.init header close) reads).1 = .again) ∧
      ((processNonBuffered (.init header close) reads).1 = .done ↔ recvBytes reads = r.written) ∧
      ((processNonBuffered (.init header close) reads).1 = .done → d = r.data) := by
  have hend : EndsWithBody reads := endsWithBody_of_text (by rwa [text_body r])
  obtain ⟨rest,hrest⟩ := h
  have hbody := feed_body r.body []
  rw [List.append_nil,text_body,data_body,← hrest] at hbody
  have hfollows := processNonBuffered_init header close hend
  have hmeans := hfollows.means
  rw [hfollows.dataOf_init]
  obtain ⟨hnil,hf⟩ | ⟨p,hf,hsub,hne⟩ := feed_of_append_stopped hbody
  · rw [hf] at hmeans ⊢
    rw [hnil,List.append_nil] at hrest
    exact ⟨r.data,rfl,⟨[],List.append_nil _⟩,.inl hmeans,⟨fun _ => hrest,fun _ => hmeans⟩,fun _ => rfl⟩
  · rw [hf] at hmeans ⊢
    have hdone : (processNonBuffered (.init header close) reads).1 ≠ .done := by
      rw [hmeans.1]
      nofun
    refine ⟨_,rfl,hsub,.inr hmeans.1,⟨fun hd => absurd hd hdone,fun hw => ?_⟩,fun hd => absurd hd hdone⟩
    rw [← hrest] at hw
    exact absurd (List.self_eq_append_right.mp hw) hne

/-- Two buffers in memory, in two calls. -/
def greeting : Response where
  chains := [⟨[temporaryBuf [104,105] false],by decide⟩]
  last := ⟨[temporaryBuf [33] true],by decide⟩
  notLast := fun c hc => by rw [List.mem_singleton.mp hc]; rfl
  isLast_last := rfl

theorem written_greeting :
    greeting.written = [50,13,10,104,105,13,10,49,13,10,33,13,10,48,13,10,13,10] := by
  simp [greeting,Response.written,Chain.written,chunkedBodyFilter,sprintfHex,chainSize,chainBytes,
    temporaryBuf,isLast,clearLast,passes,hex,crlf,cr,lf]

theorem read_written_greeting :
    dataOf (processNonBuffered (.init [72,13,10] false) [⟨[50,13],false⟩,⟨[10,104],true⟩,
      ⟨[105,13,10,49,13,10,33,13,10,48],false⟩,⟨[13,10,13,10],true⟩]).2.outBufs = some [104,105,33] := by
  obtain ⟨d,hd,-,-,hdone,hdata⟩ := read_written greeting [72,13,10] false
    [⟨[50,13],false⟩,⟨[10,104],true⟩,⟨[105,13,10,49,13,10,33,13,10,48],false⟩,⟨[13,10,13,10],true⟩]
    (by rw [written_greeting]; decide)
  rw [hd,hdata (hdone.mpr written_greeting.symm)]
  rfl

end SunshineService.Nginx.Chunked
