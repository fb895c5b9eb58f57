import SunshineService.Foundation.Framing
import SunshineService.Foundation.Utf8

/-! # Text lines and the decoders that emit them

The decoder chain of a pipeline is not part of the repository. It is a parameter with
one documented property: over streams whose lines are short it emits the lines of the
bytes received so far, however they were cut. The writers of lines pick their own
separator.
-/
namespace SunshineService.Netty
open Framing Utf8

inductive LineSeparator
  | lf
  | crlf
  deriving DecidableEq

def LineSeparator.text : LineSeparator → String
  | .lf => "\n"
  | .crlf => "\r\n"

def stripCarriageReturn (line : Bytes) : Bytes :=
  if line.getLast? = some 13 then line.dropLast else line

/-- The complete lines of a stream, without `\n` or `\r\n`. -/
def lines (stream : Bytes) : List Bytes := (frames [10] stream).map stripCarriageReturn

def maxLength : ℕ := 1024

/-- No line is longer than the decoder takes, the unfinished one included. -/
def Short (stream : Bytes) : Prop :=
  (∀ f ∈ frames [10] stream, f.length ≤ maxLength) ∧ (tail [10] stream).length ≤ maxLength

/-- `LineBasedFrameDecoder(1024)` with `StringDecoder` behind it. -/
structure Decoder where
  State : Type
  init : State
  feed : State → Bytes → State × List String

namespace Decoder

def feedAll (d : Decoder) (segments : List Bytes) : d.State × List String :=
  segments.foldl (fun p segment => ((d.feed p.1 segment).1,p.2 ++ (d.feed p.1 segment).2)) (d.init,[])

theorem feedAll_append_singleton (d : Decoder) (segments : List Bytes) (segment : Bytes) :
    d.feedAll (segments ++ [segment]) = ((d.feed (d.feedAll segments).1 segment).1,
      (d.feedAll segments).2 ++ (d.feed (d.feedAll segments).1 segment).2) := by
  rw [feedAll,List.foldl_append]
  rfl

def LineBased (d : Decoder) : Prop :=
  ∀ segments : List Bytes, Short segments.flatten →
    (d.feedAll segments).2 = (lines segments.flatten).map decode

/-- The decoder has received `stream` in some segments and has emitted `out`. -/
def Fed (d : Decoder) (stream : Bytes) (s : d.State) (out : List String) : Prop :=
  ∃ segments : List Bytes, segments.flatten = stream ∧ d.feedAll segments = (s,out)

theorem fed_init (d : Decoder) : d.Fed [] d.init [] := ⟨[],rfl,rfl⟩

theorem Fed.feed {d : Decoder} {stream : Bytes} {s : d.State} {out : List String}
    (h : d.Fed stream s out) (segment : Bytes) :
    d.Fed (stream ++ segment) (d.feed s segment).1 (out ++ (d.feed s segment).2) := by
  obtain ⟨segments,rfl,hfeed⟩ := h
  refine ⟨segments ++ [segment],by simp,?_⟩
  rw [feedAll_append_singleton,hfeed]

theorem Fed.out_eq {d : Decoder} (hd : d.LineBased) {stream : Bytes} {s : d.State}
    {out : List String} (h : d.Fed stream s out) (hshort : Short stream) :
    out = (lines stream).map decode := by
  obtain ⟨segments,rfl,hfeed⟩ := h
  rw [← hd segments hshort,hfeed]

end Decoder

/-! ## Plain text on lines -/

def Plain (text : String) : Prop := ∀ c ∈ text.toList, c.val ≤ 127 ∧ c ≠ '\n' ∧ c ≠ '\r'

theorem Plain.ascii {text : String} (h : Plain text) : Ascii text := fun c hc => (h c hc).1

/-- The line of a text up to its `\n`. -/
def content (sep : LineSeparator) (text : String) : Bytes :=
  match sep with
  | .lf => encode text
  | .crlf => encode text ++ [13]

theorem encode_line (sep : LineSeparator) (text : String) :
    encode (text ++ sep.text) = content sep text ++ [10] := by
  rw [encode_append]
  cases sep with
  | lf => rfl
  | crlf =>
    have hsep : encode (LineSeparator.text .crlf) = [13,10] := by decide
    rw [hsep]
    simp [content]

theorem eq_of_toUInt8_eq {c k : Char} (hc : c.val ≤ 127) (hk : k.val ≤ 127)
    (h : c.val.toUInt8 = k.val.toUInt8) : c = k := by
  have hc : c.val.toNat ≤ 127 := UInt32.le_iff_toNat_le.mp hc
  have hk : k.val.toNat ≤ 127 := UInt32.le_iff_toNat_le.mp hk
  have hval := congrArg UInt8.toNat h
  rw [UInt32.toNat_toUInt8,UInt32.toNat_toUInt8] at hval
  exact Char.ext (UInt32.toNat_inj.mp (by omega))

theorem Plain.not_mem_encode {text : String} (h : Plain text) {k : Char} (hk : k = '\n' ∨ k = '\r') :
    k.val.toUInt8 ∉ encode text := by
  rw [h.ascii.encode_eq]
  intro hmem
  obtain ⟨c,hc,hval⟩ := List.mem_map.mp hmem
  obtain ⟨hascii,hlf,hcr⟩ := h c hc
  rcases hk with rfl | rfl
  · exact hlf (eq_of_toUInt8_eq hascii (by decide) hval)
  · exact hcr (eq_of_toUInt8_eq hascii (by decide) hval)

theorem Plain.fresh {text : String} (h : Plain text) (sep : LineSeparator) :
    Fresh [10] (content sep text) := by
  have hlf : (10 : UInt8) ∉ encode text := h.not_mem_encode (Or.inl rfl)
  apply fresh_singleton
  cases sep with
  | lf => exact hlf
  | crlf => simpa [content] using hlf

theorem Plain.strip {text : String} (h : Plain text) (sep : LineSeparator) :
    stripCarriageReturn (content sep text) = encode text := by
  cases sep with
  | lf =>
    have hcr : (13 : UInt8) ∉ encode text := h.not_mem_encode (Or.inr rfl)
    unfold stripCarriageReturn content
    rw [if_neg]
    intro hlast
    exact hcr (List.mem_of_getLast? hlast)
  | crlf => simp [stripCarriageReturn,content]

theorem Plain.length_content_le {text : String} (h : Plain text) (sep : LineSeparator) :
    (content sep text).length ≤ text.length + 1 := by
  cases sep with
  | lf =>
    rw [content,h.ascii.length_encode]
    omega
  | crlf =>
    rw [content,List.length_append,h.ascii.length_encode]
    exact le_refl _

/-! ## Any cut of a stream of lines -/

variable {sep : LineSeparator} {texts : List String} {p : Bytes}

def stream (sep : LineSeparator) (texts : List String) : Bytes :=
  delimited [10] (texts.map (content sep))

theorem stream_append (sep : LineSeparator) (texts : List String) (text : String) :
    stream sep (texts ++ [text]) = stream sep texts ++ encode (text ++ sep.text) := by
  rw [stream,List.map_append,delimited_append,encode_line]
  simp [stream]

def PlainLines (texts : List String) : Prop := ∀ text ∈ texts, Plain text ∧ text.length ≤ 1000

theorem PlainLines.fresh (h : PlainLines texts) : ∀ f ∈ texts.map (content sep), Fresh [10] f := by
  intro f hf
  obtain ⟨text,htext,rfl⟩ := List.mem_map.mp hf
  exact (h text htext).1.fresh sep

theorem PlainLines.length_le (h : PlainLines texts) {f : Bytes} (hf : f ∈ texts.map (content sep)) :
    f.length + 1 ≤ maxLength := by
  obtain ⟨text,htext,rfl⟩ := List.mem_map.mp hf
  have hlength := (h text htext).1.length_content_le sep
  have hle := (h text htext).2
  have hmax : maxLength = 1024 := rfl
  omega

theorem PlainLines.short (h : PlainLines texts) (hp : p <+: stream sep texts) : Short p := by
  obtain ⟨hframes,htail⟩ := scan_prefix (by simp) h.fresh hp
  constructor
  · intro f hf
    have hlength := h.length_le (hframes.subset hf)
    omega
  · rcases htail with hnil | ⟨f,hf,hpiece⟩
    · rw [hnil]
      exact Nat.zero_le _
    · have hlength := h.length_le hf
      have hle := hpiece.length_le
      simp only [List.length_append,List.length_singleton] at hle
      omega

theorem PlainLines.decode_content (h : PlainLines texts) :
    (texts.map (content sep)).map (fun f => decode (stripCarriageReturn f)) = texts := by
  rw [List.map_map]
  refine (List.map_congr_left ?_).trans (List.map_id texts)
  intro text htext
  rw [Function.comp_apply,(h text htext).1.strip,decode_encode,id]

/-- However the stream is cut, its complete lines are the first of the texts. -/
theorem PlainLines.decode_lines (h : PlainLines texts) (hp : p <+: stream sep texts) :
    (lines p).map decode = texts.take (lines p).length := by
  obtain ⟨hframes,_⟩ := scan_prefix (by simp) h.fresh hp
  have htake : frames [10] p = (texts.take (frames [10] p).length).map (content sep) := by
    rw [List.map_take]
    exact List.prefix_iff_eq_take.mp hframes
  have hfirst : PlainLines (texts.take (frames [10] p).length) :=
    fun text htext => h text (List.mem_of_mem_take htext)
  calc (lines p).map decode
      = (frames [10] p).map (fun f => decode (stripCarriageReturn f)) := by
        rw [lines,List.map_map]
        rfl
    _ = texts.take (frames [10] p).length := by
        nth_rewrite 1 [htake]
        exact hfirst.decode_content
    _ = texts.take (lines p).length := by rw [lines,List.length_map]

theorem PlainLines.length_lines_le (h : PlainLines texts) (hp : p <+: stream sep texts) :
    (lines p).length ≤ texts.length := by
  obtain ⟨hframes,_⟩ := scan_prefix (by simp) h.fresh hp
  have hle := hframes.length_le
  rw [List.length_map] at hle
  rw [lines,List.length_map]
  exact hle

theorem PlainLines.length_lines_stream (h : PlainLines texts) :
    (lines (stream sep texts)).length = texts.length := by
  rw [lines,stream,frames_delimited (by simp) h.fresh,List.length_map,List.length_map]

/-! ## A decoder that keeps the unfinished line -/

def receiveLines (t segment : Bytes) : Bytes × List String :=
  ((scan [10] ⟨[],t⟩ segment).tail,
    (scan [10] ⟨[],t⟩ segment).frames.map (fun f => decode (stripCarriageReturn f)))

def lineDecoder : Decoder := ⟨Bytes,[],receiveLines⟩

theorem feedAll_lineDecoder (segments : List Bytes) :
    lineDecoder.feedAll segments =
      (tail [10] segments.flatten,(lines segments.flatten).map decode) := by
  induction segments using List.reverseRecOn with
  | nil => rfl
  | append_singleton segments segment ih =>
    have hflatten : (segments ++ [segment]).flatten = segments.flatten ++ segment := by simp
    rw [Decoder.feedAll_append_singleton,ih,hflatten,lines,lines,frames_append,tail_append,
      List.map_append,List.map_append,List.map_map,List.map_map]
    rfl

/-- To keep the unfinished line is enough for the documented property. -/
theorem lineDecoder_lineBased : lineDecoder.LineBased :=
  fun segments _ => congrArg Prod.snd (feedAll_lineDecoder segments)

end SunshineService.Netty
