import SunshineService.Netty.LineDecoder

/-! # The decoder of delimited frames

`DelimiterBasedFrameDecoder(1024, "$_")` is not part of the repository either. As a
parameter it has one documented property: over streams that fit into its buffer it
emits the frames of the bytes received so far, however they were cut. `StringDecoder`
behind it decodes each of them.
-/
namespace SunshineService.Netty
open Framing Utf8

def delimiter : Bytes := encode "$_"

theorem delimiter_eq : delimiter = [36,95] := by decide

theorem delimiter_ne_nil : delimiter ≠ [] := by decide

theorem unbordered_delimiter : Unbordered delimiter := by
  intro b hp hs
  rw [delimiter_eq] at hp hs ⊢
  obtain ⟨k,hk⟩ : ∃ k, b = [36,95].take k := ⟨_,List.prefix_iff_eq_take.mp hp⟩
  match k with
  | 0 => exact Or.inl hk
  | 1 =>
    subst hk
    exact absurd hs (by decide)
  | k + 2 => exact Or.inr (by simpa using hk)

/-- Frames leave room for one byte of the delimiter behind them. -/
structure Fits (stream : Bytes) : Prop where
  frames_length : ∀ f ∈ frames delimiter stream, f.length < maxLength
  tail_length : (tail delimiter stream).length ≤ maxLength

theorem Fits.of_prefix {stream p : Bytes} (h : Fits stream) (hp : p <+: stream) : Fits p := by
  refine ⟨fun f hf => h.frames_length f ((frames_mono hp).subset hf),?_⟩
  rcases tail_of_prefix hp with hpiece | ⟨f,hf,_,hlt⟩
  · exact hpiece.length_le.trans h.tail_length
  · have hlength := h.frames_length f hf
    have hdelimiter : delimiter.length = 2 := by decide
    rw [List.length_append] at hlt
    omega

structure FrameDecoder where
  State : Type
  init : State
  feed : State → Bytes → State × List Bytes

namespace FrameDecoder

def feedAll (d : FrameDecoder) (segments : List Bytes) : d.State × List Bytes :=
  segments.foldl (fun p segment => ((d.feed p.1 segment).1,p.2 ++ (d.feed p.1 segment).2)) (d.init,[])

theorem feedAll_append_singleton (d : FrameDecoder) (segments : List Bytes) (segment : Bytes) :
    d.feedAll (segments ++ [segment]) = ((d.feed (d.feedAll segments).1 segment).1,
      (d.feedAll segments).2 ++ (d.feed (d.feedAll segments).1 segment).2) := by
  rw [feedAll,List.foldl_append]
  rfl

def DelimiterBased (d : FrameDecoder) : Prop :=
  ∀ segments : List Bytes, Fits segments.flatten →
    (d.feedAll segments).2 = frames delimiter segments.flatten

/-- The decoder with `StringDecoder` behind it. -/
def strings (d : FrameDecoder) : Decoder where
  State := d.State
  init := d.init
  feed := fun s segment => ((d.feed s segment).1,(d.feed s segment).2.map decode)

theorem feedAll_strings (d : FrameDecoder) (segments : List Bytes) :
    d.strings.feedAll segments = ((d.feedAll segments).1,(d.feedAll segments).2.map decode) := by
  induction segments using List.reverseRecOn with
  | nil => rfl
  | append_singleton segments segment ih =>
    rw [Decoder.feedAll_append_singleton,ih,feedAll_append_singleton,List.map_append]
    rfl

theorem DelimiterBased.out_eq {d : FrameDecoder} (hd : d.DelimiterBased) {stream : Bytes}
    {s : d.State} {out : List String} (h : d.strings.Fed stream s out) (hfits : Fits stream) :
    out = (frames delimiter stream).map decode := by
  obtain ⟨segments,rfl,hfeed⟩ := h
  rw [feedAll_strings,hd segments hfits] at hfeed
  exact (congrArg Prod.snd hfeed).symm

end FrameDecoder

/-! ## A decoder that keeps the unfinished frame -/

def receiveFrames (t segment : Bytes) : Bytes × List Bytes :=
  ((scan delimiter ⟨[],t⟩ segment).tail,(scan delimiter ⟨[],t⟩ segment).frames)

def delimiterDecoder : FrameDecoder := ⟨Bytes,[],receiveFrames⟩

theorem feedAll_delimiterDecoder (segments : List Bytes) :
    delimiterDecoder.feedAll segments =
      (tail delimiter segments.flatten,frames delimiter segments.flatten) := by
  induction segments using List.reverseRecOn with
  | nil => rfl
  | append_singleton segments segment ih =>
    have hflatten : (segments ++ [segment]).flatten = segments.flatten ++ segment := by simp
    rw [FrameDecoder.feedAll_append_singleton,ih,hflatten,frames_append,tail_append]
    rfl

theorem delimiterDecoder_delimiterBased : delimiterDecoder.DelimiterBased :=
  fun segments _ => congrArg Prod.snd (feedAll_delimiterDecoder segments)

end SunshineService.Netty
