import Mathlib.Data.List.Infix
import Mathlib.Tactic.Common

/-! # Lines of a byte stream

`push` takes one byte as `BufferedReader.readLine` does: a line ends at a line feed, at a
carriage return, or at the two of them, and is complete as soon as its first end byte is
there. Writers that put any one of the three ends behind plain lines are read back line
by line, wherever the stream is cut.
-/
namespace SunshineService.LineReader

/-- The unfinished line, whether a line feed is to be skipped, and the complete lines. -/
structure Reader where
  line : List UInt8
  skipLF : Bool
  lines : List (List UInt8)
  deriving DecidableEq

def start : Reader := ⟨[],false,[]⟩

def endLine (r : Reader) (skipLF : Bool) : Reader := ⟨[],skipLF,r.lines ++ [r.line]⟩

def push (r : Reader) (b : UInt8) : Reader :=
  if b = 10 then if r.skipLF then { r with skipLF := false } else endLine r false
  else if b = 13 then endLine r true
  else { r with
    line := r.line ++ [b]
    skipLF := false }

def feed (r : Reader) (bs : List UInt8) : Reader := bs.foldl push r

theorem feed_append (r : Reader) (xs ys : List UInt8) : feed r (xs ++ ys) = feed (feed r xs) ys :=
  List.foldl_append

theorem push_lines (r : Reader) (b : UInt8) : r.lines <+: (push r b).lines := by
  unfold push
  split_ifs
  · exact List.prefix_rfl
  · exact List.prefix_append _ _
  · exact List.prefix_append _ _
  · exact List.prefix_rfl

/-- A line that has been read stays as it is. -/
theorem feed_lines (r : Reader) (bs : List UInt8) : r.lines <+: (feed r bs).lines := by
  induction bs generalizing r with
  | nil => exact List.prefix_rfl
  | cons b bs ih => exact (push_lines r b).trans (ih (push r b))

/-! ## Plain lines -/

/-- No byte of the line ends it. -/
def Plain (line : List UInt8) : Prop := ∀ b ∈ line, b ≠ 10 ∧ b ≠ 13

inductive Separator
  | lf
  | cr
  | crlf
  deriving DecidableEq

def Separator.bytes : Separator → List UInt8
  | .lf => [10]
  | .cr => [13]
  | .crlf => [13,10]

def stream (sep : Separator) (lines : List (List UInt8)) : List UInt8 := lines.flatMap (· ++ sep.bytes)

theorem stream_append (sep : Separator) (lines : List (List UInt8)) (line : List UInt8) :
    stream sep (lines ++ [line]) = stream sep lines ++ (line ++ sep.bytes) := by
  simp [stream]

theorem feed_plain {line : List UInt8} (hline : Plain line) (hne : line ≠ []) (r : Reader) :
    feed r line = ⟨r.line ++ line,false,r.lines⟩ := by
  induction line generalizing r with
  | nil => contradiction
  | cons b line ih =>
    obtain ⟨hlf,hcr⟩ := hline b List.mem_cons_self
    have hpush : push r b = ⟨r.line ++ [b],false,r.lines⟩ := by
      rw [push,if_neg hlf,if_neg hcr]
    have hcons : feed r (b :: line) = feed (push r b) line := rfl
    rw [hcons,hpush]
    by_cases hnil : line = []
    · subst hnil
      rfl
    · rw [ih (fun c hc => hline c (List.mem_cons_of_mem b hc)) hnil]
      simp

/-- The reader behind some lines, as their separator leaves it. -/
def after (sep : Separator) (lines : List (List UInt8)) : Reader :=
  ⟨[],decide (sep = .cr ∧ lines ≠ []),lines⟩

theorem after_nil (sep : Separator) : after sep [] = start := by simp [after,start]

theorem after_append_singleton (sep : Separator) (lines : List (List UInt8)) (line : List UInt8) :
    after sep (lines ++ [line]) = ⟨[],decide (sep = .cr),lines ++ [line]⟩ := by
  simp [after]

/-- A line feed is skipped only behind a carriage return, so no line is cut short. -/
theorem feed_line {line : List UInt8} (hline : Plain line) (sep : Separator) (lines : List (List UInt8)) :
    feed (after sep lines) (line ++ sep.bytes) = after sep (lines ++ [line]) := by
  -- the reader in front of the separator
  have hread : ∃ skip, feed (after sep lines) line = ⟨line,skip,lines⟩ ∧ (skip = true → sep = .cr) := by
    by_cases hne : line = []
    · subst hne
      exact ⟨_,rfl,fun h => (of_decide_eq_true h).1⟩
    · exact ⟨false,feed_plain hline hne _,fun h => absurd h (by decide)⟩
  obtain ⟨skip,hfeed,hskip⟩ := hread
  rw [feed_append,hfeed,after_append_singleton]
  cases sep with
  | lf =>
    cases skip with
    | false => rfl
    | true => exact absurd (hskip rfl) (by decide)
  | cr => rfl
  | crlf => rfl

theorem feed_stream {lines : List (List UInt8)} (h : ∀ line ∈ lines, Plain line) (sep : Separator) :
    feed start (stream sep lines) = after sep lines := by
  induction lines using List.reverseRecOn with
  | nil => exact (after_nil sep).symm
  | append_singleton lines line ih =>
    rw [stream_append,feed_append,ih (fun l hl => h l (List.mem_append_left _ hl))]
    exact feed_line (h line (List.mem_append_right _ List.mem_cons_self)) sep lines

/-- Cut anywhere, the stream gives the first of its lines. -/
theorem feed_of_piece {lines : List (List UInt8)} (h : ∀ line ∈ lines, Plain line) {sep : Separator} {p : List UInt8}
    (hp : p <+: stream sep lines) : (feed start p).lines <+: lines := by
  obtain ⟨rest,hrest⟩ := hp
  have hall := feed_lines (feed start p) rest
  rwa [← feed_append,hrest,feed_stream h sep] at hall

end SunshineService.LineReader
