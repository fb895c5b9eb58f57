import Mathlib.Data.Finset.Basic
import SunshineService.Foundation.Utf8

/-! # Byte buffers with a position and a limit

The order `position ≤ limit ≤ capacity` is part of the type, so a buffer that
violates it cannot be built. Relative bulk `put` and `get` fail instead of moving
past the limit. `transfer` is what a channel write does to its source buffer: it
takes some of the remaining bytes and moves the position over them.
-/
namespace SunshineService
open Utf8

inductive BufferError
  | overflow
  | underflow
  deriving DecidableEq, Repr

structure ByteBuffer where
  hb : Bytes
  position : ℕ
  limit : ℕ
  position_le : position ≤ limit
  limit_le : limit ≤ hb.length
  deriving DecidableEq

namespace ByteBuffer

def allocate (capacity : ℕ) : ByteBuffer where
  hb := List.replicate capacity 0
  position := 0
  limit := capacity
  position_le := Nat.zero_le _
  limit_le := by simp

def remaining (b : ByteBuffer) : ℕ := b.limit - b.position

def hasRemaining (b : ByteBuffer) : Bool := b.position < b.limit

/-- The bytes between position and limit. -/
def contents (b : ByteBuffer) : Bytes := (b.hb.drop b.position).take b.remaining

def put (b : ByteBuffer) (src : Bytes) : Except BufferError ByteBuffer :=
  if h : src.length ≤ b.remaining then
    .ok {
      hb := b.hb.take b.position ++ (src ++ b.hb.drop (b.position + src.length))
      position := b.position + src.length
      limit := b.limit
      position_le := by
        have hp := b.position_le
        simp only [remaining] at h
        omega
      limit_le := by
        have hp := b.position_le
        have hl := b.limit_le
        simp only [remaining] at h
        simp only [List.length_append,List.length_take,List.length_drop]
        omega }
  else .error .overflow

def flip (b : ByteBuffer) : ByteBuffer where
  hb := b.hb
  position := 0
  limit := b.position
  position_le := Nat.zero_le _
  limit_le := b.position_le.trans b.limit_le

/-- A channel accepts `n` of the remaining bytes, or all of them if there are fewer. -/
def transfer (b : ByteBuffer) (n : ℕ) : Bytes × ByteBuffer :=
  (b.contents.take n,{
    hb := b.hb
    position := b.position + min n b.remaining
    limit := b.limit
    position_le := by
      have hp := b.position_le
      simp only [remaining]
      omega
    limit_le := b.limit_le })

def get (b : ByteBuffer) (n : ℕ) : Except BufferError (Bytes × ByteBuffer) :=
  if n ≤ b.remaining then .ok (b.transfer n) else .error .underflow

@[simp] theorem length_contents (b : ByteBuffer) : b.contents.length = b.remaining := by
  have hp := b.position_le
  have hl := b.limit_le
  simp only [contents,remaining,List.length_take,List.length_drop]
  omega

theorem hasRemaining_iff (b : ByteBuffer) : b.hasRemaining = true ↔ 0 < b.remaining := by
  simp only [hasRemaining,remaining,decide_eq_true_eq]
  omega

theorem contents_eq_nil_iff (b : ByteBuffer) : b.contents = [] ↔ ¬ b.hasRemaining = true := by
  rw [hasRemaining_iff,← length_contents,List.length_pos_iff,not_not]

@[simp] theorem remaining_allocate (n : ℕ) : (allocate n).remaining = n := rfl

@[simp] theorem position_allocate (n : ℕ) : (allocate n).position = 0 := rfl

@[simp] theorem remaining_flip (b : ByteBuffer) : b.flip.remaining = b.position := rfl

theorem contents_flip (b : ByteBuffer) : b.flip.contents = b.hb.take b.position := rfl

theorem put_of_le {b : ByteBuffer} {src : Bytes} (h : src.length ≤ b.remaining) :
    ∃ c, b.put src = .ok c ∧ c.position = b.position + src.length ∧
      c.hb = b.hb.take b.position ++ (src ++ b.hb.drop (b.position + src.length)) := by
  simp only [put,dif_pos h]
  exact ⟨_,rfl,rfl,rfl⟩

/-- Filling a fresh buffer and flipping it makes exactly the source readable. -/
theorem put_allocate {capacity : ℕ} {src : Bytes} (h : src.length ≤ capacity) :
    ∃ b, (allocate capacity).put src = .ok b ∧ b.flip.contents = src := by
  have hroom : src.length ≤ (allocate capacity).remaining := h
  obtain ⟨b,hb,hposition,hhb⟩ := put_of_le hroom
  refine ⟨b,hb,?_⟩
  rw [contents_flip,hposition,hhb]
  simp

theorem get_remaining (b : ByteBuffer) :
    ∃ c, b.get b.remaining = .ok (b.contents,c) := by
  refine ⟨(b.transfer b.remaining).2,?_⟩
  have htake : b.contents.take b.remaining = b.contents :=
    List.take_of_length_le (by rw [length_contents])
  simp only [get,le_refl,↓reduceIte,transfer,htake]

@[simp] theorem transfer_fst (b : ByteBuffer) (n : ℕ) : (b.transfer n).1 = b.contents.take n := rfl

@[simp] theorem remaining_transfer (b : ByteBuffer) (n : ℕ) :
    (b.transfer n).2.remaining = b.remaining - n := by
  simp only [transfer,remaining]
  omega

theorem contents_transfer (b : ByteBuffer) (n : ℕ) :
    (b.transfer n).2.contents = b.contents.drop n := by
  simp only [contents,remaining_transfer,List.drop_take]
  simp only [transfer,List.drop_drop]
  by_cases h : n ≤ b.remaining
  · rw [min_eq_left h]
  · simp [Nat.sub_eq_zero_of_le (Nat.le_of_not_le h)]

theorem transfer_remaining (b : ByteBuffer) :
    (b.transfer b.remaining).1 = b.contents ∧ ¬ (b.transfer b.remaining).2.hasRemaining = true := by
  constructor
  · rw [transfer_fst,← length_contents,List.take_length]
  · rw [hasRemaining_iff,remaining_transfer]
    omega

theorem transfer_append (b : ByteBuffer) (n : ℕ) :
    (b.transfer n).1 ++ (b.transfer n).2.contents = b.contents := by
  rw [transfer_fst,contents_transfer,List.take_append_drop]

end ByteBuffer
end SunshineService
