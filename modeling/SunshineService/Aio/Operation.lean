import SunshineService.Utils.CloseUtils

/-! # Asynchronous operations

An operation is outstanding from its start to its completion, which finds the buffer
of the operation as the channel left it. A write takes some of the remaining bytes,
a read fills the buffer as far as it likes, and either may fail.
-/
namespace SunshineService
open Utf8

inductive Operation
  | connect
  | write (src : ByteBuffer)
  | read (dst : ByteBuffer)
  deriving DecidableEq

inductive Completion
  | connected
  | accepted (n : ℕ)
  | received (bytes : Bytes)
  | endOfStream
  | failed
  deriving DecidableEq

/-- What the completion handler is called with. -/
inductive Completed
  | connected
  | written (bytes : Bytes) (src : ByteBuffer)
  | filled (dst : ByteBuffer)
  | failed

/-- Only the endings that the channel contract allows for the operation. -/
def Operation.complete : Operation → Completion → Option Completed
  | _, .failed => some .failed
  | .connect, .connected => some .connected
  | .write src, .accepted n =>
    if n ≤ src.remaining then some (.written (src.transfer n).1 (src.transfer n).2) else none
  | .read dst, .received bytes =>
    match dst.put bytes with
    | .ok dst => some (.filled dst)
    | .error _ => none
  | .read dst, .endOfStream => some (.filled dst)
  | _, _ => none

namespace Operation

def completeAt (outstanding : List Operation) (k : ℕ) (o : Completion) :
    Option (List Operation × Completed) :=
  (outstanding[k]?).bind (fun op => (op.complete o).map (fun c => (outstanding.eraseIdx k,c)))

@[simp] theorem completeAt_nil (k : ℕ) (o : Completion) : completeAt [] k o = none := by
  simp only [completeAt,List.getElem?_nil,Option.bind_none]

theorem completeAt_singleton {op : Operation} {k : ℕ} {o : Completion}
    {p : List Operation × Completed} (h : completeAt [op] k o = some p) :
    p.1 = [] ∧ op.complete o = some p.2 := by
  obtain ⟨op',hop,h⟩ := Option.bind_eq_some_iff.mp h
  obtain ⟨c,hc,rfl⟩ := Option.map_eq_some_iff.mp h
  cases k with
  | zero =>
    cases hop
    exact ⟨rfl,hc⟩
  | succ k => contradiction

theorem completeAt_of_complete {op : Operation} {o : Completion} {c : Completed}
    (h : op.complete o = some c) : completeAt [op] 0 o = some ([],c) := by
  simp only [completeAt,List.getElem?_cons_zero,Option.bind_some,h,Option.map_some,
    List.eraseIdx_cons_zero]

theorem completeAt_failed {outstanding : List Operation} {k : ℕ} {p : List Operation × Completed}
    (h : completeAt outstanding k .failed = some p) : p.2 = .failed := by
  obtain ⟨op,_,h⟩ := Option.bind_eq_some_iff.mp h
  obtain ⟨c,hc,rfl⟩ := Option.map_eq_some_iff.mp h
  cases op with
  | connect => exact (Option.some.inj hc).symm
  | write src => exact (Option.some.inj hc).symm
  | read dst => exact (Option.some.inj hc).symm

theorem complete_connect {o : Completion} {c : Completed} (h : connect.complete o = some c) :
    c = .connected ∨ (o = .failed ∧ c = .failed) := by
  cases o with
  | connected => exact Or.inl (Option.some.inj h).symm
  | accepted n => contradiction
  | received bytes => contradiction
  | endOfStream => contradiction
  | failed => exact Or.inr ⟨rfl,(Option.some.inj h).symm⟩

theorem complete_write {src : ByteBuffer} {o : Completion} {c : Completed}
    (h : (write src).complete o = some c) :
    (∃ bytes rest, c = .written bytes rest ∧ bytes ++ rest.contents = src.contents) ∨
      (o = .failed ∧ c = .failed) := by
  cases o with
  | connected => contradiction
  | accepted n =>
    simp only [complete] at h
    split at h
    · cases h
      exact Or.inl ⟨_,_,rfl,src.transfer_append n⟩
    · contradiction
  | received bytes => contradiction
  | endOfStream => contradiction
  | failed => exact Or.inr ⟨rfl,(Option.some.inj h).symm⟩

theorem complete_write_remaining (src : ByteBuffer) : (write src).complete (.accepted src.remaining) =
    some (.written src.contents (src.transfer src.remaining).2) := by
  simp only [complete,le_refl,↓reduceIte,src.transfer_remaining.1]

theorem complete_read {dst : ByteBuffer} {o : Completion} {c : Completed}
    (h : (read dst).complete o = some c) :
    (∃ filled, c = .filled filled) ∨ (o = .failed ∧ c = .failed) := by
  cases o with
  | connected => contradiction
  | accepted n => contradiction
  | received bytes =>
    simp only [complete] at h
    split at h
    · cases h
      exact Or.inl ⟨_,rfl⟩
    · contradiction
  | endOfStream => exact Or.inl ⟨_,(Option.some.inj h).symm⟩
  | failed => exact Or.inr ⟨rfl,(Option.some.inj h).symm⟩

/-- The handler of a read into a fresh buffer finds the received bytes after its flip. -/
theorem complete_received {capacity : ℕ} {bytes : Bytes} (h : bytes.length ≤ capacity) :
    ∃ dst, (read (.allocate capacity)).complete (.received bytes) = some (.filled dst) ∧
      dst.flip.contents = bytes := by
  obtain ⟨dst,hdst,hcontents⟩ := ByteBuffer.put_allocate h
  refine ⟨dst,?_,hcontents⟩
  simp only [complete,hdst]

end Operation
end SunshineService
