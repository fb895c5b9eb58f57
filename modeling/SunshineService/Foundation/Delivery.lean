import Mathlib.Algebra.Ring.Nat
import Mathlib.Data.List.Infix
import Mathlib.Tactic.Common

/-! # Streams that are delivered in segments

The writer's stream grows and the reader has got a piece from its beginning. Each
delivery brings the next elements, at least one and no more than have been written. What
the reader got in all is then the stream cut at the lengths of the deliveries.
-/
namespace SunshineService.Delivery
variable {α : Type*}

/-- The next `k` elements behind the first `read`. -/
def segment (written : List α) (read k : ℕ) : Option (List α) :=
  if 0 < k ∧ read + k ≤ written.length then some ((written.drop read).take k) else none

/-- The stretches of the given lengths, one behind the other. -/
def segments : List ℕ → List α → List (List α)
  | [], _ => []
  | k :: ks, xs => xs.take k :: segments ks (xs.drop k)

variable {xs buf : List α} {read k : ℕ}

theorem segment_eq (h : segment xs read k = some buf) :
    0 < k ∧ read + k ≤ xs.length ∧ buf = (xs.drop read).take k := by
  unfold segment at h
  split at h
  · rename_i hk
    cases h
    exact ⟨hk.1,hk.2,rfl⟩
  · contradiction

theorem segment_eq_some (h : segment xs read k = some buf) :
    read + k ≤ xs.length ∧ xs.take read ++ buf = xs.take (read + k) := by
  obtain ⟨_,hread,rfl⟩ := segment_eq h
  exact ⟨hread,List.take_add.symm⟩

theorem segment_mem (h : segment xs read k = some buf) :
    0 < k ∧ buf.length = k ∧ ∀ b ∈ buf, b ∈ xs := by
  obtain ⟨hpos,hread,rfl⟩ := segment_eq h
  refine ⟨hpos,?_,fun b hb => List.mem_of_mem_drop (List.mem_of_mem_take hb)⟩
  rw [List.length_take,List.length_drop]
  omega

theorem segment_append (ys : List α) (h : segment xs read k = some buf) :
    segment (xs ++ ys) read k = some buf := by
  obtain ⟨hpos,hread,rfl⟩ := segment_eq h
  rw [segment,if_pos ⟨hpos,by rw [List.length_append]; omega⟩,List.drop_append_of_le_length (by omega),
    List.take_append_of_le_length (by rw [List.length_drop]; omega)]

/-- All that is left can come in one segment. -/
theorem segment_rest (h : read < xs.length) : ∃ buf, segment xs read (xs.length - read) = some buf := by
  rw [segment,if_pos ⟨by omega,by omega⟩]
  exact ⟨_,rfl⟩

@[simp] theorem length_segments (ks : List ℕ) (xs : List α) : (segments ks xs).length = ks.length := by
  induction ks generalizing xs with
  | nil => rfl
  | cons k ks ih => rw [segments,List.length_cons,ih,List.length_cons]

theorem segments_concat (ks : List ℕ) (k : ℕ) (xs : List α) :
    segments (ks ++ [k]) xs = segments ks xs ++ [(xs.drop ks.sum).take k] := by
  induction ks generalizing xs with
  | nil => simp [segments]
  | cons j ks ih => simp only [List.cons_append,segments,ih,List.drop_drop,List.sum_cons]

/-- A stream that has grown is still cut in the same way. -/
theorem segments_append {ks : List ℕ} (h : ks.sum ≤ xs.length) (ys : List α) :
    segments ks (xs ++ ys) = segments ks xs := by
  induction ks generalizing xs with
  | nil => rfl
  | cons k ks ih =>
    rw [List.sum_cons] at h
    have hrest : ks.sum ≤ (xs.drop k).length := by
      rw [List.length_drop]
      omega
    rw [segments,segments,List.take_append_of_le_length (by omega),
      List.drop_append_of_le_length (by omega),ih hrest]

theorem segments_of_piece {ks : List ℕ} {ys : List α} (h : ks.sum ≤ xs.length) (hp : xs <+: ys) :
    segments ks ys = segments ks xs := by
  obtain ⟨zs,rfl⟩ := hp
  exact segments_append h zs

end SunshineService.Delivery
