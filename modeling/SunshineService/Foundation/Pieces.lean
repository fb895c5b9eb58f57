import Mathlib.Data.List.Infix
import Mathlib.Tactic.Common

/-! # Cutting a stream into pieces of one length

`pieces n` lists the complete stretches of `n` elements in their order and `rest n` is
what is left behind them, so both depend on the stream alone and not on the segments in
which it came. The second part is about a word sent again and again: a window of its
length reads as the word only where a copy begins.
-/
namespace SunshineService.Pieces
variable {α : Type*}

def window (n i : ℕ) (bs : List α) : List α := (bs.drop (i * n)).take n

def pieces (n : ℕ) (bs : List α) : List (List α) :=
  (List.range (bs.length / n)).map (fun i => window n i bs)

def rest (n : ℕ) (bs : List α) : List α := bs.drop (bs.length / n * n)

@[simp] theorem pieces_nil (n : ℕ) : pieces n ([] : List α) = [] := by simp [pieces]

@[simp] theorem rest_nil (n : ℕ) : rest n ([] : List α) = [] := List.drop_nil

@[simp] theorem length_pieces (n : ℕ) (bs : List α) : (pieces n bs).length = bs.length / n := by
  rw [pieces,List.length_map,List.length_range]

theorem length_rest (n : ℕ) (bs : List α) : (rest n bs).length = bs.length % n := by
  have hsplit := Nat.div_add_mod' bs.length n
  rw [rest,List.length_drop]
  omega

theorem length_window {n i : ℕ} {bs : List α} (h : (i + 1) * n ≤ bs.length) :
    (window n i bs).length = n := by
  rw [Nat.succ_mul] at h
  rw [window,List.length_take,List.length_drop]
  omega

theorem length_of_mem_pieces {n : ℕ} {bs f : List α} (hf : f ∈ pieces n bs) : f.length = n := by
  obtain ⟨i,hi,rfl⟩ := List.mem_map.mp hf
  apply length_window
  exact (Nat.mul_le_mul_right n (List.mem_range.mp hi)).trans (Nat.div_mul_le_self _ _)

theorem flatten_windows (n m : ℕ) (bs : List α) :
    ((List.range m).map (fun i => window n i bs)).flatten = bs.take (m * n) := by
  induction m with
  | zero => simp
  | succ m ih =>
    rw [List.range_succ,List.map_append,List.flatten_append,ih,Nat.succ_mul,List.take_add]
    simp [window]

/-- Nothing is lost or invented. -/
theorem flatten_pieces_append_rest (n : ℕ) (bs : List α) :
    (pieces n bs).flatten ++ rest n bs = bs := by
  rw [pieces,flatten_windows,rest,List.take_append_drop]

theorem window_append_left {n i : ℕ} {xs : List α} (ys : List α) (h : (i + 1) * n ≤ xs.length) :
    window n i (xs ++ ys) = window n i xs := by
  rw [Nat.succ_mul] at h
  rw [window,window,List.drop_append_of_le_length (by omega),
    List.take_append_of_le_length (by rw [List.length_drop]; omega)]

theorem window_append_rest (n i : ℕ) (xs ys : List α) :
    window n (xs.length / n + i) (xs ++ ys) = window n i (rest n xs ++ ys) := by
  have hle := Nat.div_mul_le_self xs.length n
  have hdrop : rest n xs ++ ys = (xs ++ ys).drop (xs.length / n * n) :=
    (List.drop_append_of_le_length hle).symm
  rw [window,window,hdrop,List.drop_drop,Nat.add_mul]

/-- Pieces that are complete stay as they are, and the rest is all that cutting goes on from. -/
theorem pieces_append (n : ℕ) (xs ys : List α) :
    pieces n (xs ++ ys) = pieces n xs ++ pieces n (rest n xs ++ ys) := by
  have hsplit := Nat.div_add_mod' xs.length n
  have hlength : (xs ++ ys).length / n = xs.length / n + (rest n xs ++ ys).length / n := by
    rw [List.length_append,List.length_append,length_rest]
    rcases Nat.eq_zero_or_pos n with rfl | hn
    · simp
    · rw [← Nat.mul_add_div hn,← Nat.add_assoc,Nat.mul_comm n,hsplit]
  rw [pieces,hlength,List.range_add,List.map_append,List.map_map]
  congr 1
  · refine List.map_congr_left ?_
    intro i hi
    apply window_append_left
    exact (Nat.mul_le_mul_right n (List.mem_range.mp hi)).trans (Nat.div_mul_le_self _ _)
  · refine List.map_congr_left ?_
    intro i _
    exact window_append_rest n i xs ys

theorem rest_append (n : ℕ) (xs ys : List α) : rest n (xs ++ ys) = rest n (rest n xs ++ ys) := by
  have hpieces := flatten_pieces_append_rest n xs
  have hrest := flatten_pieces_append_rest n (rest n xs ++ ys)
  have hall := flatten_pieces_append_rest n (xs ++ ys)
  have hstream : (pieces n xs).flatten ++ (rest n xs ++ ys) = xs ++ ys := by
    rw [← List.append_assoc,hpieces]
  rw [pieces_append,List.flatten_append,List.append_assoc,← hstream] at hall
  have hsame := (List.append_cancel_left hall).trans hrest.symm
  rw [hstream] at hsame
  exact List.append_cancel_left hsame

/-- What has been read of a stream stays as it is while the stream grows. -/
theorem take_eq_of_piece {xs ys : List α} (h : xs <+: ys) {k : ℕ} (hk : k ≤ xs.length) :
    ys.take k = xs.take k := by
  obtain ⟨r,rfl⟩ := h
  exact List.take_append_of_le_length hk

/-! ## A word sent again and again -/

def copies (m : ℕ) (w : List α) : List α := (List.replicate m w).flatten

theorem length_copies (m : ℕ) (w : List α) : (copies m w).length = m * w.length := by
  simp [copies]

theorem copies_succ (m : ℕ) (w : List α) : copies (m + 1) w = copies m w ++ w := by
  rw [copies,copies,List.replicate_succ',List.flatten_append]
  simp

theorem mem_of_mem_copies {m : ℕ} {w : List α} {b : α} (hb : b ∈ copies m w) : b ∈ w := by
  obtain ⟨v,hv,hb⟩ := List.mem_flatten.mp hb
  rwa [List.eq_of_mem_replicate hv] at hb

theorem getElem?_copies {m : ℕ} {w : List α} {i : ℕ} (hi : i < m * w.length) :
    (copies m w)[i]? = w[i % w.length]? := by
  induction m with
  | zero => simp at hi
  | succ m ih =>
    rw [copies_succ]
    by_cases hlt : i < m * w.length
    · rw [List.getElem?_append_left (by rwa [length_copies]),ih hlt]
    · rw [Nat.succ_mul] at hi
      obtain ⟨j,rfl⟩ := Nat.exists_eq_add_of_le (Nat.le_of_not_lt hlt)
      rw [List.getElem?_append_right (by rw [length_copies]; omega),length_copies,
        Nat.add_sub_cancel_left,Nat.mul_add_mod_of_lt (by omega)]

end SunshineService.Pieces
