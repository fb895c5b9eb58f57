import Mathlib.Data.List.Count
import Mathlib.Data.List.Perm.Basic
import Mathlib.Data.Nat.Factorization.Basic
import Mathlib.Tactic.Common

/-! # Exclusive-or folds over machine words

A value that occurs an even number of times cancels from the fold, so the fold of a
list depends only on the parities of its counts. Clearing the lowest set bit with
`n &&& (n - 1)` and taking the difference isolates that bit, at every width.
-/
namespace SunshineService.XorFold
variable {w : ℕ}

def xorAll (l : List (BitVec w)) : BitVec w := l.foldl (fun n i => n ^^^ i) 0

theorem foldl_xor (a : BitVec w) (l : List (BitVec w)) :
    l.foldl (fun n i => n ^^^ i) a = a ^^^ xorAll l := by
  induction l generalizing a with
  | nil => simp [xorAll]
  | cons v l ih =>
    unfold xorAll
    simp only [List.foldl_cons]
    rw [ih,ih (0 ^^^ v)]
    simp [BitVec.xor_assoc]

@[simp] theorem xorAll_nil : xorAll ([] : List (BitVec w)) = 0 := rfl

@[simp] theorem xorAll_cons (v : BitVec w) (l : List (BitVec w)) :
    xorAll (v :: l) = v ^^^ xorAll l := by
  rw [xorAll,List.foldl_cons,foldl_xor]
  simp

theorem xorAll_append (l k : List (BitVec w)) : xorAll (l ++ k) = xorAll l ^^^ xorAll k := by
  induction l with
  | nil => simp
  | cons v l ih => rw [List.cons_append,xorAll_cons,ih,xorAll_cons,BitVec.xor_assoc]

theorem xorAll_perm {l k : List (BitVec w)} (h : l.Perm k) : xorAll l = xorAll k := by
  induction h with
  | nil => rfl
  | cons v _ ih => rw [xorAll_cons,xorAll_cons,ih]
  | swap u v l =>
    simp only [xorAll_cons]
    rw [← BitVec.xor_assoc,BitVec.xor_comm v u,BitVec.xor_assoc]
  | trans _ _ ih ih' => exact ih.trans ih'

theorem xorAll_eq_zero {l : List (BitVec w)} (h : ∀ v, l.count v % 2 = 0) : xorAll l = 0 := by
  induction hn : l.length using Nat.strong_induction_on generalizing l with
  | _ n ih =>
    cases l with
    | nil => rfl
    | cons v l =>
      have hv := h v
      rw [List.count_cons_self] at hv
      have hmem : v ∈ l := List.count_pos_iff.mp (by omega)
      have hperm := List.perm_cons_erase hmem
      have hrest : ∀ u, (l.erase v).count u % 2 = 0 := by
        intro u
        have hu := h u
        by_cases huv : u = v
        · subst u
          rw [List.count_erase_self]
          omega
        · rw [List.count_cons_of_ne (Ne.symm huv)] at hu
          rw [List.count_erase_of_ne huv,hu]
      have hlen : (l.erase v).length < n := by
        rw [List.length_erase_of_mem hmem,← hn,List.length_cons]
        omega
      have hzero := ih _ hlen hrest rfl
      rw [xorAll_cons,xorAll_perm hperm,xorAll_cons,hzero]
      simp

/-- The fold is determined by the parities of the counts. -/
theorem xorAll_congr {l k : List (BitVec w)} (h : ∀ v, l.count v % 2 = k.count v % 2) :
    xorAll l = xorAll k := by
  have hzero : xorAll (l ++ k) = 0 := by
    apply xorAll_eq_zero
    intro v
    have hv := h v
    rw [List.count_append]
    omega
  rw [xorAll_append] at hzero
  exact BitVec.xor_eq_zero_iff.mp hzero

/-! ## The lowest set bit -/

theorem toNat_sub_one {n : BitVec w} (hn : n ≠ 0) : (n - 1).toNat = n.toNat - 1 := by
  have hpos : n.toNat ≠ 0 := fun h => hn (BitVec.eq_of_toNat_eq (by simpa using h))
  have hlt := n.isLt
  have hw : 1 < 2 ^ w := by omega
  have hone : (1 : BitVec w).toNat = 1 := by
    rw [BitVec.ofNat_eq_ofNat,BitVec.toNat_ofNat,Nat.mod_eq_of_lt hw]
  have hle : (1 : BitVec w) ≤ n := by
    rw [BitVec.le_def,hone]
    omega
  rw [BitVec.toNat_sub_of_le hle,hone]

/-- `n ^ (n & (n - 1))` is the lowest set bit of a nonzero `n`. -/
theorem xor_and_sub_one {n : BitVec w} (hn : n ≠ 0) :
    ∃ k < w, n ^^^ (n &&& (n - 1)) = BitVec.twoPow w k ∧ n.getLsbD k = true ∧
      ∀ j < k, n.getLsbD j = false := by
  have hpos : n.toNat ≠ 0 := fun h => hn (BitVec.eq_of_toNat_eq (by simpa using h))
  obtain ⟨k,q,⟨m,rfl⟩,hnat⟩ := Nat.exists_eq_two_pow_mul_odd hpos
  have hpow : 2 ^ k < 2 ^ (k + 1) := Nat.pow_lt_pow_succ (by omega)
  have hpred : 2 ^ k - 1 < 2 ^ (k + 1) := by omega
  have hsplit : n.toNat = 2 ^ (k + 1) * m + 2 ^ k := by
    rw [hnat,Nat.pow_succ,Nat.mul_add,Nat.mul_one,Nat.mul_assoc]
  have hsub : (n - 1).toNat = 2 ^ (k + 1) * m + (2 ^ k - 1) := by
    have hone : 1 ≤ 2 ^ k := Nat.one_le_two_pow
    rw [toNat_sub_one hn,hsplit]
    omega
  have hbit : ∀ j, n.getLsbD j = if j < k + 1 then decide (j = k) else m.testBit (j - (k + 1)) := by
    intro j
    rw [← BitVec.testBit_toNat,hsplit,Nat.testBit_two_pow_mul_add _ hpow,Nat.testBit_two_pow]
    simp [eq_comm]
  have hbit' : ∀ j, (n - 1).getLsbD j = if j < k + 1 then decide (j < k) else m.testBit (j - (k + 1)) := by
    intro j
    rw [← BitVec.testBit_toNat,hsub,Nat.testBit_two_pow_mul_add _ hpred,Nat.testBit_two_pow_sub_one]
  have hkw : k < w := by
    by_contra h
    have hle : 2 ^ w ≤ 2 ^ k := Nat.pow_le_pow_right (by omega) (Nat.le_of_not_lt h)
    have hlt := n.isLt
    omega
  refine ⟨k,hkw,?_,by simp [hbit],?_⟩
  · apply BitVec.eq_of_getLsbD_eq
    intro j hj
    rw [BitVec.getLsbD_xor,BitVec.getLsbD_and,hbit,hbit',BitVec.getLsbD_twoPow]
    by_cases h : j < k + 1
    · rcases Nat.lt_or_eq_of_le (Nat.le_of_lt_succ h) with h' | rfl
      · simp [h,h',Nat.ne_of_lt h',Nat.ne_of_gt h']
      · simp [hj]
    · have hne : k ≠ j := by omega
      simp [h,hne]
  · intro j hj
    rw [hbit]
    have h : j < k + 1 := by omega
    simp [h,Nat.ne_of_lt hj]

theorem and_one_ne_zero (v : BitVec w) : v &&& 1 ≠ 0 ↔ v.getLsbD 0 = true := by
  constructor
  · intro h
    by_contra hbit
    apply h
    apply BitVec.eq_of_getLsbD_eq
    intro j hj
    cases j with
    | zero => simp [hbit]
    | succ j => simp
  · intro h hzero
    have hbit := congrArg (fun u => BitVec.getLsbD u 0) hzero
    have hw := BitVec.lt_of_getLsbD h
    rw [BitVec.getLsbD_eq_getElem hw] at h
    simp [h,hw] at hbit

end SunshineService.XorFold
