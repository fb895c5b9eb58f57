import Mathlib.Data.BitVec
import Mathlib.Logic.Function.Iterate
import Mathlib.Tactic.Common

/-! # A shift register with feedback

One shift moves the bits down by one place and adds the polynomial when the lowest bit
was set. Shifts are linear in exclusive or. So what `k` of them do to a word depends on
its low `k` bits alone, apart from moving the others down, which is why a table of the
low words does the work of the single shifts.
-/
namespace SunshineService.ShiftRegister

variable {w : ℕ} (poly : BitVec w)

def shift (c : BitVec w) : BitVec w := if c.getLsbD 0 then (c >>> 1) ^^^ poly else c >>> 1

def shifts (k : ℕ) (c : BitVec w) : BitVec w := (shift poly)^[k] c

def low (k : ℕ) (c : BitVec w) : BitVec w := c &&& BitVec.ofNat w (2 ^ k - 1)

variable {poly}

theorem shift_xor (a b : BitVec w) : shift poly (a ^^^ b) = shift poly a ^^^ shift poly b := by
  have hpoly : poly ^^^ poly = 0#w := BitVec.xor_self
  unfold shift
  rw [BitVec.getLsbD_xor,BitVec.ushiftRight_xor_distrib]
  cases a.getLsbD 0 <;> cases b.getLsbD 0
  · rfl
  · exact BitVec.xor_assoc _ _ _
  · change a >>> 1 ^^^ b >>> 1 ^^^ poly = a >>> 1 ^^^ poly ^^^ b >>> 1
    rw [BitVec.xor_assoc,BitVec.xor_assoc,BitVec.xor_comm poly]
  · change a >>> 1 ^^^ b >>> 1 = a >>> 1 ^^^ poly ^^^ (b >>> 1 ^^^ poly)
    rw [BitVec.xor_comm (b >>> 1) poly,BitVec.xor_assoc,← BitVec.xor_assoc poly poly,hpoly,
      BitVec.zero_xor]

theorem shifts_succ (k : ℕ) (c : BitVec w) : shifts poly (k + 1) c = shift poly (shifts poly k c) :=
  Function.iterate_succ_apply' (shift poly) k c

theorem shifts_add (j k : ℕ) (c : BitVec w) :
    shifts poly (j + k) c = shifts poly j (shifts poly k c) :=
  Function.iterate_add_apply (shift poly) j k c

theorem shifts_xor (k : ℕ) (a b : BitVec w) :
    shifts poly k (a ^^^ b) = shifts poly k a ^^^ shifts poly k b := by
  induction k with
  | zero => rfl
  | succ k ih => rw [shifts_succ,shifts_succ,shifts_succ,ih,shift_xor]

/-- A word whose low bits are clear only moves down. -/
theorem shifts_of_clear {k : ℕ} {c : BitVec w} (h : ∀ i < k, c.getLsbD i = false) :
    shifts poly k c = c >>> k := by
  induction k with
  | zero => exact (BitVec.ushiftRight_zero c).symm
  | succ k ih =>
    have hbit : (c >>> k).getLsbD 0 = false := by
      rw [BitVec.getLsbD_ushiftRight]
      exact h (k + 0) (by omega)
    rw [shifts_succ,ih (fun i hi => h i (by omega)),shift,hbit,BitVec.shiftRight_add]
    rfl

theorem shiftLeft_shiftRight {k : ℕ} {c : BitVec w} (h : ∀ i, w ≤ i + k → c.getLsbD i = false) :
    (c <<< k) >>> k = c := by
  apply BitVec.eq_of_getLsbD_eq
  intro i _
  rw [BitVec.getLsbD_ushiftRight,BitVec.getLsbD_shiftLeft]
  by_cases hi : w ≤ i + k
  · rw [h i hi,Nat.add_sub_cancel_left,h i hi,Bool.and_false]
  · simp [show k + i < w by omega]

/-- A word moved up and then through as many shifts is back, when nothing was lost at the top. -/
theorem shifts_shiftLeft {k : ℕ} {c : BitVec w} (h : ∀ i, w ≤ i + k → c.getLsbD i = false) :
    shifts poly k (c <<< k) = c := by
  have hclear : ∀ i < k, (c <<< k).getLsbD i = false := by
    intro i hi
    simp [BitVec.getLsbD_shiftLeft,hi]
  rw [shifts_of_clear hclear,shiftLeft_shiftRight h]

theorem getLsbD_low (k i : ℕ) (c : BitVec w) :
    (low k c).getLsbD i = (c.getLsbD i && decide (i < k)) := by
  rw [low,BitVec.getLsbD_and,BitVec.getLsbD_ofNat,Nat.testBit_two_pow_sub_one]
  by_cases hi : i < w
  · simp [hi]
  · simp [BitVec.getLsbD_of_ge c i (by omega)]

/-- The low bits go through the feedback, the others move down. -/
theorem shifts_eq (k : ℕ) (c : BitVec w) :
    shifts poly k c = shifts poly k (low k c) ^^^ c >>> k := by
  have hsplit : c = low k c ^^^ (low k c ^^^ c) := by
    rw [← BitVec.xor_assoc,BitVec.xor_self,BitVec.zero_xor]
  have hclear : ∀ i < k, (low k c ^^^ c).getLsbD i = false := by
    intro i hi
    rw [BitVec.getLsbD_xor,getLsbD_low]
    simp [hi]
  have hdown : (low k c ^^^ c) >>> k = c >>> k := by
    apply BitVec.eq_of_getLsbD_eq
    intro i _
    have hk : decide (k + i < k) = false := by simp
    rw [BitVec.getLsbD_ushiftRight,BitVec.getLsbD_ushiftRight,BitVec.getLsbD_xor,getLsbD_low,hk,
      Bool.and_false,Bool.false_xor]
  calc shifts poly k c = shifts poly k (low k c ^^^ (low k c ^^^ c)) := by rw [← hsplit]
    _ = shifts poly k (low k c) ^^^ shifts poly k (low k c ^^^ c) := shifts_xor k _ _
    _ = shifts poly k (low k c) ^^^ c >>> k := by rw [shifts_of_clear hclear,hdown]

theorem toNat_low_lt (k : ℕ) (c : BitVec w) : (low k c).toNat < 2 ^ k := by
  have hand : (low k c).toNat ≤ (BitVec.ofNat w (2 ^ k - 1)).toNat := by
    rw [low,BitVec.toNat_and]
    exact Nat.and_le_right
  have hmask : (BitVec.ofNat w (2 ^ k - 1)).toNat ≤ 2 ^ k - 1 := by
    rw [BitVec.toNat_ofNat]
    exact Nat.mod_le _ _
  have := Nat.two_pow_pos k
  omega

/-- A table of what `k` shifts make of the low words takes `k` bits `c` into the register at once. -/
theorem lookup_eq {k : ℕ} {table : List (BitVec w)} {c : BitVec w}
    (h : ∀ i < 2 ^ k, table[i]? = some (shifts poly k (BitVec.ofNat w i))) (hc : c >>> k = 0#w)
    (crc : BitVec w) :
    table.getD (low k (crc ^^^ c)).toNat 0 ^^^ crc >>> k = shifts poly k (crc ^^^ c) := by
  have hdown : (crc ^^^ c) >>> k = crc >>> k := by
    rw [BitVec.ushiftRight_xor_distrib,hc,BitVec.xor_zero]
  rw [List.getD_eq_getElem?_getD,h _ (toNat_low_lt k _),Option.getD_some,BitVec.ofNat_toNat,
    BitVec.setWidth_eq,shifts_eq k (crc ^^^ c),hdown]

/-- With the top bit in the polynomial, that bit of the shifted word tells whether the
feedback was added. -/
theorem shift_injective (hpoly : poly.msb = true) : Function.Injective (shift poly) := by
  intro a b hab
  have hzero : shift poly (a ^^^ b) = 0#w := by rw [shift_xor,hab,BitVec.xor_self]
  have hw : 0 < w := by
    by_contra h
    obtain rfl : w = 0 := by omega
    simp [BitVec.msb,BitVec.getMsbD] at hpoly
  have htop : ((a ^^^ b) >>> 1).getLsbD (w - 1) = false := by
    rw [BitVec.getLsbD_ushiftRight]
    exact BitVec.getLsbD_of_ge _ _ (by omega)
  have hlast : poly.getLsbD (w - 1) = true := by rw [← BitVec.msb_eq_getLsbD_last,hpoly]
  have hbit : (a ^^^ b).getLsbD 0 = false := by
    by_contra hset
    rw [Bool.not_eq_false] at hset
    have := congrArg (BitVec.getLsbD · (w - 1)) hzero
    simp only [shift,hset,if_true,BitVec.getLsbD_xor,htop,hlast,BitVec.getLsbD_zero] at this
    contradiction
  have hdown : (a ^^^ b) >>> 1 = 0#w := by
    simpa only [shift,hbit,Bool.false_eq_true,if_false] using hzero
  have hsame : a ^^^ b = 0#w := by
    apply BitVec.eq_of_getLsbD_eq
    intro i _
    rw [BitVec.getLsbD_zero]
    cases i with
    | zero => exact hbit
    | succ i =>
      have := congrArg (BitVec.getLsbD · i) hdown
      simp only [BitVec.getLsbD_ushiftRight,BitVec.getLsbD_zero] at this
      rw [← this,Nat.add_comm]
  exact BitVec.xor_eq_zero_iff.mp hsame

theorem shifts_injective (hpoly : poly.msb = true) (k : ℕ) : Function.Injective (shifts poly k) :=
  (shift_injective hpoly).iterate k

end SunshineService.ShiftRegister
