import Mathlib.Tactic.IntervalCases
import SunshineService.Foundation.XorFold

/-! # The two unpaired numbers

The list holds every value an even number of times, except two. The program folds
it with exclusive or, picks a bit of the result and folds the two halves of the list
that this bit separates. The bit index goes through floating point logarithms, of
which only the documented facts are used.
-/
namespace SunshineService.UnpairedNumbers
open XorFold

structure JavaMath where
  Double : Type
  NaN : Double
  two : Double
  ofInt : BitVec 32 → Double
  log : Double → Double
  div : Double → Double → Double
  toInt : Double → BitVec 32

/-- What is known of `Math.log`, of division and of the cast to `int`. -/
structure JavaMath.Documented (M : JavaMath) : Prop where
  log_two_pow : ∀ k, 1 ≤ k → k ≤ 30 →
    M.toInt (M.div (M.log (M.ofInt (BitVec.twoPow 32 k))) (M.log M.two)) = BitVec.ofNat 32 k
  log_negative : ∀ v : BitVec 32, v.toInt < 0 → M.log (M.ofInt v) = M.NaN
  nan_div : ∀ d, M.div M.NaN d = M.NaN
  toInt_nan : M.toInt M.NaN = 0

variable (M : JavaMath)

def chooseBit (n : BitVec 32) : BitVec 32 :=
  if n &&& 1 = 0 then M.toInt (M.div (M.log (M.ofInt (n ^^^ (n &&& (n - 1))))) (M.log M.two)) else 0

/-- `i >> m`: an arithmetic shift by the low five bits of `m`. -/
def shiftRight (i m : BitVec 32) : BitVec 32 := i.sshiftRight (m.toNat % 32)

def partitionStep (m : BitVec 32) (ab : BitVec 32 × BitVec 32) (i : BitVec 32) :
    BitVec 32 × BitVec 32 :=
  if shiftRight i m &&& 1 ≠ 0 then (ab.1 ^^^ i,ab.2) else (ab.1,ab.2 ^^^ i)

def main (arr : List (BitVec 32)) : BitVec 32 × BitVec 32 :=
  let n := arr.foldl (fun n i => n ^^^ i) 0
  let m := chooseBit M n
  arr.foldl (partitionStep m) (0,0)

/-- Exactly `x` and `y` occur an odd number of times. -/
def TwoUnpaired (arr : List (BitVec 32)) (x y : BitVec 32) : Prop :=
  x ≠ y ∧ ∀ v, arr.count v % 2 = 1 ↔ v = x ∨ v = y

def IsPair (x y : BitVec 32) (ab : BitVec 32 × BitVec 32) : Prop := ab = (x,y) ∨ ab = (y,x)

instance (x y : BitVec 32) (ab : BitVec 32 × BitVec 32) : Decidable (IsPair x y ab) :=
  inferInstanceAs (Decidable (_ ∨ _))

theorem twoUnpaired_of_mem {arr : List (BitVec 32)} {x y : BitVec 32} (hxy : x ≠ y)
    (hx : arr.count x % 2 = 1) (hy : arr.count y % 2 = 1)
    (hrest : arr.all (fun v => v = x || v = y || arr.count v % 2 = 0)) : TwoUnpaired arr x y := by
  refine ⟨hxy,fun v => ⟨fun hv => ?_,?_⟩⟩
  · have hmem : v ∈ arr := List.count_pos_iff.mp (by omega)
    have htest := List.all_eq_true.mp hrest v hmem
    simp only [Bool.or_eq_true,decide_eq_true_eq] at htest
    rcases htest with (h | h) | h
    · exact Or.inl h
    · exact Or.inr h
    · omega
  · rintro (rfl | rfl)
    · exact hx
    · exact hy

/-! ## The loops in terms of the two values -/

theorem TwoUnpaired.count_mod {arr : List (BitVec 32)} {x y : BitVec 32}
    (h : TwoUnpaired arr x y) (v : BitVec 32) : arr.count v % 2 = [x,y].count v % 2 := by
  obtain ⟨hxy,hodd⟩ := h
  have hv := hodd v
  by_cases hvx : v = x
  · subst v
    rw [hv.mpr (Or.inl rfl)]
    simp [Ne.symm hxy]
  · by_cases hvy : v = y
    · subst v
      rw [hv.mpr (Or.inr rfl)]
      simp [hxy]
    · have hne : arr.count v % 2 ≠ 1 := fun h => (hv.mp h).elim hvx hvy
      have hzero : [x,y].count v = 0 := by simp [Ne.symm hvx,Ne.symm hvy]
      omega

theorem TwoUnpaired.xorAll_filter {arr : List (BitVec 32)} {x y : BitVec 32}
    (h : TwoUnpaired arr x y) (p : BitVec 32 → Bool) :
    xorAll (arr.filter p) = xorAll ([x,y].filter p) := by
  apply xorAll_congr
  intro v
  cases hp : p v with
  | true =>
    rw [List.count_filter hp,List.count_filter hp]
    exact h.count_mod v
  | false =>
    have hnot : ∀ l : List (BitVec 32), (l.filter p).count v = 0 := by
      intro l
      apply List.count_eq_zero_of_not_mem
      simp [hp]
    rw [hnot,hnot]

theorem TwoUnpaired.fold_eq {arr : List (BitVec 32)} {x y : BitVec 32} (h : TwoUnpaired arr x y) :
    arr.foldl (fun n i => n ^^^ i) 0 = x ^^^ y := by
  change xorAll arr = x ^^^ y
  rw [xorAll_congr h.count_mod]
  simp

def inFirst (m i : BitVec 32) : Bool := shiftRight i m &&& 1 ≠ 0

theorem partition_eq (m a b : BitVec 32) (arr : List (BitVec 32)) :
    arr.foldl (partitionStep m) (a,b) =
      (a ^^^ xorAll (arr.filter (inFirst m)),b ^^^ xorAll (arr.filter (fun i => !inFirst m i))) := by
  induction arr generalizing a b with
  | nil => simp
  | cons i arr ih =>
    rw [List.foldl_cons]
    cases hi : inFirst m i with
    | true =>
      have hstep : partitionStep m (a,b) i = (a ^^^ i,b) := if_pos (by simpa [inFirst] using hi)
      rw [hstep,ih]
      simp [hi,BitVec.xor_assoc]
    | false =>
      have hstep : partitionStep m (a,b) i = (a,b ^^^ i) := if_neg (by simpa [inFirst] using hi)
      rw [hstep,ih]
      simp [hi,BitVec.xor_assoc]

/-- The pair comes out right when the bit separates the two values, and otherwise
only when one of them is zero. -/
theorem isPair_partition_iff {arr : List (BitVec 32)} {x y : BitVec 32}
    (h : TwoUnpaired arr x y) (m : BitVec 32) :
    IsPair x y (arr.foldl (partitionStep m) (0,0)) ↔ inFirst m x ≠ inFirst m y ∨ x = 0 ∨ y = 0 := by
  rw [partition_eq,h.xorAll_filter,h.xorAll_filter]
  have hleft : x ^^^ y = x ↔ y = 0 := by
    constructor
    · intro he
      have hc := congrArg (fun v => x ^^^ v) he
      simpa [← BitVec.xor_assoc] using hc
    · rintro rfl
      simp
  have hright : x ^^^ y = y ↔ x = 0 := by
    constructor
    · intro he
      have hc := congrArg (fun v => v ^^^ y) he
      simpa [BitVec.xor_assoc] using hc
    · rintro rfl
      simp
  cases hx : inFirst m x <;> cases hy : inFirst m y <;>
    simp [IsPair,hx,hy,hleft,hright] <;> tauto

theorem inFirst_eq {m : BitVec 32} {k : ℕ} (hk : k < 32) (hm : m = BitVec.ofNat 32 k)
    (i : BitVec 32) : inFirst m i = i.getLsbD k := by
  have hmod : m.toNat % 32 = k := by
    rw [hm,BitVec.toNat_ofNat]
    omega
  have hbit : (i.sshiftRight k).getLsbD 0 = i.getLsbD k := by
    rw [BitVec.getLsbD_sshiftRight]
    simp [hk]
  apply Bool.eq_iff_iff.mpr
  rw [← hbit]
  simpa [inFirst,shiftRight,hmod] using and_one_ne_zero (i.sshiftRight k)

/-! ## The choice of the bit -/

theorem xor_ne_zero {x y : BitVec 32} (h : x ≠ y) : x ^^^ y ≠ 0 :=
  fun hz => h (BitVec.xor_eq_zero_iff.mp hz)

variable {M}

/-- The chosen bit is set in `n`, except when `n` is the sign bit alone: its
logarithm is not a number and bit 0 is taken in its place. -/
theorem chooseBit_spec (hM : M.Documented) {n : BitVec 32} (hn : n ≠ 0) :
    ∃ k < 32, chooseBit M n = BitVec.ofNat 32 k ∧
      (n.getLsbD k = true ↔ n ≠ BitVec.intMin 32) := by
  obtain ⟨k,hk,hlow,hbit,hbelow⟩ := xor_and_sub_one hn
  have hmask := and_one_ne_zero n
  by_cases hzero : k = 0
  · subst k
    have hif : ¬ (n &&& 1 = 0) := hmask.mpr hbit
    refine ⟨0,by omega,by simp only [chooseBit,if_neg hif]; rfl,?_⟩
    have hne : n ≠ BitVec.intMin 32 := by
      rintro rfl
      exact absurd hbit (by decide)
    simp only [hbit,true_iff]
    exact hne
  · have hfirst : n.getLsbD 0 = false := hbelow 0 (by omega)
    have hif : n &&& 1 = 0 := by
      by_contra hc
      rw [hmask.mp hc] at hfirst
      contradiction
    by_cases hsign : k = 31
    · subst k
      have hneg : (BitVec.twoPow 32 31).toInt < 0 := by decide
      refine ⟨0,by omega,?_,?_⟩
      · simp only [chooseBit,if_pos hif]
        rw [hlow,hM.log_negative _ hneg,hM.nan_div,hM.toInt_nan]
        rfl
      · have heq : n = BitVec.intMin 32 := by
          apply BitVec.eq_of_getLsbD_eq
          intro j hj
          by_cases hj' : j = 31
          · subst j
            rw [hbit]
            decide
          · rw [hbelow j (by omega),BitVec.getLsbD_intMin]
            simp
            omega
        rw [hfirst]
        simp [heq]
    · refine ⟨k,hk,?_,?_⟩
      · simp only [chooseBit,if_pos hif]
        rw [hlow]
        exact hM.log_two_pow k (by omega) (by omega)
      · have hne : n ≠ BitVec.intMin 32 := by
          rintro rfl
          rw [BitVec.getLsbD_intMin] at hbit
          simp at hbit
          omega
        simp only [hbit,true_iff]
        exact hne

/-- The program prints the two unpaired values unless they differ in the sign bit
only and neither of them is zero. -/
theorem main_isPair_iff (hM : M.Documented) {arr : List (BitVec 32)} {x y : BitVec 32}
    (h : TwoUnpaired arr x y) :
    IsPair x y (main M arr) ↔ x ^^^ y ≠ BitVec.intMin 32 ∨ x = 0 ∨ y = 0 := by
  obtain ⟨k,hk,hchoose,hbit⟩ := chooseBit_spec hM (xor_ne_zero h.1)
  have hmain : main M arr = arr.foldl (partitionStep (chooseBit M (x ^^^ y))) (0,0) := by
    rw [main,h.fold_eq]
  have hsep : inFirst (chooseBit M (x ^^^ y)) x ≠ inFirst (chooseBit M (x ^^^ y)) y ↔
      (x ^^^ y).getLsbD k = true := by
    rw [inFirst_eq hk hchoose,inFirst_eq hk hchoose,BitVec.getLsbD_xor]
    simp
  rw [hmain,isPair_partition_iff h,hsep,hbit]

/-! ## A concrete instance -/

/-- Integers, integer multiples of `ln 2` and NaN: the values that the logarithms
of powers of two need. -/
inductive LogDouble
  | nan
  | int (z : ℤ)
  | lnTwo (k : ℤ)
  deriving DecidableEq

def LogDouble.log : LogDouble → LogDouble
  | .int z => if z < 0 then .nan else .lnTwo (Nat.log2 z.toNat)
  | _ => .nan

def LogDouble.div : LogDouble → LogDouble → LogDouble
  | .int a, .int b => .int (a / b)
  | .lnTwo a, .lnTwo b => .int (a / b)
  | _, _ => .nan

def LogDouble.toInt : LogDouble → BitVec 32
  | .int z => BitVec.ofInt 32 z
  | _ => 0

def logMath : JavaMath where
  Double := LogDouble
  NaN := .nan
  two := .int 2
  ofInt := fun v => .int v.toInt
  log := LogDouble.log
  div := LogDouble.div
  toInt := LogDouble.toInt

theorem logMath_documented : logMath.Documented where
  log_two_pow := by
    intro k h1 h30
    interval_cases k <;> decide
  log_negative := by
    intro v hv
    simp [logMath,LogDouble.log,hv]
  nan_div := by
    intro d
    cases d <;> rfl
  toInt_nan := rfl

theorem main_isPair_seven_two_six :
    IsPair 2 6 (main logMath [7,7,2,6]) :=
  (main_isPair_iff logMath_documented
    (twoUnpaired_of_mem (by decide) (by decide) (by decide) (by decide))).mpr (Or.inl (by decide))

/-- `1` and `-2147483647` differ in the sign bit only: the output is their
exclusive or and zero. -/
theorem main_sign_bit_not_isPair :
    TwoUnpaired [1,-2147483647] 1 (-2147483647) ∧
      main logMath [1,-2147483647] = (BitVec.intMin 32,0) ∧
      ¬ IsPair 1 (-2147483647) (main logMath [1,-2147483647]) := by
  refine ⟨twoUnpaired_of_mem (by decide) (by decide) (by decide) (by decide),?_,?_⟩
  · decide
  · decide

end SunshineService.UnpairedNumbers
