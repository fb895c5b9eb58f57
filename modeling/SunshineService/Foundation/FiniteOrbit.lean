import Mathlib.Combinatorics.Pigeonhole
import Mathlib.Tactic.Common

/-! # Partial steps between finitely many places

Who makes as many steps as there are places has been in one of them twice, and so goes
round for ever.
-/
namespace SunshineService.FiniteOrbit
variable {α : Type*} {f : α → Option α} {S : Finset α}

def steps (f : α → Option α) : ℕ → α → Option α
  | 0, a => some a
  | n + 1, a => (f a).bind (steps f n)

theorem steps_add (m n : ℕ) (a : α) : steps f (m + n) a = (steps f m a).bind (steps f n) := by
  induction m generalizing a with
  | zero => rw [Nat.zero_add]; rfl
  | succ m ih =>
    rw [Nat.succ_add,steps,steps,Option.bind_assoc]
    exact congrArg _ (funext ih)

theorem isSome_of_le {m n : ℕ} (hmn : m ≤ n) {a : α} (h : (steps f n a).isSome) :
    (steps f m a).isSome := by
  obtain ⟨k,rfl⟩ := Nat.exists_eq_add_of_le hmn
  rw [steps_add] at h
  exact Option.isSome_of_isSome_bind h

theorem mem_of_steps (hS : ∀ a ∈ S, ∀ b, f a = some b → b ∈ S) {n : ℕ} {a b : α} (ha : a ∈ S)
    (h : steps f n a = some b) : b ∈ S := by
  induction n generalizing a with
  | zero =>
    cases h
    exact ha
  | succ n ih =>
    obtain ⟨c,hc,h⟩ := Option.bind_eq_some_iff.mp h
    exact ih (hS a ha c hc) h

/-- Two equal places on the way. -/
theorem exists_repeated (hS : ∀ a ∈ S, ∀ b, f a = some b → b ∈ S) {a : α} (ha : a ∈ S)
    (h : (steps f S.card a).isSome) :
    ∃ i j, i < j ∧ j ≤ S.card ∧ steps f i a = steps f j a := by
  have hmaps : ∀ i ∈ Finset.range (S.card + 1), (steps f i a).getD a ∈ S := by
    intro i hi
    have hle : i ≤ S.card := Nat.lt_succ_iff.mp (Finset.mem_range.mp hi)
    obtain ⟨b,hb⟩ := Option.isSome_iff_exists.mp (isSome_of_le hle h)
    rw [hb]
    exact mem_of_steps hS ha hb
  have hcard : S.card < (Finset.range (S.card + 1)).card := by
    rw [Finset.card_range]
    exact Nat.lt_succ_self _
  obtain ⟨i,hi,j,hj,hne,heq⟩ := Finset.exists_ne_map_eq_of_card_lt_of_maps_to hcard hmaps
  have hsame : ∀ i ≤ S.card, steps f i a = some ((steps f i a).getD a) := by
    intro i hle
    obtain ⟨b,hb⟩ := Option.isSome_iff_exists.mp (isSome_of_le hle h)
    rw [hb]
    rfl
  have hi := Nat.lt_succ_iff.mp (Finset.mem_range.mp hi)
  have hj := Nat.lt_succ_iff.mp (Finset.mem_range.mp hj)
  have hsteps : steps f i a = steps f j a := by rw [hsame i hi,hsame j hj,heq]
  rcases Nat.lt_or_gt_of_ne hne with hlt | hlt
  · exact ⟨i,j,hlt,hj,hsteps⟩
  · exact ⟨j,i,hlt,hi,hsteps.symm⟩

theorem steps_forever (hS : ∀ a ∈ S, ∀ b, f a = some b → b ∈ S) {a : α} (ha : a ∈ S)
    (h : (steps f S.card a).isSome) (n : ℕ) : (steps f n a).isSome := by
  obtain ⟨i,j,hij,hj,heq⟩ := exists_repeated hS ha h
  induction n using Nat.strong_induction_on with
  | _ n ih =>
    rcases Nat.lt_or_ge n j with hlt | hge
    · exact isSome_of_le (hlt.le.trans hj) h
    · -- the steps behind the second visit are those behind the first
      obtain ⟨k,rfl⟩ := Nat.exists_eq_add_of_le hge
      rw [steps_add,← heq,← steps_add]
      exact ih (i + k) (by omega)

end SunshineService.FiniteOrbit
