import Mathlib.Data.List.Infix
import Mathlib.Tactic.Common

/-! # Finite runs of a partial labelled transition function

`step s a = none` means that action `a` cannot happen in state `s`. A run is the
list of its actions. Besides the invariant rule there is an exactness rule: it
compares "every visited state is safe" with "every step taken meets a condition"
when a single bad step is already enough to lose safety.
-/
namespace SunshineService.TransitionRun
variable {S A : Type*} {step : S → A → Option S}

def run (step : S → A → Option S) (s : S) : List A → Option S
  | [] => some s
  | a :: as => (step s a).bind (fun t => run step t as)

@[simp] theorem run_nil (s : S) : run step s [] = some s := rfl

@[simp] theorem run_cons (s : S) (a : A) (as : List A) :
    run step s (a :: as) = (step s a).bind (fun t => run step t as) := rfl

theorem run_append (s : S) (as bs : List A) :
    run step s (as ++ bs) = (run step s as).bind (fun t => run step t bs) := by
  induction as generalizing s with
  | nil => rfl
  | cons a as ih =>
    rw [List.cons_append,run_cons,run_cons,Option.bind_assoc]
    exact congrArg _ (funext ih)

def Reachable (step : S → A → Option S) (s t : S) : Prop := ∃ as, run step s as = some t

theorem Reachable.refl (s : S) : Reachable step s s := ⟨[],rfl⟩

theorem Reachable.tail {s t u : S} {a : A} (h : Reachable step s t) (ha : step t a = some u) :
    Reachable step s u := by
  obtain ⟨as,hr⟩ := h
  refine ⟨as ++ [a],?_⟩
  rw [run_append,hr,Option.bind_some,run_cons,ha]
  rfl

theorem Reachable.single {s t : S} {a : A} (ha : step s a = some t) : Reachable step s t :=
  (Reachable.refl s).tail ha

theorem Reachable.trans {s t u : S} (h : Reachable step s t) (h' : Reachable step t u) :
    Reachable step s u := by
  obtain ⟨as,has⟩ := h
  obtain ⟨bs,hbs⟩ := h'
  exact ⟨as ++ bs,by rw [run_append,has,Option.bind_some,hbs]⟩

/-- What every step preserves holds at the end of every run. -/
theorem run_invariant {P : S → Prop} (hstep : ∀ s a t, P s → step s a = some t → P t)
    {s t : S} {as : List A} (hs : P s) (hr : run step s as = some t) : P t := by
  induction as generalizing s with
  | nil =>
    cases hr
    exact hs
  | cons a as ih =>
    obtain ⟨u,hu,hr⟩ := Option.bind_eq_some_iff.mp hr
    exact ih (hstep s a u hs hu) hr

theorem Reachable.invariant {P : S → Prop} (hstep : ∀ s a t, P s → step s a = some t → P t)
    {s t : S} (hs : P s) (hr : Reachable step s t) : P t := by
  obtain ⟨as,hr⟩ := hr
  exact run_invariant hstep hs hr

/-- What each step preserves of a run and the state it has led to. -/
theorem run_history {P : List A → S → Prop} {s t : S} {as : List A} (hs : P [] s)
    (hstep : ∀ as t a u, run step s as = some t → P as t → step t a = some u → P (as ++ [a]) u)
    (hr : run step s as = some t) : P as t := by
  induction as using List.reverseRecOn generalizing t with
  | nil =>
    cases hr
    exact hs
  | append_singleton as a ih =>
    rw [run_append] at hr
    obtain ⟨u,hu,hr⟩ := Option.bind_eq_some_iff.mp hr
    obtain ⟨v,hv,hnil⟩ := Option.bind_eq_some_iff.mp hr
    cases hnil
    exact hstep as u a _ hu (ih hu) hv

/-- `P` holds of every state that the run visits, its first and last included. -/
def Throughout (step : S → A → Option S) (P : S → Prop) (s : S) (as : List A) : Prop :=
  ∀ pre t, pre <+: as → run step s pre = some t → P t

/-- `Q` holds of every action of the run and the state in which it is taken. -/
def EachStep (step : S → A → Option S) (Q : S → A → Prop) (s : S) (as : List A) : Prop :=
  ∀ pre a t, pre ++ [a] <+: as → run step s pre = some t → Q t a

theorem throughout_nil {P : S → Prop} {s : S} : Throughout step P s [] ↔ P s := by
  constructor
  · intro h
    exact h [] s List.prefix_rfl rfl
  · intro h pre t hp hr
    obtain rfl := List.prefix_nil.mp hp
    cases hr
    exact h

theorem throughout_cons {P : S → Prop} {s t : S} {a : A} {as : List A}
    (ha : step s a = some t) :
    Throughout step P s (a :: as) ↔ P s ∧ Throughout step P t as := by
  constructor
  · intro h
    refine ⟨h [] s (List.nil_prefix) rfl,?_⟩
    intro pre u hp hr
    exact h (a :: pre) u (List.cons_prefix_cons.mpr ⟨rfl,hp⟩) (by simpa [ha] using hr)
  · rintro ⟨hs,h⟩ pre u hp hr
    cases pre with
    | nil =>
      cases hr
      exact hs
    | cons b pre =>
      obtain ⟨rfl,htail⟩ := List.cons_prefix_cons.mp hp
      exact h pre u htail (by simpa [ha] using hr)

theorem eachStep_nil {Q : S → A → Prop} {s : S} : EachStep step Q s [] := by
  intro pre a t hp
  simpa using hp.length_le

theorem eachStep_cons {Q : S → A → Prop} {s t : S} {a : A} {as : List A}
    (ha : step s a = some t) :
    EachStep step Q s (a :: as) ↔ Q s a ∧ EachStep step Q t as := by
  constructor
  · intro h
    refine ⟨h [] a s (List.cons_prefix_cons.mpr ⟨rfl,List.nil_prefix⟩) rfl,?_⟩
    intro pre b u hp hr
    exact h (a :: pre) b u (List.cons_prefix_cons.mpr ⟨rfl,hp⟩) (by simpa [ha] using hr)
  · rintro ⟨hs,h⟩ pre b u hp hr
    cases pre with
    | nil =>
      obtain ⟨rfl,_⟩ := List.cons_prefix_cons.mp hp
      cases hr
      exact hs
    | cons c pre =>
      obtain ⟨rfl,htail⟩ := List.cons_prefix_cons.mp hp
      exact h pre b u htail (by simpa [ha] using hr)

theorem eachStep_cons_none {Q : S → A → Prop} {s : S} {a : A} {as : List A} (ha : step s a = none) :
    EachStep step Q s (a :: as) ↔ Q s a := by
  constructor
  · intro h
    exact h [] a s (List.cons_prefix_cons.mpr ⟨rfl,List.nil_prefix⟩) rfl
  · intro hq pre b u hp hr
    cases pre with
    | nil =>
      obtain ⟨rfl,_⟩ := List.cons_prefix_cons.mp hp
      cases hr
      exact hq
    | cons c pre =>
      obtain ⟨rfl,_⟩ := List.cons_prefix_cons.mp hp
      simp [ha] at hr

/-- The steps of a given run can be checked one after the other. -/
instance decidableEachStep {Q : S → A → Prop} [∀ s a, Decidable (Q s a)] :
    ∀ (s : S) (as : List A), Decidable (EachStep step Q s as)
  | _, [] => isTrue eachStep_nil
  | s, a :: as =>
    match ha : step s a with
    | none => decidable_of_iff _ (eachStep_cons_none ha).symm
    | some t =>
      have : Decidable (EachStep step Q t as) := decidableEachStep t as
      decidable_of_iff _ (eachStep_cons ha).symm

theorem eachStep_of_step {Q : S → A → Prop} (hq : ∀ s a t, step s a = some t → Q s a)
    {s u : S} {as : List A} (hr : run step s as = some u) : EachStep step Q s as := by
  induction as generalizing s with
  | nil => exact eachStep_nil
  | cons a as ih =>
    obtain ⟨t,ht,hr⟩ := Option.bind_eq_some_iff.mp hr
    exact (eachStep_cons ht).mpr ⟨hq s a t ht,ih hr⟩

theorem eachStep_action_iff {C : A → Prop} {s u : S} {as : List A} (hr : run step s as = some u) :
    EachStep step (fun _ a => C a) s as ↔ ∀ a ∈ as, C a := by
  induction as generalizing s with
  | nil => exact ⟨fun _ => by simp,fun _ => eachStep_nil⟩
  | cons a as ih =>
    obtain ⟨t,ht,hr⟩ := Option.bind_eq_some_iff.mp hr
    rw [eachStep_cons ht,ih hr,List.forall_mem_cons]

/-- Exactness rule: good states are safe, a step that meets the condition stays
good and any other step leaves safety, so a run is safe throughout precisely when
each of its steps meets the condition. -/
theorem throughout_iff_eachStep {Good P : S → Prop} {Q : S → A → Prop}
    (hsafe : ∀ s, Good s → P s)
    (hkeep : ∀ s a t, Good s → step s a = some t → Q s a → Good t)
    (hbreak : ∀ s a t, Good s → step s a = some t → ¬ Q s a → ¬ P t)
    {s u : S} {as : List A} (hs : Good s) (hr : run step s as = some u) :
    Throughout step P s as ↔ EachStep step Q s as := by
  induction as generalizing s with
  | nil => exact ⟨fun _ => eachStep_nil,fun _ => throughout_nil.mpr (hsafe s hs)⟩
  | cons a as ih =>
    obtain ⟨t,ht,hr⟩ := Option.bind_eq_some_iff.mp hr
    rw [throughout_cons ht,eachStep_cons ht]
    by_cases hq : Q s a
    · have hiff := ih (hkeep s a t hs ht hq) hr
      exact ⟨fun h => ⟨hq,hiff.mp h.2⟩,fun h => ⟨hsafe s hs,hiff.mpr h.2⟩⟩
    · have ht' : ¬ P t := hbreak s a t hs ht hq
      exact ⟨fun h => absurd (h.2 [] t List.nil_prefix rfl) ht',fun h => absurd h.1 hq⟩

/-! ## Simulation -/

section Simulation
variable {S' A' : Type*} {step' : S' → A' → Option S'} {forget : A → Option A'}
  {R : S → S' → Prop}

/-- Related states stay related when the second system follows the first one's step with
the step that `forget` makes of it, or stays where it is. -/
def Simulation (step : S → A → Option S) (step' : S' → A' → Option S') (forget : A → Option A')
    (R : S → S' → Prop) : Prop :=
  ∀ s s' a t, R s s' → step s a = some t →
    ∃ t', run step' s' (forget a).toList = some t' ∧ R t t'

theorem Simulation.none_step (h : Simulation step step' forget R) {s t : S} {s' : S'} {a : A}
    (hr : R s s') (ht : step s a = some t) (ha : forget a = none) : R t s' := by
  obtain ⟨t',hrun,ht'⟩ := h s s' a t hr ht
  rw [ha] at hrun
  cases hrun
  exact ht'

theorem Simulation.some_step (h : Simulation step step' forget R) {s t : S} {s' : S'} {a : A} {b : A'}
    (hr : R s s') (ht : step s a = some t) (ha : forget a = some b) :
    ∃ t', step' s' b = some t' ∧ R t t' := by
  obtain ⟨t',hrun,ht'⟩ := h s s' a t hr ht
  rw [ha,Option.toList_some,run_cons] at hrun
  obtain ⟨u,hu,hnil⟩ := Option.bind_eq_some_iff.mp hrun
  cases hnil
  exact ⟨t',hu,ht'⟩

theorem Simulation.run (h : Simulation step step' forget R) {s t : S} {s' : S'} {as : List A}
    (hr : R s s') (hrun : run step s as = some t) :
    ∃ t', TransitionRun.run step' s' (as.filterMap forget) = some t' ∧ R t t' := by
  induction as generalizing s s' with
  | nil =>
    cases hrun
    exact ⟨s',rfl,hr⟩
  | cons a as ih =>
    obtain ⟨u,hu,hrun⟩ := Option.bind_eq_some_iff.mp hrun
    cases ha : forget a with
    | none =>
      rw [List.filterMap_cons_none ha]
      exact ih (h.none_step hr hu ha) hrun
    | some b =>
      obtain ⟨u',hu',hru⟩ := h.some_step hr hu ha
      obtain ⟨t',ht',hrt⟩ := ih hru hrun
      refine ⟨t',?_,hrt⟩
      rw [List.filterMap_cons_some ha,run_cons,hu']
      exact ht'

theorem Simulation.reachable (h : Simulation step step' forget R) {s t : S} {s' : S'}
    (hr : R s s') (hreach : Reachable step s t) : ∃ t', Reachable step' s' t' ∧ R t t' := by
  obtain ⟨as,hrun⟩ := hreach
  obtain ⟨t',ht',hrt⟩ := h.run hr hrun
  exact ⟨t',⟨_,ht'⟩,hrt⟩

/-- What related states have in common holds throughout both runs or in neither. -/
theorem Simulation.throughout_iff (h : Simulation step step' forget R) {P : S → Prop} {P' : S' → Prop}
    (hP : ∀ s s', R s s' → (P s ↔ P' s')) {s t : S} {s' : S'} {as : List A} (hr : R s s')
    (hrun : TransitionRun.run step s as = some t) :
    Throughout step P s as ↔ Throughout step' P' s' (as.filterMap forget) := by
  induction as generalizing s s' with
  | nil =>
    rw [List.filterMap_nil,throughout_nil,throughout_nil]
    exact hP s s' hr
  | cons a as ih =>
    obtain ⟨u,hu,hrun⟩ := Option.bind_eq_some_iff.mp hrun
    rw [throughout_cons hu,hP s s' hr]
    cases ha : forget a with
    | none =>
      rw [List.filterMap_cons_none ha,ih (h.none_step hr hu ha) hrun]
      exact ⟨fun hboth => hboth.2,fun hrest => ⟨hrest [] s' List.nil_prefix rfl,hrest⟩⟩
    | some b =>
      obtain ⟨u',hu',hru⟩ := h.some_step hr hu ha
      rw [List.filterMap_cons_some ha,throughout_cons hu',ih hru hrun]

theorem Simulation.eachStep_iff (h : Simulation step step' forget R) {Q : S → A → Prop}
    {Q' : S' → A' → Prop} (hQ : ∀ s s' a, R s s' → (Q s a ↔ ∀ b ∈ forget a, Q' s' b)) {s t : S} {s' : S'}
    {as : List A} (hr : R s s') (hrun : TransitionRun.run step s as = some t) :
    EachStep step Q s as ↔ EachStep step' Q' s' (as.filterMap forget) := by
  induction as generalizing s s' with
  | nil => exact ⟨fun _ => eachStep_nil,fun _ => eachStep_nil⟩
  | cons a as ih =>
    obtain ⟨u,hu,hrun⟩ := Option.bind_eq_some_iff.mp hrun
    rw [eachStep_cons hu,hQ s s' a hr]
    cases ha : forget a with
    | none =>
      rw [List.filterMap_cons_none ha,ih (h.none_step hr hu ha) hrun]
      simp
    | some b =>
      obtain ⟨u',hu',hru⟩ := h.some_step hr hu ha
      rw [List.filterMap_cons_some ha,eachStep_cons hu',ih hru hrun]
      simp

end Simulation

end SunshineService.TransitionRun
