import SunshineService.Foundation.TransitionRun

/-! # Components that take their steps in any order

The system is a list of components of one kind. A new one may begin at any time and any
of them may take the next step. Each component only ever sees its own steps, so its state
is the one that its own run leads to, whatever the others did in between.
-/
namespace SunshineService.Interleaving
open TransitionRun
variable {C B : Type*} {component : C → B → Option C} {c₀ : C}

inductive Action (B : Type*)
  | spawn
  | act (i : ℕ) (b : B)
  deriving DecidableEq

def step (component : C → B → Option C) (c₀ : C) (cs : List C) : Action B → Option (List C)
  | .spawn => some (cs ++ [c₀])
  | .act i b => (cs[i]?).bind (fun c => (component c b).map (fun d => cs.set i d))

def Action.of (i : ℕ) : Action B → Option B
  | .spawn => none
  | .act j b => if j = i then some b else none

/-- What the component at `i` did in a run of the system. -/
def own (i : ℕ) (as : List (Action B)) : List B := as.filterMap (Action.of i)

def spawned (as : List (Action B)) : ℕ :=
  as.countP (fun a => match a with
    | .spawn => true
    | .act _ _ => false)

theorem own_append_singleton (i : ℕ) (as : List (Action B)) (a : Action B) :
    own i (as ++ [a]) = own i as ++ (a.of i).toList := by
  rw [own,List.filterMap_append,List.filterMap_cons,List.filterMap_nil]
  cases a.of i <;> rfl

/-- A component that has not begun has done nothing. -/
theorem own_eq_nil {as : List (Action B)} {cs : List C}
    (hr : run (step component c₀) [] as = some cs) {i : ℕ} (hi : cs.length ≤ i) : own i as = [] := by
  induction as using List.reverseRecOn generalizing cs with
  | nil => rfl
  | append_singleton as a ih =>
    rw [run_append] at hr
    obtain ⟨ds,hds,hr⟩ := Option.bind_eq_some_iff.mp hr
    obtain ⟨es,hes,hnil⟩ := Option.bind_eq_some_iff.mp hr
    cases hnil
    rw [own_append_singleton]
    cases a with
    | spawn =>
      cases hes
      rw [List.length_append,List.length_singleton] at hi
      rw [ih hds (by omega)]
      rfl
    | act j b =>
      obtain ⟨c,hc,hes⟩ := Option.bind_eq_some_iff.mp hes
      obtain ⟨d,hd,rfl⟩ := Option.map_eq_some_iff.mp hes
      rw [List.length_set] at hi
      have hj := (List.getElem?_eq_some_iff.mp hc).1
      rw [ih hds hi,Action.of,if_neg (by omega)]
      rfl

/-- The state of each component is where its own steps lead. -/
theorem run_own {as : List (Action B)} {cs : List C} (hr : run (step component c₀) [] as = some cs) :
    cs.length = spawned as ∧ ∀ i c, cs[i]? = some c → run component c₀ (own i as) = some c := by
  induction as using List.reverseRecOn generalizing cs with
  | nil =>
    cases hr
    exact ⟨rfl,by simp⟩
  | append_singleton as a ih =>
    rw [run_append] at hr
    obtain ⟨ds,hds,hr⟩ := Option.bind_eq_some_iff.mp hr
    obtain ⟨es,hes,hnil⟩ := Option.bind_eq_some_iff.mp hr
    cases hnil
    obtain ⟨hlength,hown⟩ := ih hds
    have hspawned : spawned (as ++ [a]) = spawned as + spawned [a] := List.countP_append
    rw [hspawned]
    cases a with
    | spawn =>
      cases hes
      refine ⟨by rw [List.length_append,hlength]; rfl,?_⟩
      intro i c hc
      rw [own_append_singleton,Action.of,Option.toList_none,List.append_nil]
      rcases Nat.lt_or_ge i ds.length with hi | hi
      · rw [List.getElem?_append_left hi] at hc
        exact hown i c hc
      · rw [own_eq_nil hds hi]
        rw [List.getElem?_append_right hi,List.getElem?_singleton] at hc
        split at hc
        · exact hc
        · contradiction
    | act j b =>
      obtain ⟨c,hc,hes⟩ := Option.bind_eq_some_iff.mp hes
      obtain ⟨d,hd,rfl⟩ := Option.map_eq_some_iff.mp hes
      refine ⟨by rw [List.length_set,hlength]; rfl,?_⟩
      intro i e he
      rw [own_append_singleton,Action.of]
      by_cases hij : j = i
      · subst hij
        have hlt := (List.getElem?_eq_some_iff.mp hc).1
        rw [List.getElem?_set_self hlt] at he
        cases he
        rw [if_pos rfl,Option.toList_some,run_append,hown j c hc,Option.bind_some,run_cons,hd]
        rfl
      · rw [List.getElem?_set_ne hij] at he
        rw [if_neg hij,Option.toList_none,List.append_nil]
        exact hown i e he

/-- What the steps of a component preserve holds of all of them. -/
theorem forall_of_run {P : C → Prop} (hstep : ∀ c b d, P c → component c b = some d → P d) (h₀ : P c₀)
    {as : List (Action B)} {cs : List C} (hr : run (step component c₀) [] as = some cs) :
    ∀ c ∈ cs, P c := by
  intro c hc
  obtain ⟨i,hi⟩ := List.mem_iff_getElem?.mp hc
  exact run_invariant hstep h₀ ((run_own hr).2 i c hi)

/-- A component can go on by itself, and the others stay where they are. -/
theorem run_act {i : ℕ} {cs : List C} {c d : C} {bs : List B} (hc : cs[i]? = some c)
    (hr : run component c bs = some d) :
    run (step component c₀) cs (bs.map (.act i)) = some (cs.set i d) := by
  induction bs generalizing cs c with
  | nil =>
    cases hr
    obtain ⟨hlt,rfl⟩ := List.getElem?_eq_some_iff.mp hc
    rw [List.set_getElem_self]
    rfl
  | cons b bs ih =>
    obtain ⟨e,he,hr⟩ := Option.bind_eq_some_iff.mp hr
    have hlt := (List.getElem?_eq_some_iff.mp hc).1
    have hstep : step component c₀ cs (.act i b) = some (cs.set i e) := by
      rw [step,hc,Option.bind_some,he,Option.map_some]
    rw [List.map_cons,run_cons,hstep,Option.bind_some,ih (List.getElem?_set_self hlt) hr,List.set_set]

end SunshineService.Interleaving
