import SunshineService.Foundation.CriticalSection
import Mathlib.Algebra.Order.BigOperators.Group.Finset
import Mathlib.Algebra.BigOperators.Fin

/-! # Threads come to an end or wait for ever

Every step but a wake-up for no reason takes something off what is still to be done, so
the threads come to a stop. Where no thread can go on, each one that is not at its end
waits for a notify that nobody is left to make.
-/
namespace SunshineService.Monitor
open TransitionRun
variable {ι ω : Type*} [DecidableEq ι]

def starts : List (Instr ι ω) → List ι :=
  List.filterMap (fun instr => match instr with
    | .start j => some j
    | _ => none)

/-- The threads that have not begun are those that `main` still has to start, and `main`
itself never waits. -/
structure Startable (main : ι) (s : State ι ω) : Prop where
  running : (s.threads main).status = .running
  no_wait : .wait ∉ s.code main
  fresh_iff : ∀ j, (s.threads j).status = .fresh ↔ j ∈ starts (s.code main)
  nodup : (starts (s.code main)).Nodup
  others : ∀ i ≠ main, starts (s.code i) = []

theorem fresh_put {threads : ι → Thread ι ω} {i : ι} {rest : List (Instr ι ω)} {status : Status}
    (hold : (threads i).status ≠ .fresh) (hnew : status ≠ .fresh) (k : ι) :
    (put threads i rest status k).status = .fresh ↔ (threads k).status = .fresh := by
  rcases eq_or_ne k i with rfl | hk
  · rw [put_self]
    exact ⟨fun h => absurd h hnew,fun h => absurd h hold⟩
  · rw [put_of_ne hk]

theorem starts_put {threads : ι → Thread ι ω} {i : ι} {rest : List (Instr ι ω)} {status : Status}
    (h : starts rest = starts (threads i).code) (k : ι) :
    starts (put threads i rest status k).code = starts (threads k).code := by
  rcases eq_or_ne k i with rfl | hk
  · rw [put_self,h]
  · rw [put_of_ne hk]

/-- One step starts a thread, or it starts nobody. -/
theorem starts_of_moves {s t : State ι ω} {a : Action ι} (h : Moves s a t) :
    (∃ i j rest, s.code i = .start j :: rest ∧ t.code = Function.update s.code i rest ∧
      (t.threads j).status = .running ∧
      ∀ k, (t.threads k).status = .fresh ↔ k ≠ j ∧ (s.threads k).status = .fresh) ∨
    ((∀ k, starts (t.code k) = starts (s.code k)) ∧
      ∀ k, (t.threads k).status = .fresh ↔ (s.threads k).status = .fresh) := by
  cases h with
  | @start i j rest hi hj =>
    refine Or.inl ⟨i,j,rest,congrArg Thread.code hi,(setStatus_code ..).trans (put_code ..),
      congrArg Thread.status (put_self ..),?_⟩
    intro k
    have hput : (put s.threads i rest .running k).status = .fresh ↔ (s.threads k).status = .fresh :=
      fresh_put (by simp [hi]) (by simp) k
    rcases eq_or_ne k j with rfl | hk
    · simp [setStatus,put_self]
    · rw [← hput]
      simp [setStatus,put_of_ne hk,hk]
  | @enter i rest hi ho =>
    exact Or.inr ⟨starts_put (by simp [hi,starts]),fresh_put (by simp [hi]) (by simp)⟩
  | @exit i rest hi ho =>
    exact Or.inr ⟨starts_put (by simp [hi,starts]),fresh_put (by simp [hi]) (by simp)⟩
  | @wait i rest hi ho =>
    exact Or.inr ⟨starts_put (by simp [hi,starts]),fresh_put (by simp [hi]) (by simp)⟩
  | @print i line rest hi =>
    exact Or.inr ⟨starts_put (by simp [hi,starts]),fresh_put (by simp [hi]) (by simp)⟩
  | @pause i rest hi =>
    exact Or.inr ⟨starts_put (by simp [hi,starts]),fresh_put (by simp [hi]) (by simp)⟩
  | @resume i code hi ho =>
    exact Or.inr ⟨starts_put (by simp [hi]),fresh_put (by simp [hi]) (by simp)⟩
  | @notifyOne i j rest hi ho hj =>
    have hset : ∀ k, (setStatus s.threads j .notified k).status = .fresh ↔
        (s.threads k).status = .fresh := fresh_put (by simp [hj]) (by simp)
    have hne : i ≠ j := by
      rintro rfl
      rw [hi] at hj
      contradiction
    have hi' : setStatus s.threads j .notified i = ⟨.notify :: rest,.running⟩ :=
      (put_of_ne hne).trans hi
    refine Or.inr ⟨fun k => ?_,fun k => (fresh_put (by simp [hi']) (by simp) k).trans (hset k)⟩
    exact (starts_put (by simp [hi',starts]) k).trans
      (congrArg starts (congrFun (setStatus_code s.threads j .notified) k))
  | @notifyNone i rest hi ho hall =>
    exact Or.inr ⟨starts_put (by simp [hi,starts]),fresh_put (by simp [hi]) (by simp)⟩
  | @wake j hj => exact Or.inr ⟨starts_put rfl,fresh_put (by simp [hj]) (by simp)⟩

/-- Only a wait stops a thread that runs. -/
theorem running_of_moves {s t : State ι ω} {a : Action ι} {k : ι} (h : Moves s a t)
    (hk : (s.threads k).status = .running) (hwait : .wait ∉ s.code k) :
    (t.threads k).status = .running := by
  have hbecame := became_of_moves h k
  rw [State.code] at hwait
  generalize s.threads k = x at *
  generalize t.threads k = y at *
  cases hbecame with
  | same => exact hk
  | pops _ _ => rfl
  | waits rest => simp at hwait
  | starts code => rfl
  | wakes code _ => contradiction
  | resumes code => rfl

/-- The thread does not wait, it has not been woken, and it will not wait. -/
structure Awake (s : State ι ω) (k : ι) : Prop where
  no_wait : .wait ∉ s.code k
  status : (s.threads k).status = .fresh ∨ (s.threads k).status = .running

theorem awake_of_moves {s t : State ι ω} {a : Action ι} {k : ι} (hs : Awake s k) (h : Moves s a t) :
    Awake t k := by
  refine ⟨fun hmem => hs.no_wait ((suffix_of_moves h _).subset hmem),?_⟩
  rcases hs.status with hfresh | hrunning
  · rcases starts_of_moves h with ⟨i,j,rest,_,_,hj,hiff⟩ | ⟨_,hiff⟩
    · rcases eq_or_ne k j with rfl | hne
      · exact Or.inr hj
      · exact Or.inl ((hiff k).mpr ⟨hne,hfresh⟩)
    · exact Or.inl ((hiff k).mpr hfresh)
  · exact Or.inr (running_of_moves h hrunning hs.no_wait)

theorem startable_of_moves {main : ι} {s t : State ι ω} {a : Action ι} (hs : Startable main s)
    (h : Moves s a t) : Startable main t := by
  have hrunning := running_of_moves h hs.running hs.no_wait
  have hwait : .wait ∉ t.code main := fun hmem => hs.no_wait ((suffix_of_moves h _).subset hmem)
  rcases starts_of_moves h with ⟨i,j,rest,hi,hcode,_,hfresh⟩ | ⟨hstarts,hfresh⟩
  · have hmain : i = main := by
      by_contra hne
      have hnone := hs.others i hne
      simp [hi,starts] at hnone
    subst hmain
    have hcons : starts (s.code i) = j :: starts rest := by simp [hi,starts]
    have hrest : starts (t.code i) = starts rest := by rw [hcode,Function.update_self]
    have hnodup := List.nodup_cons.mp (hcons ▸ hs.nodup)
    refine ⟨hrunning,hwait,fun k => ?_,hrest ▸ hnodup.2,fun k hk => ?_⟩
    · rw [hfresh,hs.fresh_iff,hcons,hrest,List.mem_cons]
      constructor
      · rintro ⟨hk,rfl | hmem⟩
        · contradiction
        · exact hmem
      · intro hmem
        exact ⟨fun hk => hnodup.1 (hk ▸ hmem),Or.inr hmem⟩
    · rw [hcode,Function.update_of_ne hk]
      exact hs.others k hk
  · refine ⟨hrunning,hwait,fun k => ?_,?_,fun k hk => ?_⟩
    · rw [hfresh,hs.fresh_iff,hstarts]
    · rw [hstarts]
      exact hs.nodup
    · rw [hstarts]
      exact hs.others k hk

variable [Fintype ι]

theorem startable_of_reachable {main : ι} {program : ι → List (Instr ι ω)} {s : State ι ω}
    (hwait : .wait ∉ program main) (hmain : ∀ j, j ≠ main ↔ j ∈ starts (program main))
    (hnodup : (starts (program main)).Nodup) (hothers : ∀ i ≠ main, starts (program i) = [])
    (h : Reachable step (init program main) s) : Startable main s := by
  refine h.invariant (fun _ _ _ hs ht => startable_of_moves hs (moves_of_step ht)) ?_
  refine ⟨if_pos rfl,hwait,fun j => ?_,hnodup,hothers⟩
  rw [State.code,init,← hmain]
  by_cases h : j = main <;> simp [h]

theorem awake_of_reachable {main k : ι} {program : ι → List (Instr ι ω)} {s : State ι ω}
    (hwait : .wait ∉ program k) (h : Reachable step (init program main) s) : Awake s k := by
  have hinit : Awake (init program main) k := by
    refine ⟨hwait,?_⟩
    by_cases hk : k = main <;> simp [init,hk]
  exact h.invariant (P := (Awake · k)) (fun _ _ _ hs ht => awake_of_moves hs (moves_of_step ht)) hinit

/-! ## Where nobody can go on -/

def Stuck (s : State ι ω) : Prop := ∀ a t, step s a = some t → ∃ j, a = .wake j

variable {guarded : ω → Bool} {program : ι → List (Instr ι ω)} {s : State ι ω}
  {done : List (ι × List ω)} {lines : List ω} {main : ι}

theorem Stuck.not_moves (h : Stuck s) {i : ι} {t : State ι ω} : ¬ Moves s (.run i) t := by
  intro hm
  obtain ⟨j,hj⟩ := h _ _ (step_of_moves hm)
  contradiction

/-- A thread that runs where nobody can go on is at its end or wants to enter. -/
theorem Stuck.running_code (h : Stuck s) (hs : Serial guarded program s done lines)
    (hst : Startable main s) {i : ι} (hi : (s.threads i).status = .running) :
    s.code i = [] ∨ (s.inside i = false ∧ s.owner ≠ none) := by
  have hb := hs.brackets_eq i
  cases hcode : s.code i with
  | nil => exact Or.inl rfl
  | cons instr rest =>
    have hthread : s.threads i = ⟨instr :: rest,.running⟩ := by
      rw [← hcode,← hi]
      rfl
    have hinside : s.inside i = decide (s.owner = some i) := by rw [State.inside,hi]
    rw [hcode] at hb
    cases instr with
    | start j =>
      have hmain : i = main := by
        by_contra hne
        have hnone := hst.others i hne
        simp [hcode,starts] at hnone
      have hfresh : (s.threads j).status = .fresh :=
        (hst.fresh_iff j).mpr (by simp [← hmain,hcode,starts])
      exact absurd (.start hthread hfresh) h.not_moves
    | enter =>
      simp only [brackets,Bool.and_eq_true,Bool.not_eq_true'] at hb
      exact Or.inr ⟨hb.1,fun ho => h.not_moves (.enter hthread ho)⟩
    | exit =>
      simp only [brackets,Bool.and_eq_true,hinside,decide_eq_true_eq] at hb
      exact absurd (.exit hthread hb.1) h.not_moves
    | wait =>
      simp only [brackets,Bool.and_eq_true,hinside,decide_eq_true_eq] at hb
      exact absurd (.wait hthread hb.1) h.not_moves
    | notify =>
      simp only [brackets,Bool.and_eq_true,hinside,decide_eq_true_eq] at hb
      by_cases hsome : ∃ j, (s.threads j).status = .waiting
      · obtain ⟨j,hj⟩ := hsome
        obtain ⟨k,hk⟩ := h _ _ (step_of_moves (.notifyOne hthread hb.1 hj))
        contradiction
      · have hall : ∀ j, (s.threads j).status ≠ .waiting := fun j hj => hsome ⟨j,hj⟩
        obtain ⟨j,hj⟩ := h _ _ (step_of_moves (.notifyNone hthread hb.1 hall))
        contradiction
    | print line => exact absurd (.print hthread) h.not_moves
    | pause => exact absurd (.pause hthread) h.not_moves

theorem Stuck.owner_eq (h : Stuck s) (hs : Serial guarded program s done lines)
    (hst : Startable main s) : s.owner = none := by
  by_contra hne
  obtain ⟨i,ho⟩ := Option.ne_none_iff_exists'.mp hne
  have hi := hs.running i ho
  have hinside : s.inside i = true := by simp [State.inside,hi,ho]
  rcases h.running_code hs hst hi with hcode | ⟨houtside,_⟩
  · have hb := hs.brackets_eq i
    simp [hinside,hcode,brackets] at hb
  · simp [hinside] at houtside

/-- Where nobody can go on, a thread that is not at its end waits. -/
theorem Stuck.waiting (h : Stuck s) (hs : Serial guarded program s done lines)
    (hst : Startable main s) {i : ι} (hi : s.code i ≠ []) : (s.threads i).status = .waiting := by
  have ho := h.owner_eq hs hst
  have hend : ∀ k, (s.threads k).status = .running → s.code k = [] := by
    intro k hk
    rcases h.running_code hs hst hk with hcode | ⟨_,hsome⟩
    · exact hcode
    · contradiction
  cases hstatus : (s.threads i).status with
  | fresh =>
    have hmem := (hst.fresh_iff i).mp hstatus
    rw [hend main hst.running] at hmem
    contradiction
  | running => exact absurd (hend i hstatus) hi
  | waiting => rfl
  | notified =>
    have hthread : s.threads i = ⟨s.code i,.notified⟩ := by
      rw [← hstatus]
      rfl
    exact absurd (.resume hthread ho) h.not_moves

theorem Stuck.code_eq (h : Stuck s) (hs : Serial guarded program s done lines)
    (hst : Startable main s) {i : ι} (hi : (s.threads i).status ≠ .waiting) : s.code i = [] := by
  by_contra hne
  exact hi (h.waiting hs hst hne)

omit [DecidableEq ι] [Fintype ι] in
theorem Awake.not_waiting {k : ι} (h : Awake s k) : (s.threads k).status ≠ .waiting := by
  rcases h.status with hstatus | hstatus <;> simp [hstatus]

theorem Stuck.finished (h : Stuck s) (hs : Serial guarded program s done lines)
    (hst : Startable main s) (hawake : ∀ k, Awake s k) : Finished s :=
  fun k => h.code_eq hs hst (hawake k).not_waiting

/-! ## Everybody comes to a stop -/

def notifiedOf (threads : ι → Thread ι ω) : Finset ι :=
  Finset.univ.filter (fun i => (threads i).status = .notified)

/-- What is still to be done; a woken thread has to take the monitor besides. -/
def work (s : State ι ω) : ℕ := 2 * (∑ i, (s.code i).length) + (notifiedOf s.threads).card

omit [DecidableEq ι] in
theorem mem_notifiedOf {threads : ι → Thread ι ω} {k : ι} :
    k ∈ notifiedOf threads ↔ (threads k).status = .notified := by
  simp [notifiedOf]

theorem notifiedOf_put {threads : ι → Thread ι ω} {i : ι} {rest : List (Instr ι ω)}
    {status : Status} (h : status ≠ .notified) :
    notifiedOf (put threads i rest status) = (notifiedOf threads).erase i := by
  ext k
  rw [Finset.mem_erase,mem_notifiedOf,mem_notifiedOf]
  rcases eq_or_ne k i with rfl | hk
  · simp [put_self,h]
  · simp [put_of_ne hk,hk]

theorem card_notifiedOf_put_le (threads : ι → Thread ι ω) (i : ι) (rest : List (Instr ι ω))
    {status : Status} (h : status ≠ .notified) :
    (notifiedOf (put threads i rest status)).card ≤ (notifiedOf threads).card := by
  rw [notifiedOf_put h]
  exact Finset.card_erase_le

theorem card_notifiedOf_wake_le (threads : ι → Thread ι ω) (j : ι) :
    (notifiedOf (setStatus threads j .notified)).card ≤ (notifiedOf threads).card + 1 := by
  have hsubset : notifiedOf (setStatus threads j .notified) ⊆ insert j (notifiedOf threads) := by
    intro k hk
    rw [Finset.mem_insert,mem_notifiedOf]
    rw [mem_notifiedOf] at hk
    rcases eq_or_ne k j with rfl | hne
    · exact Or.inl rfl
    · exact Or.inr ((congrArg Thread.status (put_of_ne hne)).symm.trans hk)
  exact (Finset.card_le_card hsubset).trans (Finset.card_insert_le ..)

theorem sum_length_update {code : ι → List (Instr ι ω)} {i : ι} {instr : Instr ι ω}
    {rest : List (Instr ι ω)} (h : code i = instr :: rest) :
    (∑ k, (Function.update code i rest k).length) + 1 = ∑ k, (code k).length := by
  rw [← Finset.add_sum_erase _ _ (Finset.mem_univ i),← Finset.add_sum_erase _ _ (Finset.mem_univ i)]
  have hothers : ∀ k ∈ Finset.univ.erase i,
      (Function.update code i rest k).length = (code k).length := by
    intro k hk
    rw [Function.update_of_ne (Finset.ne_of_mem_erase hk)]
  rw [Finset.sum_congr rfl hothers,Function.update_self,h,List.length_cons]
  omega

/-- An instruction weighs more than the one thread that it may wake. -/
theorem work_lt {s t : State ι ω} {i : ι} {instr : Instr ι ω} {rest : List (Instr ι ω)}
    (hi : s.code i = instr :: rest) (hcode : t.code = Function.update s.code i rest)
    (hcard : (notifiedOf t.threads).card ≤ (notifiedOf s.threads).card + 1) : work t < work s := by
  have hsum := sum_length_update hi
  rw [← hcode] at hsum
  rw [work,work]
  omega

theorem work_put_lt {s : State ι ω} {i : ι} {instr : Instr ι ω} {rest : List (Instr ι ω)}
    {status : Status} {owner : Option ι} {output : List (ι × ω)}
    (hi : s.threads i = ⟨instr :: rest,.running⟩) (h : status ≠ .notified) :
    work ⟨put s.threads i rest status,owner,output⟩ < work s :=
  work_lt (congrArg Thread.code hi) (put_code ..)
    ((card_notifiedOf_put_le s.threads i rest h).trans (Nat.le_succ _))

theorem work_resume_lt {s : State ι ω} {i : ι} {code : List (Instr ι ω)} {owner : Option ι}
    (hi : s.threads i = ⟨code,.notified⟩) :
    work ⟨put s.threads i code .running,owner,s.output⟩ < work s := by
  obtain rfl : (s.threads i).code = code := congrArg Thread.code hi
  have hcode : State.code ⟨put s.threads i (s.threads i).code .running,owner,s.output⟩ = s.code :=
    setStatus_code ..
  have hmem : i ∈ notifiedOf s.threads := mem_notifiedOf.mpr (congrArg Thread.status hi)
  have hcard := Finset.card_erase_lt_of_mem hmem
  rw [work,work,hcode,notifiedOf_put (by simp)]
  omega

theorem work_of_moves {s t : State ι ω} {a : Action ι} (h : Moves s a t) :
    work t < work s ∨ ∃ j, a = .wake j := by
  cases h with
  | @start i j rest hi hj =>
    have hcard := (card_notifiedOf_put_le (put s.threads i rest .running) j
      (put s.threads i rest .running j).code (by decide : Status.running ≠ .notified)).trans
        (card_notifiedOf_put_le s.threads i rest (by simp))
    exact Or.inl (work_lt (congrArg Thread.code hi) ((setStatus_code ..).trans (put_code ..))
      (hcard.trans (Nat.le_succ _)))
  | enter hi ho => exact Or.inl (work_put_lt hi (by simp))
  | exit hi ho => exact Or.inl (work_put_lt hi (by simp))
  | wait hi ho => exact Or.inl (work_put_lt hi (by simp))
  | print hi => exact Or.inl (work_put_lt hi (by simp))
  | pause hi => exact Or.inl (work_put_lt hi (by simp))
  | resume hi ho => exact Or.inl (work_resume_lt hi)
  | @notifyOne i j rest hi ho hj =>
    have hcard := (card_notifiedOf_put_le (setStatus s.threads j .notified) i rest
      (by decide : Status.running ≠ .notified)).trans (card_notifiedOf_wake_le s.threads j)
    have hcode := (put_code (setStatus s.threads j .notified) i rest .running).trans
      (congrArg (Function.update · i rest) (setStatus_code ..))
    exact Or.inl (work_lt (congrArg Thread.code hi) hcode hcard)
  | notifyNone hi ho hall => exact Or.inl (work_put_lt hi (by simp))
  | @wake j hj => exact Or.inr ⟨j,rfl⟩

/-- The actions of a run in which no thread wakes up for no reason. -/
def Woken (as : List (Action ι)) : Prop := ∀ j, .wake j ∉ as

theorem woken_of_awake {t : State ι ω} {as : List (Action ι)} (hr : run step s as = some t)
    (hs : ∀ k, Awake s k) : Woken as := by
  induction as generalizing s with
  | nil => exact fun j => List.not_mem_nil
  | cons a as ih =>
    obtain ⟨u,hu,hr⟩ := Option.bind_eq_some_iff.mp hr
    intro j hmem
    rcases List.mem_cons.mp hmem with rfl | hmem
    · cases moves_of_step hu with
      | wake hj => exact (hs j).not_waiting hj
    · exact ih hr (fun k => awake_of_moves (hs k) (moves_of_step hu)) j hmem

omit [DecidableEq ι] in
theorem notifiedOf_of_awake (h : ∀ k, Awake s k) : notifiedOf s.threads = ∅ := by
  refine Finset.eq_empty_of_forall_notMem fun k hk => ?_
  rw [mem_notifiedOf] at hk
  rcases (h k).status with hstatus | hstatus <;> simp [hstatus] at hk

/-- Threads that never wait take one instruction at every step. -/
theorem length_of_awake {t : State ι ω} {as : List (Action ι)} (hr : run step s as = some t)
    (hs : ∀ k, Awake s k) : as.length + ∑ i, (t.code i).length = ∑ i, (s.code i).length := by
  induction as generalizing s with
  | nil =>
    cases hr
    simp
  | cons a as ih =>
    have hwoken := woken_of_awake hr hs
    obtain ⟨u,hu,hr⟩ := Option.bind_eq_some_iff.mp hr
    have hmoves := moves_of_step hu
    have hawake := fun k => awake_of_moves (hs k) hmoves
    have hrest := ih hr hawake
    rw [List.length_cons]
    rcases code_of_moves hmoves with ⟨hsame,_⟩ | ⟨i,instr,rest,hi,hcode,_⟩
    · rcases work_of_moves hmoves with hlt | ⟨j,rfl⟩
      · rw [work,work,hsame,notifiedOf_of_awake hs,notifiedOf_of_awake hawake] at hlt
        omega
      · exact absurd List.mem_cons_self (hwoken j)
    · have hsum := sum_length_update hi
      rw [← hcode] at hsum
      omega

omit [DecidableEq ι] in
theorem finished_iff : Finished s ↔ ∑ i, (s.code i).length = 0 := by
  simp [Finished,Finset.sum_eq_zero_iff]

theorem Finished.stuck (h : Finished s) (hs : ∀ k, Awake s k) : Stuck s := by
  intro a t ht
  have hr : run step s [a] = some t := by rw [run_cons,ht]; rfl
  have hlength := length_of_awake hr hs
  rw [finished_iff.mp h,List.length_singleton] at hlength
  omega

/-- Whoever goes first, everybody comes to a stop. -/
theorem exists_stuck (s : State ι ω) : ∃ as t, run step s as = some t ∧ Woken as ∧ Stuck t := by
  by_cases h : Stuck s
  · exact ⟨[],s,rfl,fun j => List.not_mem_nil,h⟩
  · rw [Stuck] at h
    push Not at h
    obtain ⟨a,t,ht,ha⟩ := h
    have hlt : work t < work s := by
      rcases work_of_moves (moves_of_step ht) with hlt | ⟨j,hj⟩
      · exact hlt
      · exact absurd hj (ha j)
    obtain ⟨as,u,hr,has,hstuck⟩ := exists_stuck t
    refine ⟨a :: as,u,by rw [run_cons,ht]; exact hr,fun j hmem => ?_,hstuck⟩
    rcases List.mem_cons.mp hmem with rfl | hmem
    · exact ha j rfl
    · exact has j hmem
termination_by work s

end SunshineService.Monitor
