import SunshineService.Foundation.ThreadProgress

/-! # The wait and notify demonstration

Thread t1 waits on `obj`, and t2 notifies while it holds the monitor. A wait need not end
through a notify, and a notify wakes nobody when nobody waits: `main` only sleeps for a
second between the two starts, which does not make t1 wait first.
-/
namespace SunshineService.WaitNotifyTest
open TransitionRun Monitor

inductive Id
  | main
  | t1
  | t2
  deriving DecidableEq

instance : Fintype Id := ⟨{.main,.t1,.t2},by rintro (_ | _ | _) <;> decide⟩

/-- What the threads print, up to their own names. -/
inductive Line
  | obtained
  | notified
  | releasing
  | released
  deriving DecidableEq

def Line.text (name : String) : Line → String
  | .obtained => "线程" ++ name ++ "获取到了obj监控锁"
  | .notified => "线程" ++ name ++ "调用了object.notify(),但还没有释放obj监控锁"
  | .releasing => "线程" ++ name ++ "调用了object.notify(),准备释放obj监控锁"
  | .released => "线程" ++ name ++ "释放了obj监控锁"

def ThreadWait.run : List (Instr Id Line) :=
  [.enter,.wait,.print .obtained,.exit,.print .released]

/-- `doSleep` keeps the monitor. -/
def ThreadNotify.run : List (Instr Id Line) :=
  [.enter,.notify,.print .notified,.pause,.print .releasing,.exit,.pause,.print .released]

def main : Id → List (Instr Id Line)
  | .main => [.start .t1,.pause,.start .t2]
  | .t1 => ThreadWait.run
  | .t2 => ThreadNotify.run

/-- The lines that are printed inside `synchronized (obj)`. -/
def inside : Line → Bool
  | .released => false
  | _ => true

abbrev start : State Id Line := init main .main

variable {s t : State Id Line}

theorem serial_of_start (h : Reachable step start s) :
    ∃ done lines, Serial inside main s done lines :=
  serial_of_reachable (by decide) h

theorem startable_of_start (h : Reachable step start s) : Startable .main s :=
  startable_of_reachable (by decide) (by decide) (by decide) (by decide) h

/-! ## The lines inside the block -/

/-- The threads that enter the block, t1 as `false`. -/
def entering : Bool → Id
  | false => .t1
  | true => .t2

def blockLines : Bool → List Line
  | false => [.obtained]
  | true => [.notified,.releasing]

theorem nodup_bool {order : List Bool} (h : order.Nodup) :
    order <+: [true,false] ∨ order <+: [false,true] := by
  match order with
  | [] => exact Or.inl (List.nil_prefix)
  | [a] => cases a <;> simp
  | [a,b] => cases a <;> cases b <;> simp at h ⊢
  | a :: b :: c :: _ => cases a <;> cases b <;> cases c <;> simp at h

/-- t2 prints both of its lines before t1 prints its own, or after. -/
theorem inside_order (h : Reachable step start s) :
    s.output.filter (fun p => inside p.2) <+: [(.t2,.notified),(.t2,.releasing),(.t1,.obtained)] ∨
      s.output.filter (fun p => inside p.2) <+:
        [(.t1,.obtained),(.t2,.notified),(.t2,.releasing)] := by
  obtain ⟨done,lines,hs⟩ := serial_of_start h
  have hinjective : Function.Injective entering := by
    rintro (_ | _) (_ | _) <;> simp [entering]
  have hothers : ∀ i, i ∉ Set.range entering → (sections inside (main i)).filter hasLines = [] := by
    rintro (_ | _ | _) hi
    · rfl
    · exact absurd ⟨false,rfl⟩ hi
    · exact absurd ⟨true,rfl⟩ hi
  obtain ⟨order,hnodup,hbegin,_⟩ := hs.exists_order (f := blockLines) hinjective hothers
    (by rintro (_ | _) <;> rfl)
  rcases nodup_bool hnodup with hfirst | hfirst
  · exact Or.inl (hbegin.trans (hfirst.flatMap _))
  · exact Or.inr (hbegin.trans (hfirst.flatMap _))

/-! ## The notify that wakes t1 -/

/-- What t1 has still to run while it waits and until it has the monitor again. -/
def afterWait : List (Instr Id Line) := [.print .obtained,.exit,.print .released]

/-- The thread still has to wait, or it waits. -/
def waits (x : Thread Id Line) : Prop := .wait ∈ x.code ∨ x.status = .waiting

def Waits (s : State Id Line) : Prop := waits (s.threads .t1)

def Notified (s : State Id Line) : Prop := .notify ∉ s.code .t2

/-- How far the three threads are. -/
structure Placed (s : State Id Line) : Prop where
  suffix : ∀ k, s.code k <:+ main k
  parked : (s.threads .t1).status = .waiting ∨ (s.threads .t1).status = .notified →
    s.code .t1 = afterWait
  awake : ∀ k ≠ .t1, Awake s k

theorem rest_of_wait {rest : List (Instr Id Line)} (h : .wait :: rest <:+ ThreadWait.run) :
    rest = afterWait := by
  simpa [ThreadWait.run,List.suffix_cons_iff,afterWait] using h

theorem rest_of_notify {rest : List (Instr Id Line)} (h : .notify :: rest <:+ ThreadNotify.run) :
    .notify ∉ rest := by
  have hrest : rest = [.print .notified,.pause,.print .releasing,.exit,.pause,.print .released] := by
    simpa [ThreadNotify.run,List.suffix_cons_iff] using h
  simp [hrest]

theorem parked_of_moves {a : Action Id} (hs : Placed s) (h : Moves s a t)
    (ht : (t.threads .t1).status = .waiting ∨ (t.threads .t1).status = .notified) :
    t.code .t1 = afterWait := by
  have hbecame := became_of_moves h .t1
  have hsuffix := hs.suffix .t1
  have hparked := hs.parked
  rw [State.code] at hsuffix hparked ⊢
  generalize s.threads .t1 = x at *
  generalize t.threads .t1 = y at *
  cases hbecame with
  | same => exact hparked ht
  | pops _ _ => simp at ht
  | waits rest => exact rest_of_wait hsuffix
  | starts code => simp at ht
  | wakes code _ => exact hparked (Or.inl rfl)
  | resumes code => simp at ht

theorem placed_of_moves {a : Action Id} (hs : Placed s) (h : Moves s a t) : Placed t :=
  ⟨fun k => (suffix_of_moves h k).trans (hs.suffix k),parked_of_moves hs h,
    fun k hk => awake_of_moves (hs.awake k hk) h⟩

theorem placed_of_start (h : Reachable step start s) : Placed s := by
  have hinit : Placed start := by
    refine ⟨fun k => List.suffix_rfl,by decide,fun k hk => ⟨?_,?_⟩⟩
    · revert hk k
      decide
    · revert hk k
      decide
  exact h.invariant (fun _ _ _ hs ht => placed_of_moves hs (moves_of_step ht)) hinit

/-- Only t2 notifies. -/
theorem notifier_eq {a : Action Id} (hs : Placed s) (h : Moves s a t) {i : Id} {w : Option Id}
    (ha : a = .notify i w) : i = .t2 := by
  have hmain : ∀ k, .notify ∈ main k → k = .t2 := by decide
  subst ha
  cases h with
  | notifyOne hi _ _ =>
    exact hmain i ((hs.suffix i).subset (by rw [State.code,hi]; exact List.mem_cons_self))
  | notifyNone hi _ _ =>
    exact hmain i ((hs.suffix i).subset (by rw [State.code,hi]; exact List.mem_cons_self))

/-- A step that notifies nobody changes neither. -/
theorem same_of_run {i : Id} (h : Moves s (.run i) t) :
    (Waits t ↔ Waits s) ∧ (Notified t ↔ Notified s) := by
  constructor
  · have hbecame := became_of_moves h .t1
    rw [Waits,Waits]
    generalize s.threads .t1 = x at *
    generalize t.threads .t1 = y at *
    cases hbecame with
    | same => rfl
    | pops hwait _ => simp [waits,hwait.symm]
    | waits rest => simp [waits]
    | starts code => simp [waits]
    | wakes code ha => simp at ha
    | resumes code => simp [waits]
  · have hbecame := became_of_moves h .t2
    rw [Notified,Notified,State.code,State.code]
    generalize s.threads .t2 = x at *
    generalize t.threads .t2 = y at *
    cases hbecame with
    | same => rfl
    | @pops instr rest _ hnotify =>
      have hne : instr ≠ .notify := fun hn => by simpa using hnotify hn
      simp [hne.symm]
    | waits rest => simp
    | starts code => rfl
    | wakes code ha => rfl
    | resumes code => rfl

/-- The notify of t2 wakes t1 if t1 waits. -/
theorem notified_of_moves {w : Option Id} (hs : Placed s) (h : Moves s (.notify .t2 w) t) :
    ¬ Notified s ∧ Notified t ∧ (Waits t ↔ Waits s ∧ (s.threads .t1).status ≠ .waiting) := by
  have hrest : ∀ rest, s.threads .t2 = ⟨.notify :: rest,.running⟩ → ¬ Notified s ∧ .notify ∉ rest := by
    intro rest hi
    have hcode : s.code .t2 = .notify :: rest := congrArg Thread.code hi
    exact ⟨by simp [Notified,hcode],rest_of_notify (hcode ▸ hs.suffix .t2)⟩
  cases h with
  | @notifyOne _ j rest hi _ hj =>
    obtain ⟨hnot,hnone⟩ := hrest rest hi
    obtain rfl : j = .t1 := by
      by_contra hne
      exact (hs.awake j hne).not_waiting hj
    refine ⟨hnot,hnone,?_⟩
    have hthread : put (setStatus s.threads .t1 .notified) .t2 rest .running .t1 =
        ⟨s.code .t1,.notified⟩ := (put_of_ne (by decide)).trans (put_self ..)
    have hwaits : ¬ waits (put (setStatus s.threads .t1 .notified) .t2 rest .running .t1) := by
      rw [hthread,hs.parked (Or.inl hj)]
      simp [waits,afterWait]
    exact ⟨fun h => absurd h hwaits,fun h => absurd hj h.2⟩
  | @notifyNone _ rest hi _ hall =>
    obtain ⟨hnot,hnone⟩ := hrest rest hi
    refine ⟨hnot,hnone,?_⟩
    have hthread : put s.threads .t2 rest .running .t1 = s.threads .t1 := put_of_ne (by decide)
    have hsame : waits (put s.threads .t2 rest .running .t1) ↔ Waits s := by rw [hthread,Waits]
    exact ⟨fun h => ⟨hsame.mp h,hall .t1⟩,fun h => hsame.mpr h.1⟩

/-- The notify finds t1 waiting. -/
def FindsWaiting (s : State Id Line) (a : Action Id) : Prop :=
  ∀ w, a = .notify .t2 w → (s.threads .t1).status = .waiting

/-- Once t2 has notified, nothing wakes t1 any more. -/
theorem notified_of_run {as : List (Action Id)} (hs : Placed s) (hn : Notified s)
    (hr : run step s as = some t) (has : Woken as) :
    EachStep step FindsWaiting s as ∧ Notified t ∧ (Waits t ↔ Waits s) := by
  induction as generalizing s with
  | nil =>
    cases hr
    exact ⟨eachStep_nil,hn,Iff.rfl⟩
  | cons a as ih =>
    obtain ⟨u,hu,hrun⟩ := Option.bind_eq_some_iff.mp hr
    have hmoves := moves_of_step hu
    have hrest : Woken as := fun j hj => has j (List.mem_cons_of_mem _ hj)
    cases a with
    | run i =>
      obtain ⟨hwaits,hnotified⟩ := same_of_run hmoves
      obtain ⟨heach,hn',hwaits'⟩ := ih (placed_of_moves hs hmoves) (hnotified.mpr hn) hrun hrest
      exact ⟨(eachStep_cons hu).mpr ⟨by simp [FindsWaiting],heach⟩,hn',hwaits'.trans hwaits⟩
    | notify i w =>
      obtain rfl := notifier_eq hs hmoves rfl
      exact absurd hn (notified_of_moves hs hmoves).1
    | wake j => exact absurd List.mem_cons_self (has j)

/-- Until the notify t1 waits, and after it t1 goes on precisely if it was waiting then. -/
theorem waits_of_run {as : List (Action Id)} (hs : Placed s) (hw : Waits s) (hn : ¬ Notified s)
    (hr : run step s as = some t) (has : Woken as) :
    (¬ Notified t → Waits t) ∧ (Notified t → (¬ Waits t ↔ EachStep step FindsWaiting s as)) := by
  induction as generalizing s with
  | nil =>
    cases hr
    exact ⟨fun _ => hw,fun ht => absurd ht hn⟩
  | cons a as ih =>
    obtain ⟨u,hu,hrun⟩ := Option.bind_eq_some_iff.mp hr
    have hmoves := moves_of_step hu
    have hrest : Woken as := fun j hj => has j (List.mem_cons_of_mem _ hj)
    rw [eachStep_cons hu]
    cases a with
    | run i =>
      obtain ⟨hwaits,hnotified⟩ := same_of_run hmoves
      obtain ⟨hbefore,hafter⟩ :=
        ih (placed_of_moves hs hmoves) (hwaits.mpr hw) (fun h => hn (hnotified.mp h)) hrun hrest
      exact ⟨hbefore,fun ht => (hafter ht).trans (by simp [FindsWaiting])⟩
    | notify i w =>
      obtain rfl := notifier_eq hs hmoves rfl
      obtain ⟨_,hnotified,hwaits⟩ := notified_of_moves hs hmoves
      obtain ⟨heach,ht,hsame⟩ := notified_of_run (placed_of_moves hs hmoves) hnotified hrun hrest
      refine ⟨fun hnot => absurd ht hnot,fun _ => ?_⟩
      rw [hsame,hwaits]
      simp [FindsWaiting,heach,hw]
    | wake j => exact absurd List.mem_cons_self (has j)

theorem waits_of_start {as : List (Action Id)} (hr : run step start as = some s)
    (has : Woken as) :
    (¬ Notified s → Waits s) ∧ (Notified s → (¬ Waits s ↔ EachStep step FindsWaiting start as)) :=
  waits_of_run (placed_of_start (Reachable.refl _)) (Or.inl (by decide)) (fun h => h (by decide))
    hr has

theorem code_eq_of_stuck (h : Reachable step start s) (hstuck : Stuck s) {k : Id}
    (hk : (s.threads k).status ≠ .waiting) : s.code k = [] := by
  obtain ⟨done,lines,hs⟩ := serial_of_start h
  exact hstuck.code_eq hs (startable_of_start h) hk

/-! ## Without wake-ups for no reason -/

/-- Outside its block and past its notify, t2 has printed its lines. -/
theorem notified_not_mem {code : List (Instr Id Line)} (h : code <:+ ThreadNotify.run)
    (hn : .notify ∉ code) (hb : brackets inside false code = true) : .notified ∉ prints code := by
  have hmem : code ∈ ThreadNotify.run.tails := by
    simpa [ThreadNotify.run,List.suffix_cons_iff] using h
  have hall : ∀ c ∈ ThreadNotify.run.tails, .notify ∉ c → brackets inside false c = true →
      .notified ∉ prints c := by decide
  exact hall code hmem hn hb

/-- t1 prints its line inside only after t2 has begun to print its own. -/
theorem notified_of_obtained {as : List (Action Id)} {rest : List (Instr Id Line)}
    (hr : run step start as = some s) (has : Woken as)
    (hi : s.threads .t1 = ⟨.print .obtained :: rest,.running⟩) : (.t2,.notified) ∈ s.output := by
  have hreach : Reachable step start s := ⟨as,hr⟩
  have hplaced := placed_of_start hreach
  obtain ⟨done,lines,hs⟩ := serial_of_start hreach
  have hcode : s.code .t1 = .print .obtained :: rest := congrArg Thread.code hi
  -- t1 does not wait any more, so the notify has happened
  have hnotified : Notified s := by
    by_contra hnot
    have hsuffix := hplaced.suffix .t1
    rw [hcode] at hsuffix
    have hrest : rest = [.exit,.print .released] := by
      simpa [main,ThreadWait.run,List.suffix_cons_iff] using hsuffix
    have hwaits := (waits_of_start hr has).1 hnot
    rw [Waits,hi,hrest] at hwaits
    simp [waits] at hwaits
  -- t1 has the monitor, so t2 is outside its block
  have howner : s.owner = some .t1 := by
    have hb := hs.brackets_eq .t1
    simp only [hcode,brackets,State.inside,hi,inside,Bool.not_true,Bool.or_false,Bool.and_eq_true,
      decide_eq_true_eq] at hb
    exact hb.1
  have houtside : s.inside .t2 = false := by
    rcases (hplaced.awake .t2 (by decide)).status with hstatus | hstatus <;>
      simp [State.inside,hstatus,howner]
  have hb := hs.brackets_eq .t2
  rw [houtside] at hb
  have hnot := notified_not_mem (hplaced.suffix .t2) hnotified hb
  have hown := own_prints_of_run hreach .t2
  have hall : .notified ∈ own .t2 s.output ++ prints (s.code .t2) := by
    rw [hown]
    decide
  exact mem_own.mp ((List.mem_append.mp hall).resolve_right hnot)

theorem obtained_last {as : List (Action Id)} (hr : run step start as = some s) (has : Woken as) :
    s.output.filter (fun p => inside p.2) <+:
      [(.t2,.notified),(.t2,.releasing),(.t1,.obtained)] := by
  induction as using List.reverseRecOn generalizing s with
  | nil =>
    cases hr
    exact List.nil_prefix
  | append_singleton as a ih =>
    rw [run_append] at hr
    obtain ⟨u,hu,hlast⟩ := Option.bind_eq_some_iff.mp hr
    obtain ⟨v,hv,hnil⟩ := Option.bind_eq_some_iff.mp hlast
    cases hnil
    have hrest : Woken as := fun j hj => has j (List.mem_append_left _ hj)
    have hu' := ih hu hrest
    rcases inside_order ⟨as ++ [a],by rw [run_append,hu]; exact hlast⟩ with hdone | hother
    · exact hdone
    · rcases output_of_moves (moves_of_step hv) with hsame | ⟨i,line,rest,hi,hout⟩
      · rwa [hsame]
      · rw [hout,List.filter_append] at hother ⊢
        cases hline : inside line with
        | false => simpa [hline] using hu'
        | true =>
          have hnone : u.output.filter (fun p => inside p.2) = [] := by
            have hother' := (List.prefix_append ..).trans hother
            cases hfirst : u.output.filter (fun p => inside p.2) with
            | nil => rfl
            | cons p more =>
              rw [hfirst] at hu' hother'
              obtain ⟨rfl,_⟩ := List.cons_prefix_cons.mp hu'
              obtain ⟨hne,_⟩ := List.cons_prefix_cons.mp hother'
              simp at hne
          rw [hnone] at hother
          obtain ⟨rfl,rfl⟩ : i = .t1 ∧ line = .obtained := by simpa [hline] using hother
          have hmem := notified_of_obtained hu hrest hi
          have hmem' : (.t2,.notified) ∈ u.output.filter (fun p => inside p.2) :=
            List.mem_filter.mpr ⟨hmem,rfl⟩
          rw [hnone] at hmem'
          contradiction

/-- Inside the block t2 prints both of its lines before t1 prints its own, or after; they are
the first unless t1 woke up for no reason. -/
theorem lines_inside_ordered {as : List (Action Id)} (hr : run step start as = some s) :
    (s.output.filter (fun p => inside p.2) <+:
        [(.t2,.notified),(.t2,.releasing),(.t1,.obtained)] ∨
      s.output.filter (fun p => inside p.2) <+:
        [(.t1,.obtained),(.t2,.notified),(.t2,.releasing)]) ∧
    (Woken as → s.output.filter (fun p => inside p.2) <+:
      [(.t2,.notified),(.t2,.releasing),(.t1,.obtained)]) :=
  ⟨inside_order ⟨as,hr⟩,obtained_last hr⟩

/-- t1 wakes up by itself and is the first inside. -/
def byItself : List (Action Id) :=
  [.run .main,.run .t1,.run .t1,.wake .t1,.run .t1,.run .t1]

theorem lines_inside_ordered_by_itself :
    ∃ s, run step start byItself = some s ∧
      (s.output.filter (fun p => inside p.2) <+:
          [(.t2,.notified),(.t2,.releasing),(.t1,.obtained)] ∨
        s.output.filter (fun p => inside p.2) <+:
          [(.t1,.obtained),(.t2,.notified),(.t2,.releasing)]) ∧
      (Woken byItself → s.output.filter (fun p => inside p.2) <+:
        [(.t2,.notified),(.t2,.releasing),(.t1,.obtained)]) :=
  ⟨_,rfl,lines_inside_ordered (show run step start byItself = some _ from rfl)⟩

/-! ## A notify that comes too early -/

/-- Where nobody can go on, all threads are at their end unless the notify came before t1
waited; then t1 waits for ever. -/
theorem finished_iff_notified {as : List (Action Id)} (hr : run step start as = some s)
    (has : Woken as) (hstuck : Stuck s) : Finished s ↔ EachStep step FindsWaiting start as := by
  have hreach : Reachable step start s := ⟨as,hr⟩
  have hplaced := placed_of_start hreach
  have hothers : ∀ k ≠ .t1, s.code k = [] := fun k hk =>
    code_eq_of_stuck hreach hstuck (hplaced.awake k hk).not_waiting
  have hnotified : Notified s := by simp [Notified,hothers .t2 (by decide)]
  rw [← (waits_of_start hr has).2 hnotified]
  constructor
  · rintro hend (hwait | hwaiting)
    · rw [← State.code,hend] at hwait
      contradiction
    · have hcode := hplaced.parked (Or.inl hwaiting)
      rw [hend] at hcode
      contradiction
  · intro hnot k
    by_cases hk : k = .t1
    · subst hk
      exact code_eq_of_stuck hreach hstuck (fun hwaiting => hnot (Or.inr hwaiting))
    · exact hothers k hk

theorem stuck_of_isNone (hrun : ∀ i, (step s (.run i)).isNone = true)
    (hnotify : ∀ i w, (step s (.notify i w)).isNone = true) : Stuck s := by
  intro a t h
  cases a with
  | run i =>
    have hnone := hrun i
    rw [h] at hnone
    contradiction
  | notify i w =>
    have hnone := hnotify i w
    rw [h] at hnone
    contradiction
  | wake j => exact ⟨j,rfl⟩

/-- The notify comes while t1 has not begun. -/
def tooEarly : List (Action Id) :=
  [.run .main,.run .main,.run .main,.run .t2,.notify .t2 none,.run .t2,.run .t2,.run .t2,.run .t2,
    .run .t2,.run .t2,.run .t1,.run .t1]

theorem finished_iff_notified_too_early :
    ∃ s, run step start tooEarly = some s ∧
      (Finished s ↔ EachStep step FindsWaiting start tooEarly) :=
  ⟨_,rfl,finished_iff_notified (show run step start tooEarly = some _ from rfl) (by simp [Woken,tooEarly])
    (stuck_of_isNone (by decide) (by decide))⟩

end SunshineService.WaitNotifyTest
