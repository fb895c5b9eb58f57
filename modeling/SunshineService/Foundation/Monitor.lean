import SunshineService.Foundation.TransitionRun
import Mathlib.Logic.Function.Basic
import Mathlib.Data.Fintype.Defs

/-! # Threads that share one monitor

A thread is the code it has still to run and a status. The scheduler chooses who goes on,
and a notify wakes any one of the threads that wait; a thread that waits may also wake up
for no reason. A woken thread has to take the monitor again before it goes on. No thread
enters the monitor a second time while it is inside.
-/
namespace SunshineService.Monitor
open TransitionRun

inductive Instr (ι ω : Type*)
  | start (j : ι)
  | enter
  | exit
  | wait
  | notify
  | print (line : ω)
  | pause
  deriving DecidableEq

inductive Status
  | fresh
  | running
  | waiting
  | notified
  deriving DecidableEq

structure Thread (ι ω : Type*) where
  code : List (Instr ι ω)
  status : Status
  deriving DecidableEq

structure State (ι ω : Type*) where
  threads : ι → Thread ι ω
  owner : Option ι
  output : List (ι × ω)

def State.code {ι ω : Type*} (s : State ι ω) (i : ι) : List (Instr ι ω) := (s.threads i).code

inductive Action (ι : Type*)
  | run (i : ι)
  | notify (i : ι) (woken : Option ι)
  | wake (i : ι)
  deriving DecidableEq

section Machine
variable {ι ω : Type*} [DecidableEq ι]

def put (threads : ι → Thread ι ω) (i : ι) (code : List (Instr ι ω)) (status : Status) :
    ι → Thread ι ω := Function.update threads i ⟨code,status⟩

def setStatus (threads : ι → Thread ι ω) (i : ι) (status : Status) : ι → Thread ι ω :=
  put threads i (threads i).code status

def execute (s : State ι ω) (i : ι) (rest : List (Instr ι ω)) : Instr ι ω → Option (State ι ω)
  | .start j =>
    if (s.threads j).status = .fresh then
      some { s with threads := setStatus (put s.threads i rest .running) j .running }
    else none
  | .enter =>
    if s.owner = none then some { s with threads := put s.threads i rest .running, owner := some i }
    else none
  | .exit =>
    if s.owner = some i then some { s with threads := put s.threads i rest .running, owner := none }
    else none
  | .wait =>
    if s.owner = some i then some { s with threads := put s.threads i rest .waiting, owner := none }
    else none
  -- the action says whom it wakes
  | .notify => none
  | .print line =>
    some { s with threads := put s.threads i rest .running, output := s.output ++ [(i,line)] }
  | .pause => some { s with threads := put s.threads i rest .running }

def resume (s : State ι ω) (i : ι) : Option (State ι ω) :=
  match s.threads i with
  | ⟨instr :: rest,.running⟩ => execute s i rest instr
  | ⟨code,.notified⟩ =>
    if s.owner = none then some { s with threads := put s.threads i code .running, owner := some i }
    else none
  | _ => none

def wakeUp (s : State ι ω) (j : ι) : Option (State ι ω) :=
  if (s.threads j).status = .waiting then some { s with threads := setStatus s.threads j .notified }
  else none

variable [Fintype ι]

def notify (s : State ι ω) (i : ι) (woken : Option ι) : Option (State ι ω) :=
  match s.threads i with
  | ⟨.notify :: rest,.running⟩ =>
    if s.owner = some i then
      match woken with
      | some j => (wakeUp s j).map (fun t => { t with threads := put t.threads i rest .running })
      | none =>
        if ∀ j, (s.threads j).status ≠ .waiting then
          some { s with threads := put s.threads i rest .running }
        else none
    else none
  | _ => none

def step (s : State ι ω) : Action ι → Option (State ι ω)
  | .run i => resume s i
  | .notify i woken => notify s i woken
  | .wake j => wakeUp s j

/-- Only `main` has been started. -/
def init (program : ι → List (Instr ι ω)) (main : ι) : State ι ω where
  threads i := ⟨program i,if i = main then .running else .fresh⟩
  owner := none
  output := []

def Finished (s : State ι ω) : Prop := ∀ i, s.code i = []

/-! ## What one step does -/

inductive Moves (s : State ι ω) : Action ι → State ι ω → Prop
  | start {i j : ι} {rest : List (Instr ι ω)} (hi : s.threads i = ⟨.start j :: rest,.running⟩)
      (hj : (s.threads j).status = .fresh) :
      Moves s (.run i)
        { s with threads := setStatus (put s.threads i rest .running) j .running }
  | enter {i : ι} {rest : List (Instr ι ω)} (hi : s.threads i = ⟨.enter :: rest,.running⟩)
      (ho : s.owner = none) :
      Moves s (.run i) { s with threads := put s.threads i rest .running, owner := some i }
  | exit {i : ι} {rest : List (Instr ι ω)} (hi : s.threads i = ⟨.exit :: rest,.running⟩)
      (ho : s.owner = some i) :
      Moves s (.run i) { s with threads := put s.threads i rest .running, owner := none }
  | wait {i : ι} {rest : List (Instr ι ω)} (hi : s.threads i = ⟨.wait :: rest,.running⟩)
      (ho : s.owner = some i) :
      Moves s (.run i) { s with threads := put s.threads i rest .waiting, owner := none }
  | print {i : ι} {line : ω} {rest : List (Instr ι ω)}
      (hi : s.threads i = ⟨.print line :: rest,.running⟩) :
      Moves s (.run i)
        { s with threads := put s.threads i rest .running, output := s.output ++ [(i,line)] }
  | pause {i : ι} {rest : List (Instr ι ω)} (hi : s.threads i = ⟨.pause :: rest,.running⟩) :
      Moves s (.run i) { s with threads := put s.threads i rest .running }
  | resume {i : ι} {code : List (Instr ι ω)} (hi : s.threads i = ⟨code,.notified⟩)
      (ho : s.owner = none) :
      Moves s (.run i) { s with threads := put s.threads i code .running, owner := some i }
  | notifyOne {i j : ι} {rest : List (Instr ι ω)} (hi : s.threads i = ⟨.notify :: rest,.running⟩)
      (ho : s.owner = some i) (hj : (s.threads j).status = .waiting) :
      Moves s (.notify i (some j))
        { s with threads := put (setStatus s.threads j .notified) i rest .running }
  | notifyNone {i : ι} {rest : List (Instr ι ω)} (hi : s.threads i = ⟨.notify :: rest,.running⟩)
      (ho : s.owner = some i) (hall : ∀ j, (s.threads j).status ≠ .waiting) :
      Moves s (.notify i none) { s with threads := put s.threads i rest .running }
  | wake {j : ι} (hj : (s.threads j).status = .waiting) :
      Moves s (.wake j) { s with threads := setStatus s.threads j .notified }

omit [Fintype ι] in
theorem moves_of_execute {s t : State ι ω} {i : ι} {rest : List (Instr ι ω)} {instr : Instr ι ω}
    (hi : s.threads i = ⟨instr :: rest,.running⟩) (h : execute s i rest instr = some t) :
    Moves s (.run i) t := by
  cases instr with
  | start j =>
    obtain ⟨hj,⟨⟩⟩ := Option.ite_none_right_eq_some.mp h
    exact .start hi hj
  | enter =>
    obtain ⟨ho,⟨⟩⟩ := Option.ite_none_right_eq_some.mp h
    exact .enter hi ho
  | exit =>
    obtain ⟨ho,⟨⟩⟩ := Option.ite_none_right_eq_some.mp h
    exact .exit hi ho
  | wait =>
    obtain ⟨ho,⟨⟩⟩ := Option.ite_none_right_eq_some.mp h
    exact .wait hi ho
  | notify => contradiction
  | print line =>
    cases h
    exact .print hi
  | pause =>
    cases h
    exact .pause hi

theorem moves_of_step {s t : State ι ω} {a : Action ι} (h : step s a = some t) : Moves s a t := by
  cases a with
  | run i =>
    simp only [step,resume] at h
    split at h
    · next hi => exact moves_of_execute hi h
    · next hi =>
      obtain ⟨ho,⟨⟩⟩ := Option.ite_none_right_eq_some.mp h
      exact .resume hi ho
    · contradiction
  | notify i woken =>
    simp only [step,notify] at h
    split at h
    · next rest hi =>
      obtain ⟨ho,h⟩ := Option.ite_none_right_eq_some.mp h
      cases woken with
      | none =>
        obtain ⟨hall,⟨⟩⟩ := Option.ite_none_right_eq_some.mp h
        exact .notifyNone hi ho hall
      | some j =>
        obtain ⟨u,hu,rfl⟩ := Option.map_eq_some_iff.mp h
        obtain ⟨hj,⟨⟩⟩ := Option.ite_none_right_eq_some.mp hu
        exact .notifyOne hi ho hj
    · contradiction
  | wake j =>
    obtain ⟨hj,⟨⟩⟩ := Option.ite_none_right_eq_some.mp h
    exact .wake hj

/-- What the step function does is what the cases above say. -/
theorem step_of_moves {s t : State ι ω} {a : Action ι} (h : Moves s a t) : step s a = some t := by
  cases h with
  | start hi hj => simp [step,resume,hi,execute,hj]
  | enter hi ho => simp [step,resume,hi,execute,ho]
  | exit hi ho => simp [step,resume,hi,execute,ho]
  | wait hi ho => simp [step,resume,hi,execute,ho]
  | print hi => simp [step,resume,hi,execute]
  | pause hi => simp [step,resume,hi,execute]
  | resume hi ho => simp [step,resume,hi,ho]
  | notifyOne hi ho hj => simp [step,notify,hi,ho,wakeUp,hj]
  | notifyNone hi ho hall => simp [step,notify,hi,ho,hall]
  | wake hj => simp [step,wakeUp,hj]

end Machine

/-! ## What one step does to one thread -/

section Threads
variable {ι ω : Type*} [DecidableEq ι]

theorem put_self (threads : ι → Thread ι ω) (i : ι) (code : List (Instr ι ω)) (status : Status) :
    put threads i code status i = ⟨code,status⟩ := Function.update_self ..

theorem put_of_ne {threads : ι → Thread ι ω} {i k : ι} {code : List (Instr ι ω)} {status : Status}
    (h : k ≠ i) : put threads i code status k = threads k := Function.update_of_ne h ..

/-- `k` takes its next instruction, goes from one status to another, or stays as it is. -/
inductive Became (a : Action ι) (k : ι) : Thread ι ω → Thread ι ω → Prop
  | same (x : Thread ι ω) : Became a k x x
  | pops {instr : Instr ι ω} {rest : List (Instr ι ω)} (hwait : instr ≠ .wait)
      (hnotify : instr = .notify → ∃ w, a = .notify k w) :
      Became a k ⟨instr :: rest,.running⟩ ⟨rest,.running⟩
  | waits (rest : List (Instr ι ω)) : Became a k ⟨.wait :: rest,.running⟩ ⟨rest,.waiting⟩
  | starts (code : List (Instr ι ω)) : Became a k ⟨code,.fresh⟩ ⟨code,.running⟩
  | wakes (code : List (Instr ι ω)) (ha : (∃ i, a = .notify i (some k)) ∨ a = .wake k) :
      Became a k ⟨code,.waiting⟩ ⟨code,.notified⟩
  | resumes (code : List (Instr ι ω)) : Became a k ⟨code,.notified⟩ ⟨code,.running⟩

theorem became_put {a : Action ι} {threads : ι → Thread ι ω} {i k : ι} {code : List (Instr ι ω)}
    {status : Status} (hi : k = i → Became a i (threads i) ⟨code,status⟩) :
    Became a k (threads k) (put threads i code status k) := by
  rcases eq_or_ne k i with rfl | hk
  · rw [put_self]
    exact hi rfl
  · rw [put_of_ne hk]
    exact .same _

theorem became_of_moves {s t : State ι ω} {a : Action ι} (h : Moves s a t) (k : ι) :
    Became a k (s.threads k) (t.threads k) := by
  cases h with
  | @start i j rest hi hj =>
    rcases eq_or_ne k j with rfl | hk
    · have hne : k ≠ i := by
        rintro rfl
        rw [hi] at hj
        contradiction
      have hk : s.threads k = ⟨s.code k,.fresh⟩ := by
        rw [← hj]
        rfl
      have hput : setStatus (put s.threads i rest .running) k .running k = ⟨s.code k,.running⟩ := by
        rw [setStatus,put_self,put_of_ne hne]
        rfl
      change Became _ _ _ (setStatus (put s.threads i rest .running) k .running k)
      rw [hput,hk]
      exact .starts _
    · have hput : setStatus (put s.threads i rest .running) j .running k =
          put s.threads i rest .running k := put_of_ne hk
      change Became _ _ _ (setStatus (put s.threads i rest .running) j .running k)
      rw [hput]
      exact became_put fun _ => hi ▸ .pops (by simp) (by simp)
  | @enter i rest hi ho => exact became_put fun _ => hi ▸ .pops (by simp) (by simp)
  | @exit i rest hi ho => exact became_put fun _ => hi ▸ .pops (by simp) (by simp)
  | @wait i rest hi ho => exact became_put fun _ => hi ▸ .waits rest
  | @print i line rest hi => exact became_put fun _ => hi ▸ .pops (by simp) (by simp)
  | @pause i rest hi => exact became_put fun _ => hi ▸ .pops (by simp) (by simp)
  | @resume i code hi ho => exact became_put fun _ => hi ▸ .resumes code
  | @notifyOne i j rest hi ho hj =>
    have hj' : s.threads j = ⟨s.code j,.waiting⟩ := by
      rw [← hj]
      rfl
    change Became _ _ _ (put (setStatus s.threads j .notified) i rest .running k)
    rcases eq_or_ne k i with rfl | hk
    · rw [put_self,hi]
      exact .pops (by simp) (fun _ => ⟨some j,rfl⟩)
    · rw [put_of_ne hk]
      exact became_put fun _ => hj' ▸ .wakes _ (Or.inl ⟨i,rfl⟩)
  | @notifyNone i rest hi ho hall =>
    exact became_put fun _ => hi ▸ .pops (by simp) (fun _ => ⟨none,rfl⟩)
  | @wake j hj =>
    have hj' : s.threads j = ⟨s.code j,.waiting⟩ := by
      rw [← hj]
      rfl
    refine became_put fun _ => ?_
    rw [hj']
    exact .wakes _ (Or.inr rfl)

end Threads

/-! ## Each thread prints what its code says -/

section Output
variable {ι ω : Type*} [DecidableEq ι]

def prints : List (Instr ι ω) → List ω :=
  List.filterMap (fun instr => match instr with
    | .print line => some line
    | _ => none)

/-- What comes from `i`, in order. -/
def own {α : Type*} (i : ι) (out : List (ι × α)) : List α :=
  out.filterMap (fun p => if p.1 = i then some p.2 else none)

theorem own_append {α : Type*} (i : ι) (out more : List (ι × α)) :
    own i (out ++ more) = own i out ++ own i more := List.filterMap_append

theorem mem_own {α : Type*} {i : ι} {out : List (ι × α)} {x : α} : x ∈ own i out ↔ (i,x) ∈ out := by
  rw [own,List.mem_filterMap]
  constructor
  · rintro ⟨⟨j,y⟩,hmem,h⟩
    obtain ⟨rfl,rfl⟩ : j = i ∧ y = x := by simpa using h
    exact hmem
  · intro hmem
    exact ⟨(i,x),hmem,if_pos rfl⟩

theorem own_map_self {α : Type*} (i : ι) (xs : List α) : own i (xs.map (i,·)) = xs := by
  rw [own,List.filterMap_map]
  simp

theorem own_map_of_ne {α : Type*} {i j : ι} (h : j ≠ i) (xs : List α) :
    own i (xs.map (j,·)) = [] := by
  rw [own,List.filterMap_map]
  simp [h]

theorem put_code (threads : ι → Thread ι ω) (i : ι) (code : List (Instr ι ω)) (status : Status) :
    (fun k => (put threads i code status k).code) =
      Function.update (fun k => (threads k).code) i code := by
  funext k
  rcases eq_or_ne k i with rfl | hk
  · rw [put_self,Function.update_self]
  · rw [put_of_ne hk,Function.update_of_ne hk]

theorem setStatus_code (threads : ι → Thread ι ω) (i : ι) (status : Status) :
    (fun k => (setStatus threads i status k).code) = fun k => (threads k).code :=
  (put_code ..).trans (Function.update_eq_self ..)

/-- A step takes at most the first instruction off one thread's code, and prints what that
says. -/
theorem code_of_moves {s t : State ι ω} {a : Action ι} (h : Moves s a t) :
    (t.code = s.code ∧ t.output = s.output) ∨
      ∃ i instr rest, s.code i = instr :: rest ∧ t.code = Function.update s.code i rest ∧
        t.output = s.output ++ (prints [instr]).map (i,·) := by
  cases h with
  | @start i j rest hi hj =>
    exact Or.inr ⟨i,.start j,rest,congrArg Thread.code hi,(setStatus_code ..).trans (put_code ..),
      by simp [prints]⟩
  | @enter i rest hi ho =>
    exact Or.inr ⟨i,.enter,rest,congrArg Thread.code hi,put_code ..,by simp [prints]⟩
  | @exit i rest hi ho =>
    exact Or.inr ⟨i,.exit,rest,congrArg Thread.code hi,put_code ..,by simp [prints]⟩
  | @wait i rest hi ho =>
    exact Or.inr ⟨i,.wait,rest,congrArg Thread.code hi,put_code ..,by simp [prints]⟩
  | @print i line rest hi =>
    exact Or.inr ⟨i,.print line,rest,congrArg Thread.code hi,put_code ..,rfl⟩
  | @pause i rest hi =>
    exact Or.inr ⟨i,.pause,rest,congrArg Thread.code hi,put_code ..,by simp [prints]⟩
  | @resume i code hi ho =>
    obtain rfl : (s.threads i).code = code := congrArg Thread.code hi
    exact Or.inl ⟨setStatus_code ..,rfl⟩
  | @notifyOne i j rest hi ho hj =>
    have hcode := (put_code (setStatus s.threads j .notified) i rest .running).trans
      (congrArg (Function.update · i rest) (setStatus_code ..))
    exact Or.inr ⟨i,.notify,rest,congrArg Thread.code hi,hcode,by simp [prints]⟩
  | @notifyNone i rest hi ho hall =>
    exact Or.inr ⟨i,.notify,rest,congrArg Thread.code hi,put_code ..,by simp [prints]⟩
  | @wake j hj => exact Or.inl ⟨setStatus_code ..,rfl⟩

theorem output_of_moves {s t : State ι ω} {a : Action ι} (h : Moves s a t) :
    t.output = s.output ∨ ∃ i line rest, s.threads i = ⟨.print line :: rest,.running⟩ ∧
      t.output = s.output ++ [(i,line)] := by
  cases h with
  | @print i line rest hi => exact Or.inr ⟨i,line,rest,hi,rfl⟩
  | _ => exact Or.inl rfl

theorem suffix_of_moves {s t : State ι ω} {a : Action ι} (h : Moves s a t) (k : ι) :
    t.code k <:+ s.code k := by
  rcases code_of_moves h with ⟨hcode,_⟩ | ⟨i,instr,rest,hi,hcode,_⟩
  · rw [hcode]
  · rw [hcode]
    rcases eq_or_ne k i with rfl | hk
    · rw [Function.update_self,hi]
      exact List.suffix_cons instr rest
    · rw [Function.update_of_ne hk]

theorem own_prints_of_moves {s t : State ι ω} {a : Action ι} (h : Moves s a t) (k : ι) :
    own k t.output ++ prints (t.code k) = own k s.output ++ prints (s.code k) := by
  rcases code_of_moves h with ⟨hcode,hout⟩ | ⟨i,instr,rest,hi,hcode,hout⟩
  · rw [hcode,hout]
  · rw [hcode,hout,own_append]
    rcases eq_or_ne i k with rfl | hk
    · have hprints : prints (s.code i) = prints [instr] ++ prints rest := by
        rw [hi,← List.singleton_append,prints,List.filterMap_append]
      rw [Function.update_self,own_map_self,hprints,List.append_assoc]
    · rw [Function.update_of_ne hk.symm,own_map_of_ne hk,List.append_nil]

variable [Fintype ι]

/-- Up to now each thread has printed what the part of its program says that it has run. -/
theorem own_prints_of_run {program : ι → List (Instr ι ω)} {main : ι} {s : State ι ω}
    (h : Reachable step (init program main) s) (k : ι) :
    own k s.output ++ prints (s.code k) = prints (program k) :=
  h.invariant (P := fun s => own k s.output ++ prints (s.code k) = prints (program k))
    (fun _ _ _ hs ht => (own_prints_of_moves (moves_of_step ht) k).trans hs) rfl

end Output
end SunshineService.Monitor
