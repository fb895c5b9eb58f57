import SunshineService.Foundation.ThreadRuns

/-! # The thread demonstrations that loop inside `synchronized (obj)`

`SleepTest` and `YieldTest` start threads that each print ten lines and pause after the
first, the fifth and the ninth. What the program may print is exactly one thread's lines
after another's, whatever the scheduler does and although a thread pauses inside the block.
-/
namespace SunshineService.Javathread
open TransitionRun Monitor
variable {n : ℕ}

/-- One thread is `main`, the others are those that it makes. -/
abbrev Id (n : ℕ) := Option (Fin n)

/-- `pause` is the sleep, the yield or the join of the thread with itself, which gives up
after its time: none of them gives the monitor back. -/
def loop (line : ℕ → String) : List (Instr (Id n) String) :=
  (List.range 10).flatMap (fun i => .print (line i) :: if i % 4 = 0 then [.pause] else [])

def synchronized (body : List (Instr (Id n) String)) : List (Instr (Id n) String) :=
  .enter :: body ++ [.exit]

/-- `main` starts the threads one after the other. -/
def launch (run : Fin n → List (Instr (Id n) String)) : Id n → List (Instr (Id n) String)
  | none => ((List.finRange n).map some).map .start
  | some i => run i

namespace SleepTest

def line (name : String) (i : ℕ) : String := name ++ ": " ++ toString i ++ "\n"

def ThreadA.run (name : String) : List (Instr (Id n) String) := synchronized (loop (line name))

/-- The source has two threads, t1 and t2. -/
def main (names : Fin n → String) : Id n → List (Instr (Id n) String) :=
  launch (fun i => ThreadA.run (names i))

end SleepTest

namespace YieldTest

def line (name : String) (priority i : ℕ) : String :=
  name ++ " [" ++ toString priority ++ "]:" ++ toString i ++ "\n"

def ThreadA.run (name : String) (priority : ℕ) : List (Instr (Id n) String) :=
  synchronized (loop (line name priority))

def main (names : Fin n → String) (priority : Fin n → ℕ) : Id n → List (Instr (Id n) String) :=
  launch (fun i => ThreadA.run (names i) (priority i))

end YieldTest

theorem plain_loop (line : ℕ → String) : ∀ instr ∈ loop (n := n) line, instr.plain = true := by
  intro instr h
  obtain ⟨i,_,hi⟩ := List.mem_flatMap.mp h
  rcases List.mem_cons.mp hi with rfl | hi
  · rfl
  · split at hi
    · obtain rfl := List.mem_singleton.mp hi
      rfl
    · contradiction

theorem prints_loop (line : ℕ → String) :
    prints (loop (n := n) line) = (List.range 10).map line := rfl

section Launch
variable {run : Fin n → List (Instr (Id n) String)} {s : State (Id n) String}

/-- Every thread is started, and only by `main`. -/
theorem startable_launch (hrun : ∀ i, .wait ∉ run i ∧ starts (run i) = [])
    (h : Reachable step (init (launch run) none) s) : Startable none s := by
  have hstarts : starts (launch run none) = (List.finRange n).map some := starts_starts _
  refine startable_of_reachable ?_ ?_ ?_ ?_ h
  · simp [launch]
  · intro j
    rw [hstarts]
    cases j <;> simp
  · rw [hstarts]
    exact (List.nodup_finRange n).map (Option.some_injective _)
  · rintro (_ | i) hi
    · contradiction
    · exact (hrun i).2

theorem awake_launch (hrun : ∀ i, .wait ∉ run i ∧ starts (run i) = [])
    (h : Reachable step (init (launch run) none) s) (k : Id n) : Awake s k := by
  refine awake_of_reachable ?_ h
  cases k with
  | none => simp [launch]
  | some i => exact (hrun i).1

theorem started_launch (run : Fin n → List (Instr (Id n) String)) :
    ∃ t, Reachable step (init (launch run) none) t ∧ t.owner = none ∧ t.output = [] ∧
      t.threads none = ⟨[],.running⟩ ∧ ∀ i, t.threads (some i) = ⟨run i,.running⟩ := by
  have hmain : (init (launch run) none).threads none =
      ⟨((List.finRange n).map some).map .start,.running⟩ := rfl
  obtain ⟨t,ht,ho,hout,hmain,hthreads⟩ := reachable_started hmain (by simp [init])
    ((List.nodup_finRange n).map (Option.some_injective _))
  refine ⟨t,ht,ho,hout,hmain,fun i => ?_⟩
  rw [hthreads (some i) (by simp),if_pos (by simp)]
  rfl

end Launch

/-! ## Threads that do everything inside the monitor -/

section Synchronized
variable {body : Fin n → List (Instr (Id n) String)} {s : State (Id n) String}

/-- The lines of one thread. -/
def linesOf (body : Fin n → List (Instr (Id n) String)) (i : Fin n) : List (Id n × String) :=
  (prints (body i)).map (some i,·)

theorem synchronized_code (hbody : ∀ i, ∀ instr ∈ body i, instr.plain = true) (i : Fin n) :
    .wait ∉ synchronized (body i) ∧ starts (synchronized (body i)) = [] := by
  constructor
  · intro h
    simp only [synchronized,List.cons_append,List.mem_cons,List.mem_append,List.not_mem_nil,
      or_false,reduceCtorEq,false_or] at h
    exact absurd (hbody i _ h) (by simp [Instr.plain])
  · have hnone := starts_plain (hbody i)
    simpa [synchronized,starts] using hnone

theorem serial_synchronized (hbody : ∀ i, ∀ instr ∈ body i, instr.plain = true)
    (h : Reachable step (init (launch fun i => synchronized (body i)) none) s) :
    ∃ done lines, Serial (fun _ => true) (launch fun i => synchronized (body i)) s done lines := by
  refine serial_of_reachable ?_ h
  rintro (_ | i)
  · exact brackets_starts ..
  · have hinside : brackets (fun _ => true) true (body i ++ [.exit]) =
        brackets (fun _ => true) true [.exit] := brackets_plain (hbody i) (Or.inl rfl)
    exact hinside

theorem sections_synchronized (hbody : ∀ i, ∀ instr ∈ body i, instr.plain = true)
    (hprints : ∀ i, prints (body i) ≠ []) (i : Fin n) :
    (sections (fun _ => true) (synchronized (body i))).filter hasLines = [prints (body i)] := by
  have hinside : sections (fun _ => true) (body i ++ [.exit]) =
      prepend ((prints (body i)).filter (fun _ => true)) (sections (fun _ => true) [.exit]) :=
    sections_plain (hbody i)
  rw [List.filter_true] at hinside
  have hsections : sections (fun _ => true) (synchronized (body i)) = [prints (body i),[]] := by
    simpa [synchronized,sections,prepend] using hinside
  rw [hsections]
  simp [List.filter_cons,hasLines,hprints i]

/-- What is printed is a beginning of the threads' lines, one thread after the other. -/
theorem output_synchronized (hbody : ∀ i, ∀ instr ∈ body i, instr.plain = true)
    (hprints : ∀ i, prints (body i) ≠ [])
    (h : Reachable step (init (launch fun i => synchronized (body i)) none) s) :
    ∃ order : List (Fin n), order.Nodup ∧ s.output <+: order.flatMap (linesOf body) ∧
      (Finished s → (∀ i, i ∈ order) ∧ s.output = order.flatMap (linesOf body)) := by
  obtain ⟨done,lines,hs⟩ := serial_synchronized hbody h
  have horder := hs.exists_order (Option.some_injective (Fin n)) ?_
    (sections_synchronized hbody hprints)
  · simp only [List.filter_true] at horder
    exact horder
  · rintro (_ | i) hi
    · rw [launch,sections_starts]
      rfl
    · exact absurd ⟨i,rfl⟩ hi

/-- Every order of the threads can come about. -/
theorem exists_synchronized (hbody : ∀ i, ∀ instr ∈ body i, instr.plain = true)
    {order : List (Fin n)} (hnodup : order.Nodup) (hall : ∀ i, i ∈ order) :
    ∃ s, Reachable step (init (launch fun i => synchronized (body i)) none) s ∧ Finished s ∧
      s.output = order.flatMap (linesOf body) := by
  obtain ⟨t,ht,ho,hout,hmain,hthreads⟩ := started_launch (fun i => synchronized (body i))
  have hone : ∀ k ∈ order.map some, ∀ u : State (Id n) String,
      u.threads k = ⟨launch (fun i => synchronized (body i)) k,.running⟩ → u.owner = none →
        Reachable step u { u with
          threads := put u.threads k [] .running
          output := u.output ++ (k.elim [] (fun i => prints (body i))).map (k,·) } := by
    intro k hk u hu huo
    obtain ⟨i,_,rfl⟩ := List.mem_map.mp hk
    exact reachable_block (hbody i) hu huo
  have hstarted : ∀ k ∈ order.map some,
      t.threads k = ⟨launch (fun i => synchronized (body i)) k,.running⟩ := by
    intro k hk
    obtain ⟨i,_,rfl⟩ := List.mem_map.mp hk
    exact hthreads i
  obtain ⟨s,hs,hsout,hscode⟩ :=
    reachable_inTurn hone (hnodup.map (Option.some_injective _)) hstarted ho
  refine ⟨s,ht.trans hs,?_,?_⟩
  · rintro (_ | i)
    · rw [hscode,if_neg (by simp),State.code,hmain]
    · rw [hscode,if_pos (by simp [hall])]
  · rw [hsout,hout,List.nil_append,List.flatMap_map]
    rfl

/-- There is always a way to the end, and where nobody can go on all threads are there. -/
theorem ends_synchronized (hbody : ∀ i, ∀ instr ∈ body i, instr.plain = true)
    (h : Reachable step (init (launch fun i => synchronized (body i)) none) s) :
    (Stuck s → Finished s) ∧ ∃ t, Reachable step s t ∧ Finished t := by
  have hend : ∀ t, Reachable step (init (launch fun i => synchronized (body i)) none) t → Stuck t →
      Finished t := by
    intro t ht hstuck
    obtain ⟨done,lines,hs⟩ := serial_synchronized hbody ht
    exact hstuck.finished hs (startable_launch (synchronized_code hbody) ht)
      (awake_launch (synchronized_code hbody) ht)
  refine ⟨hend s h,?_⟩
  obtain ⟨as,t,hr,_,hstuck⟩ := exists_stuck s
  exact ⟨t,⟨as,hr⟩,hend t (h.trans ⟨as,hr⟩) hstuck⟩

end Synchronized

/-! ## What the programs print -/

/-- What the program may have printed when all its threads are at their end. -/
def Prints (program : Id n → List (Instr (Id n) String)) (out : List (Id n × String)) : Prop :=
  ∃ s, Reachable step (init program none) s ∧ Finished s ∧ s.output = out

/-- Each thread prints its ten lines, and nobody prints in between. -/
def OneAfterAnother (line : Fin n → ℕ → String) (out : List (Id n × String)) : Prop :=
  ∃ order : List (Fin n), order.Nodup ∧ (∀ i, i ∈ order) ∧
    out = order.flatMap (fun i => (List.range 10).map (fun k => (some i,line i k)))

theorem linesOf_loop (line : Fin n → ℕ → String) :
    linesOf (fun i => loop (line i)) =
      fun i => (List.range 10).map (fun k => (some i,line i k)) := by
  funext i
  rw [linesOf,prints_loop,List.map_map]
  rfl

theorem prints_synchronized (line : Fin n → ℕ → String) (out : List (Id n × String)) :
    Prints (launch fun i => synchronized (loop (line i))) out ↔ OneAfterAnother line out := by
  have hbody := fun i => plain_loop (n := n) (line i)
  rw [OneAfterAnother,← linesOf_loop]
  constructor
  · rintro ⟨s,hs,hend,rfl⟩
    obtain ⟨order,hnodup,_,horder⟩ := output_synchronized hbody (fun i => by simp [prints_loop]) hs
    exact ⟨order,hnodup,horder hend⟩
  · rintro ⟨order,hnodup,hall,rfl⟩
    exact exists_synchronized hbody hnodup hall

theorem mains_print_iff (names : Fin n → String) (priority : Fin n → ℕ)
    (out : List (Id n × String)) :
    (Prints (SleepTest.main names) out ↔
      OneAfterAnother (fun i => SleepTest.line (names i)) out) ∧
    (Prints (YieldTest.main names priority) out ↔
      OneAfterAnother (fun i => YieldTest.line (names i) (priority i)) out) :=
  ⟨prints_synchronized _ out,prints_synchronized _ out⟩

end SunshineService.Javathread
