import Mathlib.Data.List.Basic
import Mathlib.Tactic.Common

/-! # A thread pool with a bounded queue

The documented placement of a new task: a thread below the core size, else a place in
the queue, else a thread below the maximum size, else rejection. The bounds on threads
and queue are part of the type. A worker that finishes its task waits for the queue.
-/
namespace SunshineService.ThreadPoolExecutor

structure Parameters where
  corePoolSize : ℕ
  maximumPoolSize : ℕ
  queueCapacity : ℕ
  core_pos : 1 ≤ corePoolSize
  core_le : corePoolSize ≤ maximumPoolSize
  capacity_pos : 1 ≤ queueCapacity

structure Executor (p : Parameters) (Task : Type*) where
  running : List Task
  idle : ℕ
  queue : List Task
  threads_le : running.length + idle ≤ p.maximumPoolSize
  queue_le : queue.length ≤ p.queueCapacity

variable {p : Parameters} {Task : Type*}

namespace Executor

def new : Executor p Task := ⟨[],0,[],Nat.zero_le _,Nat.zero_le _⟩

def threads (x : Executor p Task) : ℕ := x.running.length + x.idle

def addWorker (x : Executor p Task) (task : Task) (h : x.threads < p.maximumPoolSize) :
    Executor p Task :=
  { x with
    running := x.running ++ [task]
    threads_le := by
      simp only [threads] at h
      simp only [List.length_append,List.length_singleton]
      omega }

def enqueue (x : Executor p Task) (task : Task) (h : x.queue.length < p.queueCapacity) :
    Executor p Task :=
  { x with
    queue := x.queue ++ [task]
    queue_le := by
      simp only [List.length_append,List.length_singleton]
      omega }

/-- No result is a `RejectedExecutionException` of the default policy. -/
def execute (x : Executor p Task) (task : Task) : Option (Executor p Task) :=
  if hcore : x.threads < p.corePoolSize then
    some (x.addWorker task (Nat.lt_of_lt_of_le hcore p.core_le))
  else if hqueue : x.queue.length < p.queueCapacity then some (x.enqueue task hqueue)
  else if hmax : x.threads < p.maximumPoolSize then some (x.addWorker task hmax)
  else none

def finish [DecidableEq Task] (x : Executor p Task) (task : Task) : Option (Executor p Task) :=
  if h : task ∈ x.running then
    some { x with
      running := x.running.erase task
      idle := x.idle + 1
      threads_le := by
        have hle := x.threads_le
        have hpos := List.length_pos_of_mem h
        have hlength := List.length_erase_of_mem h
        omega }
  else none

/-- An idle worker takes the head of the queue. -/
def take (x : Executor p Task) : Option (Executor p Task) :=
  if hidle : 0 < x.idle then
    match hqueue : x.queue with
    | [] => none
    | task :: rest => some {
        running := x.running ++ [task]
        idle := x.idle - 1
        queue := rest
        threads_le := by
          have hle := x.threads_le
          simp only [List.length_append,List.length_singleton]
          omega
        queue_le := by
          have hle := x.queue_le
          rw [hqueue,List.length_cons] at hle
          omega }
  else none

/-- An idle worker beyond the core size ends after its keep-alive time. -/
def retire (x : Executor p Task) : Option (Executor p Task) :=
  if 0 < x.idle ∧ p.corePoolSize < x.threads then
    some { x with
      idle := x.idle - 1
      threads_le := by
        have hle := x.threads_le
        omega }
  else none

def Saturated (x : Executor p Task) : Prop :=
  x.threads = p.maximumPoolSize ∧ x.queue.length = p.queueCapacity

instance (x : Executor p Task) : Decidable x.Saturated :=
  inferInstanceAs (Decidable (x.threads = p.maximumPoolSize ∧ x.queue.length = p.queueCapacity))

theorem execute_eq_none_iff (x : Executor p Task) (task : Task) :
    x.execute task = none ↔ x.Saturated := by
  have hthreads : x.threads ≤ p.maximumPoolSize := x.threads_le
  have hqueue := x.queue_le
  have hcore := p.core_le
  unfold execute Saturated
  constructor
  · intro h
    split at h
    · contradiction
    · split at h
      · contradiction
      · split at h
        · contradiction
        · omega
  · rintro ⟨hmax,hfull⟩
    rw [dif_neg (by omega),dif_neg (by omega),dif_neg (by omega)]

def unfinished (x : Executor p Task) : ℕ := x.running.length + x.queue.length

theorem unfinished_le (x : Executor p Task) :
    x.unfinished ≤ p.maximumPoolSize + p.queueCapacity := by
  have hthreads := x.threads_le
  have hqueue := x.queue_le
  unfold unfinished
  omega

theorem unfinished_execute {x y : Executor p Task} {task : Task} (h : x.execute task = some y) :
    y.unfinished = x.unfinished + 1 := by
  unfold execute at h
  split at h
  · cases h
    simp only [unfinished,addWorker,List.length_append,List.length_singleton]
    omega
  · split at h
    · cases h
      simp only [unfinished,enqueue,List.length_append,List.length_singleton]
      omega
    · split at h
      · cases h
        simp only [unfinished,addWorker,List.length_append,List.length_singleton]
        omega
      · contradiction

end Executor
end SunshineService.ThreadPoolExecutor
