import SunshineService.Javathread.SleepTest

/-! # The thread demonstration that loops without the monitor

In `JoinTest` nothing is synchronized, and a thread that joins itself only lets its time
pass. The lines of the threads may come in any order that keeps each thread's own.
-/
namespace SunshineService.Javathread
open TransitionRun Monitor
variable {n : ℕ}

namespace JoinTest

def ThreadA.run (name : String) : List (Instr (Id n) String) := loop (SleepTest.line name)

def main (names : Fin n → String) : Id n → List (Instr (Id n) String) :=
  launch (fun i => ThreadA.run (names i))

end JoinTest

section Unsynchronized
variable {body : Fin n → List (Instr (Id n) String)} {s : State (Id n) String}

theorem unsynchronized_code (hbody : ∀ i, ∀ instr ∈ body i, instr.plain = true) (i : Fin n) :
    .wait ∉ body i ∧ starts (body i) = [] :=
  ⟨fun h => absurd (hbody i _ h) (by simp [Instr.plain]),starts_plain (hbody i)⟩

theorem finished_unsynchronized (hbody : ∀ i, ∀ instr ∈ body i, instr.plain = true)
    (h : Reachable step (init (launch body) none) s) (hstuck : Stuck s) : Finished s := by
  have hbrackets : ∀ k, brackets (fun _ => false) false (launch body k) = true := by
    rintro (_ | i)
    · exact brackets_starts ..
    · have hinside : brackets (fun _ => false) false (body i ++ []) =
          brackets (fun _ => false) false ([] : List (Instr (Id n) String)) :=
        brackets_plain (hbody i) (Or.inr fun _ => rfl)
      rwa [List.append_nil] at hinside
  obtain ⟨done,lines,hs⟩ := serial_of_reachable hbrackets h
  exact hstuck.finished hs (startable_launch (unsynchronized_code hbody) h)
    (awake_launch (unsynchronized_code hbody) h)

theorem prints_unsynchronized (hbody : ∀ i, ∀ instr ∈ body i, instr.plain = true)
    (out : List (Id n × String)) :
    Prints (launch body) out ↔ own none out = [] ∧ ∀ i, own (some i) out = prints (body i) := by
  constructor
  · rintro ⟨s,hs,hend,rfl⟩
    have hown : ∀ k, own k s.output = prints (launch body k) := by
      intro k
      have hk := own_prints_of_run hs k
      rw [hend k] at hk
      simpa [prints] using hk
    exact ⟨(hown none).trans (by simp [launch,prints]),fun i => hown (some i)⟩
  · rintro ⟨hnone,hsome⟩
    obtain ⟨t,ht,ho,hout,hmain,hthreads⟩ := started_launch body
    have hcode : t.code none = [] := congrArg Thread.code hmain
    have hcodes : ∀ i, t.code (some i) = body i := fun i => congrArg Thread.code (hthreads i)
    have hplain : ∀ k, ∀ instr ∈ t.code k, instr.plain = true := by
      rintro (_ | i)
      · simp [hcode]
      · rw [hcodes]
        exact hbody i
    have hrunning : ∀ k, (t.threads k).status = .running := by
      rintro (_ | i)
      · exact congrArg Thread.status hmain
      · exact congrArg Thread.status (hthreads i)
    have hown : ∀ k, own k out = prints (t.code k) := by
      rintro (_ | i)
      · rw [hnone,hcode]
        rfl
      · rw [hsome,hcodes]
    obtain ⟨s,hs,hend,hsame⟩ := reachable_interleaving hplain hrunning ho hown
    exact ⟨s,ht.trans hs,hend,by rw [hsame,hout,List.nil_append]⟩

end Unsynchronized

/-- Every interleaving of the threads' lines, and nothing else. -/
theorem join_prints_iff (names : Fin n → String) (out : List (Id n × String)) :
    Prints (JoinTest.main names) out ↔
      own none out = [] ∧ ∀ i, own (some i) out = (List.range 10).map (SleepTest.line (names i)) :=
  prints_unsynchronized (fun i => plain_loop (SleepTest.line (names i))) out

/-! ## The programs come to their end -/

/-- Nobody can go on exactly when so many steps have been made, and then every thread is at
its end. -/
def EndsAfter (steps : ℕ) (program : Id n → List (Instr (Id n) String)) : Prop :=
  ∀ as s, run step (init program none) as = some s →
    as.length ≤ steps ∧ (Stuck s ↔ as.length = steps) ∧ (Stuck s ↔ Finished s)

theorem endsAfter_launch {run : Fin n → List (Instr (Id n) String)} {k : ℕ}
    (hrun : ∀ i, .wait ∉ run i ∧ starts (run i) = []) (hlength : ∀ i, (run i).length = k)
    (hend : ∀ s, Reachable step (init (launch run) none) s → Stuck s → Finished s) :
    EndsAfter (n * (k + 1)) (launch run) := by
  intro as s hr
  have hawake := awake_launch hrun (Reachable.refl _)
  have hsum := length_of_awake hr hawake
  have htotal : ∑ i, ((init (launch run) none).code i).length = n * (k + 1) := by
    rw [Fintype.sum_option]
    simp [init,State.code,launch,hlength]
    rw [Nat.mul_succ,Nat.add_comm]
  rw [htotal] at hsum
  have hfinished : Finished s ↔ as.length = n * (k + 1) := by
    rw [finished_iff]
    omega
  have hstuck : Stuck s ↔ Finished s :=
    ⟨hend s ⟨as,hr⟩,fun h => h.stuck (awake_launch hrun ⟨as,hr⟩)⟩
  exact ⟨by omega,hstuck.trans hfinished,hstuck⟩

theorem mains_end_after (names : Fin n → String) (priority : Fin n → ℕ) :
    EndsAfter (n * 16) (SleepTest.main names) ∧ EndsAfter (n * 16) (YieldTest.main names priority) ∧
      EndsAfter (n * 14) (JoinTest.main names) := by
  refine ⟨endsAfter_launch (synchronized_code fun i => plain_loop _) (fun i => rfl) ?_,
    endsAfter_launch (synchronized_code fun i => plain_loop _) (fun i => rfl) ?_,
    endsAfter_launch (unsynchronized_code fun i => plain_loop _) (fun i => rfl) ?_⟩
  · exact fun s hs => (ends_synchronized (fun i => plain_loop _) hs).1
  · exact fun s hs => (ends_synchronized (fun i => plain_loop _) hs).1
  · exact fun s hs => finished_unsynchronized (fun i => plain_loop _) hs

end SunshineService.Javathread
