import SunshineService.Foundation.ThreadProgress

/-! # Schedules in which one thread runs alone

What the scheduler can do is shown by runs in which a thread takes several steps in a row.
-/
namespace SunshineService.Monitor
open TransitionRun
variable {ι ω : Type*} [DecidableEq ι] [Fintype ι] {s : State ι ω} {i : ι}

/-- Printing and pausing need nothing of the other threads. -/
def Instr.plain : Instr ι ω → Bool
  | .print _ => true
  | .pause => true
  | _ => false

section Code
variable {guarded : ω → Bool}

omit [DecidableEq ι] [Fintype ι] in
theorem brackets_plain {inside : Bool} {body rest : List (Instr ι ω)}
    (hbody : ∀ instr ∈ body, instr.plain = true) (h : inside = true ∨ ∀ line, guarded line = false) :
    brackets guarded inside (body ++ rest) = brackets guarded inside rest := by
  induction body with
  | nil => rfl
  | cons instr body ih =>
    have hrest := ih (fun instr' h => hbody instr' (List.mem_cons_of_mem _ h))
    cases instr with
    | print line =>
      have hguard : (inside || !guarded line) = true := by
        rcases h with rfl | h
        · rfl
        · simp [h]
      rw [List.cons_append,brackets,hguard,Bool.true_and,hrest]
    | pause => exact hrest
    | _ => exact absurd (hbody _ List.mem_cons_self) (by simp [Instr.plain])

omit [DecidableEq ι] [Fintype ι] in
theorem sections_plain {body rest : List (Instr ι ω)} (hbody : ∀ instr ∈ body, instr.plain = true) :
    sections guarded (body ++ rest) =
      prepend ((prints body).filter guarded) (sections guarded rest) := by
  induction body with
  | nil => simp [prints]
  | cons instr body ih =>
    have hrest := ih (fun instr' h => hbody instr' (List.mem_cons_of_mem _ h))
    cases instr with
    | print line =>
      by_cases hline : guarded line = true <;>
        simp [sections,hrest,prints,hline,prepend_prepend]
    | pause => simpa [sections,prints] using hrest
    | _ => exact absurd (hbody _ List.mem_cons_self) (by simp [Instr.plain])

omit [DecidableEq ι] [Fintype ι] in
theorem brackets_starts (inside : Bool) (js : List ι) :
    brackets guarded inside (js.map .start) = !inside := by
  induction js with
  | nil => rfl
  | cons j js ih => exact ih

omit [DecidableEq ι] [Fintype ι] in
theorem sections_starts (js : List ι) : sections guarded (js.map .start) = [[]] := by
  induction js with
  | nil => rfl
  | cons j js ih => exact ih

omit [DecidableEq ι] [Fintype ι] in
theorem starts_starts (js : List ι) : starts (js.map Instr.start : List (Instr ι ω)) = js := by
  simp [starts]

omit [DecidableEq ι] [Fintype ι] in
theorem starts_plain {body : List (Instr ι ω)} (hbody : ∀ instr ∈ body, instr.plain = true) :
    starts body = [] := by
  refine List.filterMap_eq_nil_iff.mpr fun instr h => ?_
  have hplain := hbody instr h
  cases instr with
  | start j => contradiction
  | _ => rfl

end Code

omit [Fintype ι] in
theorem put_put (threads : ι → Thread ι ω) (i : ι) (code code' : List (Instr ι ω))
    (status status' : Status) :
    put (put threads i code status) i code' status' = put threads i code' status' :=
  Function.update_idem ..

theorem reachable_plain {body rest : List (Instr ι ω)} (hbody : ∀ instr ∈ body, instr.plain = true)
    (hi : s.threads i = ⟨body ++ rest,.running⟩) :
    Reachable step s { s with
      threads := put s.threads i rest .running
      output := s.output ++ (prints body).map (i,·) } := by
  induction body generalizing s with
  | nil =>
    have hself : put s.threads i rest .running = s.threads := by
      rw [put,← List.nil_append rest,← hi]
      exact Function.update_eq_self ..
    rw [hself]
    simpa [prints] using Reachable.refl s
  | cons instr body ih =>
    have hrest := fun instr' h => hbody instr' (List.mem_cons_of_mem _ h)
    cases instr with
    | print line =>
      have hone := Reachable.single (step_of_moves (.print hi))
      have hmore := ih (s := { s with
        threads := put s.threads i (body ++ rest) .running
        output := s.output ++ [(i,line)] }) hrest (put_self ..)
      simpa [put_put,prints] using hone.trans hmore
    | pause =>
      have hone := Reachable.single (step_of_moves (.pause hi))
      have hmore := ih (s := { s with threads := put s.threads i (body ++ rest) .running }) hrest
        (put_self ..)
      simpa [put_put,prints] using hone.trans hmore
    | _ => exact absurd (hbody _ List.mem_cons_self) (by simp [Instr.plain])

/-- A block of plain code, from taking the monitor to giving it back. -/
theorem reachable_block {body rest : List (Instr ι ω)} (hbody : ∀ instr ∈ body, instr.plain = true)
    (hi : s.threads i = ⟨.enter :: body ++ .exit :: rest,.running⟩) (ho : s.owner = none) :
    Reachable step s { s with
      threads := put s.threads i rest .running
      output := s.output ++ (prints body).map (i,·) } := by
  have henter := Reachable.single (step_of_moves (.enter hi ho))
  have hplain := reachable_plain (s := { s with
    threads := put s.threads i (body ++ .exit :: rest) .running
    owner := some i }) hbody (put_self ..)
  have hexit := Reachable.single (step_of_moves (Moves.exit (s := ⟨put s.threads i (.exit :: rest) .running,
    some i,s.output ++ (prints body).map (i,·)⟩) (put_self ..) rfl))
  rw [put_put] at hplain hexit
  have hall := (henter.trans hplain).trans hexit
  rwa [← ho] at hall

/-- Threads that can each run to their end alone can do so in any order. -/
theorem reachable_inTurn {code : ι → List (Instr ι ω)} {lines : ι → List ω} {order : List ι}
    (hone : ∀ i ∈ order, ∀ s : State ι ω, s.threads i = ⟨code i,.running⟩ → s.owner = none →
      Reachable step s { s with
        threads := put s.threads i [] .running
        output := s.output ++ (lines i).map (i,·) })
    (hnodup : order.Nodup) (horder : ∀ i ∈ order, s.threads i = ⟨code i,.running⟩)
    (ho : s.owner = none) :
    ∃ t, Reachable step s t ∧ t.output = s.output ++ order.flatMap (fun i => (lines i).map (i,·)) ∧
      ∀ k, t.code k = if k ∈ order then [] else s.code k := by
  induction order generalizing s with
  | nil => exact ⟨s,Reachable.refl s,by simp,by simp⟩
  | cons i order ih =>
    obtain ⟨hnot,hnodup⟩ := List.nodup_cons.mp hnodup
    have hfirst := hone i List.mem_cons_self s (horder i List.mem_cons_self) ho
    obtain ⟨t,ht,hout,hcode⟩ := ih (s := { s with
      threads := put s.threads i [] .running
      output := s.output ++ (lines i).map (i,·) }) (fun j hj => hone j (List.mem_cons_of_mem _ hj)) hnodup
        (fun j hj => (put_of_ne (ne_of_mem_of_not_mem hj hnot)).trans
          (horder j (List.mem_cons_of_mem _ hj))) ho
    refine ⟨t,hfirst.trans ht,by simp [hout],fun k => ?_⟩
    rw [hcode]
    by_cases hk : k = i
    · subst hk
      simp [hnot,State.code,put_self]
    · simp [hk,State.code,put_of_ne hk]

/-! ## Threads without a monitor -/

omit [DecidableEq ι] [Fintype ι] in
theorem prints_eq_cons {code : List (Instr ι ω)} {line : ω} {lines : List ω}
    (h : prints code = line :: lines) :
    ∃ body rest, code = body ++ .print line :: rest ∧ prints body = [] ∧ prints rest = lines := by
  induction code with
  | nil => contradiction
  | cons instr code ih =>
    cases instr with
    | print first =>
      obtain ⟨rfl,rfl⟩ : first = line ∧ prints code = lines := by simpa [prints] using h
      exact ⟨[],code,rfl,rfl,rfl⟩
    | _ =>
      obtain ⟨body,rest,rfl,hbody,hrest⟩ := ih (by simpa [prints] using h)
      exact ⟨_ :: body,rest,rfl,by simpa [prints] using hbody,hrest⟩

omit [DecidableEq ι] [Fintype ι] in
theorem prints_append (code more : List (Instr ι ω)) :
    prints (code ++ more) = prints code ++ prints more := List.filterMap_append

/-- Whatever order the lines of the threads come in, the scheduler can bring it about. -/
theorem reachable_interleaving {out : List (ι × ω)}
    (hplain : ∀ i, ∀ instr ∈ s.code i, instr.plain = true)
    (hrunning : ∀ i, (s.threads i).status = .running) (ho : s.owner = none)
    (hout : ∀ i, own i out = prints (s.code i)) :
    ∃ t, Reachable step s t ∧ Finished t ∧ t.output = s.output ++ out := by
  induction out generalizing s with
  | nil =>
    have hone : ∀ i ∈ Finset.univ.toList, ∀ u : State ι ω, u.threads i = ⟨s.code i,.running⟩ →
        u.owner = none → Reachable step u { u with
          threads := put u.threads i [] .running
          output := u.output ++ [].map (i,·) } := by
      intro i _ u hi _
      have hnone : prints (s.code i) = [] := (hout i).symm
      rw [← List.append_nil (s.code i)] at hi
      have hrun := reachable_plain (hplain i) hi
      rwa [hnone] at hrun
    obtain ⟨t,ht,hsame,hcode⟩ := reachable_inTurn hone (Finset.nodup_toList Finset.univ)
      (fun i _ => by rw [← hrunning i]; rfl) ho
    exact ⟨t,ht,fun i => by simp [hcode],by simp [hsame]⟩
  | cons p out ih =>
    obtain ⟨i,line⟩ := p
    have hlines : prints (s.code i) = line :: own i out := by simp [← hout i,own]
    obtain ⟨body,rest,hcode,hbody,hrest⟩ := prints_eq_cons hlines
    have hi : s.threads i = ⟨(body ++ [.print line]) ++ rest,.running⟩ := by
      rw [← hrunning i,List.append_assoc,List.singleton_append,← hcode]
      rfl
    have hmem := hplain i
    simp only [hcode,List.mem_append,List.mem_cons] at hmem
    have hrun := reachable_plain (fun instr h => hmem instr (by
      rcases List.mem_append.mp h with h | h
      · exact Or.inl h
      · exact Or.inr (Or.inl (List.mem_singleton.mp h)))) hi
    have hprints : prints (body ++ [.print line]) = [line] := by rw [prints_append,hbody]; rfl
    rw [hprints] at hrun
    have hplain' : ∀ k, ∀ instr ∈ (put s.threads i rest .running k).code, instr.plain = true := by
      intro k
      rcases eq_or_ne k i with rfl | hk
      · rw [put_self]
        exact fun instr h => hmem instr (Or.inr (Or.inr h))
      · rw [put_of_ne hk]
        exact hplain k
    have hrunning' : ∀ k, (put s.threads i rest .running k).status = .running := by
      intro k
      rcases eq_or_ne k i with rfl | hk
      · rw [put_self]
      · rw [put_of_ne hk]
        exact hrunning k
    have hout' : ∀ k, own k out = prints (put s.threads i rest .running k).code := by
      intro k
      have hk := hout k
      rcases eq_or_ne k i with rfl | hne
      · rw [put_self]
        exact hrest.symm
      · rw [put_of_ne hne,← State.code,← hk]
        simp [own,hne.symm]
    obtain ⟨t,ht,hfinished,hsame⟩ := ih (s := { s with
      threads := put s.threads i rest .running
      output := s.output ++ [line].map (i,·) }) hplain' hrunning' ho hout'
    exact ⟨t,hrun.trans ht,hfinished,by simp [hsame]⟩

/-! ## Starting the threads -/

theorem reachable_started {main : ι} {js : List ι} (hmain : s.threads main = ⟨js.map .start,.running⟩)
    (hfresh : ∀ j ∈ js, (s.threads j).status = .fresh) (hnodup : js.Nodup) :
    ∃ t, Reachable step s t ∧ t.owner = s.owner ∧ t.output = s.output ∧
      t.threads main = ⟨[],.running⟩ ∧
      ∀ k ≠ main, t.threads k = if k ∈ js then ⟨s.code k,.running⟩ else s.threads k := by
  induction js generalizing s with
  | nil => exact ⟨s,Reachable.refl s,rfl,rfl,hmain,by simp⟩
  | cons j js ih =>
    obtain ⟨hnot,hnodup⟩ := List.nodup_cons.mp hnodup
    have hj := hfresh j List.mem_cons_self
    have hne : main ≠ j := by
      rintro rfl
      rw [hmain] at hj
      contradiction
    have hstart := Reachable.single (step_of_moves (.start hmain hj))
    have hrest : ∀ k ≠ main, k ≠ j →
        setStatus (put s.threads main (js.map .start) .running) j .running k = s.threads k :=
      fun k hk hkj => (put_of_ne hkj).trans (put_of_ne hk)
    obtain ⟨t,ht,howner,hout,htmain,hthreads⟩ := ih (s := { s with
      threads := setStatus (put s.threads main (js.map .start) .running) j .running })
        ((put_of_ne hne).trans (put_self ..)) (fun k hk => by
          have hkmain : k ≠ main := by
            rintro rfl
            have hfresh' := hfresh k (List.mem_cons_of_mem _ hk)
            rw [hmain] at hfresh'
            contradiction
          exact (congrArg Thread.status (hrest k hkmain (ne_of_mem_of_not_mem hk hnot))).trans
            (hfresh k (List.mem_cons_of_mem _ hk))) hnodup
    refine ⟨t,hstart.trans ht,howner,hout,htmain,fun k hk => ?_⟩
    rw [hthreads k hk,State.code]
    rcases eq_or_ne k j with rfl | hkj
    · simp [hnot,setStatus,put_self,put_of_ne hk,State.code]
    · simp [hkj,hrest k hk hkj,State.code]

end SunshineService.Monitor
