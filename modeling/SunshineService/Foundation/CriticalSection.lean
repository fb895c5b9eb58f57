import SunshineService.Foundation.Monitor

/-! # What threads print inside their monitor

A predicate says which lines a program prints only while it is inside the monitor. The
lines between taking the monitor and giving it back, be it at the end of the block or in a
wait, are one section. However the threads take their steps, the guarded lines come in
whole sections, each thread's in the order of its program; only the section of the thread
that is inside may still be open.
-/
namespace SunshineService.Monitor
open TransitionRun
variable {ι ω : Type*} [DecidableEq ι] (guarded : ω → Bool)

/-- Blocks do not nest, and the guarded lines, waits and notifies stand inside them. -/
def brackets : Bool → List (Instr ι ω) → Bool
  | inside, [] => !inside
  | inside, .start _ :: rest => brackets inside rest
  | inside, .enter :: rest => !inside && brackets true rest
  | inside, .exit :: rest => inside && brackets false rest
  | inside, .wait :: rest => inside && brackets true rest
  | inside, .notify :: rest => inside && brackets true rest
  | inside, .print line :: rest => (inside || !guarded line) && brackets inside rest
  | inside, .pause :: rest => brackets inside rest

def prepend (lines : List ω) : List (List ω) → List (List ω)
  | [] => []
  | next :: more => (lines ++ next) :: more

omit [DecidableEq ι] in
@[simp] theorem prepend_nil (all : List (List ω)) : prepend [] all = all := by
  cases all <;> rfl

theorem prepend_prepend (first second : List ω) (all : List (List ω)) :
    prepend first (prepend second all) = prepend (first ++ second) all := by
  cases all with
  | nil => rfl
  | cons next more => simp [prepend]

/-- The guarded lines up to the end of each section that is still to end. -/
def sections : List (Instr ι ω) → List (List ω)
  | [] => [[]]
  | .start _ :: rest => sections rest
  | .enter :: rest => sections rest
  | .exit :: rest => [] :: sections rest
  | .wait :: rest => [] :: sections rest
  | .notify :: rest => sections rest
  | .print line :: rest => if guarded line then prepend [line] (sections rest) else sections rest
  | .pause :: rest => sections rest

omit [DecidableEq ι] in
theorem sections_ne_nil (code : List (Instr ι ω)) : sections guarded code ≠ [] := by
  induction code with
  | nil => simp [sections]
  | cons instr code ih =>
    cases instr with
    | print line =>
      obtain ⟨next,more,hcons⟩ := List.exists_cons_of_ne_nil ih
      by_cases h : guarded line = true <;> simp [sections,h,hcons,prepend]
    | exit => simp [sections]
    | wait => simp [sections]
    | _ => exact ih

/-- A thread that has waited goes on inside its block. -/
def State.inside (s : State ι ω) (i : ι) : Bool :=
  match (s.threads i).status with
  | .fresh => false
  | .running => s.owner = some i
  | .waiting => true
  | .notified => true

/-- Sections one after the other, each by the thread that printed it. -/
def joined (done : List (ι × List ω)) : List (ι × ω) :=
  done.flatMap (fun d => d.2.map (d.1,·))

/-- The lines of the section that `i` is in. -/
def State.current (s : State ι ω) (lines : List ω) (i : ι) : List ω :=
  if s.owner = some i then lines else []

structure Serial (program : ι → List (Instr ι ω)) (s : State ι ω) (done : List (ι × List ω))
    (lines : List ω) : Prop where
  brackets_eq : ∀ i, brackets guarded (s.inside i) (s.code i) = true
  running : ∀ i, s.owner = some i → (s.threads i).status = .running
  sections_eq : ∀ i, own i done ++ prepend (s.current lines i) (sections guarded (s.code i)) =
    sections guarded (program i)
  output_eq : s.output.filter (fun p => guarded p.2) =
    joined done ++ s.owner.toList.flatMap (fun i => lines.map (i,·))

variable {guarded} {program : ι → List (Instr ι ω)} {s t : State ι ω} {done : List (ι × List ω)}
  {lines : List ω}

/-- What is required of the other threads does not depend on what the moving thread does with
the monitor, for they neither have it nor get it. -/
theorem Serial.move (hs : Serial guarded program s done lines) {i : ι} {rest : List (Instr ι ω)}
    {status : Status} {owner : Option ι} {output : List (ι × ω)} {done' : List (ι × List ω)}
    {lines' : List ω} (howner : ∀ k ≠ i, owner = some k ↔ s.owner = some k)
    (hlines : ∀ k ≠ i, s.owner = some k → lines' = lines) (hdone : ∀ k ≠ i, own k done' = own k done)
    (hrunning : owner = some i → status = .running)
    (hbrackets : brackets guarded
      (State.inside ⟨put s.threads i rest status,owner,output⟩ i) rest = true)
    (hsections : own i done' ++
      prepend (if owner = some i then lines' else []) (sections guarded rest) =
        sections guarded (program i))
    (houtput : output.filter (fun p => guarded p.2) =
      joined done' ++ owner.toList.flatMap (fun i => lines'.map (i,·))) :
    Serial guarded program ⟨put s.threads i rest status,owner,output⟩ done' lines' where
  brackets_eq k := by
    rcases eq_or_ne k i with rfl | hk
    · simpa only [State.code,put_self] using hbrackets
    · have hinside : State.inside ⟨put s.threads i rest status,owner,output⟩ k = s.inside k := by
        simp only [State.inside,put_of_ne hk,howner k hk]
      have hcode : State.code ⟨put s.threads i rest status,owner,output⟩ k = s.code k :=
        congrArg Thread.code (put_of_ne hk)
      rw [hinside,hcode]
      exact hs.brackets_eq k
  running k hk := by
    rcases eq_or_ne k i with rfl | hne
    · exact (congrArg Thread.status (put_self ..)).trans (hrunning hk)
    · exact (congrArg Thread.status (put_of_ne hne)).trans (hs.running k ((howner k hne).mp hk))
  sections_eq k := by
    rcases eq_or_ne k i with rfl | hk
    · simpa only [State.code,State.current,put_self] using hsections
    · have hcurrent : State.current ⟨put s.threads i rest status,owner,output⟩ lines' k =
          s.current lines k := by
        simp only [State.current,howner k hk]
        split
        · next h => exact hlines k hk h
        · rfl
      have hcode : State.code ⟨put s.threads i rest status,owner,output⟩ k = s.code k :=
        congrArg Thread.code (put_of_ne hk)
      rw [hcurrent,hcode,hdone k hk]
      exact hs.sections_eq k
  output_eq := houtput

theorem Serial.setStatus (hs : Serial guarded program s done lines) {j : ι} {status : Status}
    (hinside : State.inside { s with threads := Monitor.setStatus s.threads j status } j =
      s.inside j) (hrunning : s.owner = some j → status = .running) :
    Serial guarded program { s with threads := Monitor.setStatus s.threads j status }
      done lines := by
  refine hs.move (fun _ _ => Iff.rfl) (fun _ _ _ => rfl) (fun _ _ => rfl) hrunning ?_
    (hs.sections_eq j) hs.output_eq
  rw [← Monitor.setStatus,hinside]
  exact hs.brackets_eq j

theorem Serial.owner_ne (hs : Serial guarded program s done lines) {j : ι}
    (hj : (s.threads j).status ≠ .running) : s.owner ≠ some j := fun ho => hj (hs.running j ho)

/-- Waking a thread lets nobody in. -/
theorem Serial.wake (hs : Serial guarded program s done lines) {j : ι}
    (hj : (s.threads j).status = .waiting) :
    Serial guarded program { s with threads := Monitor.setStatus s.threads j .notified }
      done lines := by
  have hnot : s.owner ≠ some j := hs.owner_ne (by simp [hj])
  exact hs.setStatus (by simp [State.inside,Monitor.setStatus,put_self,hj])
    (fun ho => absurd ho hnot)

/-- A step that leaves the monitor alone and prints no guarded line. -/
theorem Serial.go (hs : Serial guarded program s done lines) {i : ι} {rest : List (Instr ι ω)}
    {output : List (ι × ω)} (hstatus : (s.threads i).status = .running)
    (hbrackets : brackets guarded (s.inside i) rest = true)
    (hsections : sections guarded rest = sections guarded (s.code i))
    (houtput : output.filter (fun p => guarded p.2) = s.output.filter (fun p => guarded p.2)) :
    Serial guarded program ⟨put s.threads i rest .running,s.owner,output⟩ done lines := by
  refine hs.move (fun _ _ => Iff.rfl) (fun _ _ _ => rfl) (fun _ _ => rfl) (fun _ => rfl) ?_ ?_ ?_
  · have hinside : State.inside ⟨put s.threads i rest .running,s.owner,output⟩ i = s.inside i := by
      simp only [State.inside,put_self,hstatus]
    rw [hinside]
    exact hbrackets
  · rw [hsections]
    exact hs.sections_eq i
  · rw [houtput]
    exact hs.output_eq

/-- Taking the monitor opens a section. -/
theorem Serial.take (hs : Serial guarded program s done lines) {i : ι} {rest : List (Instr ι ω)}
    (ho : s.owner = none) (hbrackets : brackets guarded true rest = true)
    (hsections : sections guarded rest = sections guarded (s.code i)) :
    Serial guarded program { s with threads := put s.threads i rest .running, owner := some i }
      done [] := by
  have hsec := hs.sections_eq i
  have hout := hs.output_eq
  simp only [State.current,ho] at hsec hout
  refine hs.move (fun k hk => by simp [ho,hk.symm]) (fun k _ h => by simp [ho] at h)
    (fun _ _ => rfl) (fun _ => rfl) ?_ ?_ ?_
  · simpa [State.inside,put_self] using hbrackets
  · simpa [hsections] using hsec
  · simpa using hout

/-- Giving the monitor back ends the section. -/
theorem Serial.leave (hs : Serial guarded program s done lines) {i : ι} {rest : List (Instr ι ω)}
    {status : Status} (ho : s.owner = some i)
    (hbrackets : brackets guarded
      (State.inside ⟨put s.threads i rest status,none,s.output⟩ i) rest = true)
    (hsections : [] :: sections guarded rest = sections guarded (s.code i)) :
    Serial guarded program { s with threads := put s.threads i rest status, owner := none }
      (done ++ [(i,lines)]) [] := by
  have hsec := hs.sections_eq i
  have hout := hs.output_eq
  simp only [State.current,ho,← hsections,if_true,prepend,List.append_nil] at hsec hout
  refine hs.move (fun k hk => by simp [ho,hk.symm]) (fun k hk h => by simp [ho,hk.symm] at h) ?_
    (by simp) hbrackets ?_ ?_
  · intro k hk
    rw [own_append]
    simp [own,hk.symm]
  · rw [own_append]
    simpa [own] using hsec
  · rw [joined,List.flatMap_append]
    simpa [joined] using hout

/-- A guarded line belongs to the section of the thread that is inside. -/
theorem Serial.say (hs : Serial guarded program s done lines) {i : ι} {line : ω}
    {rest : List (Instr ι ω)} (hi : s.threads i = ⟨.print line :: rest,.running⟩)
    (hline : guarded line = true) :
    Serial guarded program
      { s with threads := put s.threads i rest .running, output := s.output ++ [(i,line)] } done
      (lines ++ [line]) := by
  have hb := hs.brackets_eq i
  have hsec := hs.sections_eq i
  have hout := hs.output_eq
  simp only [State.inside,State.code,hi,brackets,hline,Bool.not_true,Bool.or_false,Bool.and_eq_true,
    decide_eq_true_eq] at hb
  obtain ⟨ho,hb⟩ := hb
  simp only [State.current,State.code,hi,sections,hline,if_true,ho] at hsec hout
  refine hs.move (fun _ _ => Iff.rfl) (fun k hk h => by simp [ho,hk.symm] at h) (fun _ _ => rfl)
    (fun _ => rfl) ?_ ?_ ?_
  · simpa [State.inside,put_self,ho] using hb
  · simpa [ho,prepend_prepend] using hsec
  · rw [List.filter_append,hout]
    simp [ho,hline]

theorem serial_of_moves {a : Action ι} (hs : Serial guarded program s done lines)
    (h : Moves s a t) : ∃ done' lines', Serial guarded program t done' lines' := by
  cases h with
  | @start i j rest hi hj =>
    have hb := hs.brackets_eq i
    rw [State.code,hi] at hb
    have hgo : Serial guarded program { s with threads := put s.threads i rest .running }
        done lines :=
      hs.go (congrArg Thread.status hi) hb (by simp [State.code,hi,sections]) rfl
    have hne : j ≠ i := by
      rintro rfl
      rw [hi] at hj
      contradiction
    have hnot : s.owner ≠ some j := hs.owner_ne (by simp [hj])
    refine ⟨done,lines,hgo.setStatus ?_ (fun _ => rfl)⟩
    simp [State.inside,Monitor.setStatus,put_self,put_of_ne hne,hj,hnot]
  | @enter i rest hi ho =>
    have hb := hs.brackets_eq i
    simp only [State.code,hi,brackets,Bool.and_eq_true] at hb
    exact ⟨done,[],hs.take ho hb.2 (by simp [State.code,hi,sections])⟩
  | @exit i rest hi ho =>
    have hb := hs.brackets_eq i
    simp only [State.code,hi,brackets,Bool.and_eq_true] at hb
    exact ⟨done ++ [(i,lines)],[],hs.leave ho (by simpa [State.inside,put_self] using hb.2)
      (by simp [State.code,hi,sections])⟩
  | @wait i rest hi ho =>
    have hb := hs.brackets_eq i
    simp only [State.code,hi,brackets,Bool.and_eq_true] at hb
    exact ⟨done ++ [(i,lines)],[],hs.leave ho (by simpa [State.inside,put_self] using hb.2)
      (by simp [State.code,hi,sections])⟩
  | @print i line rest hi =>
    cases hline : guarded line with
    | true => exact ⟨done,lines ++ [line],hs.say hi hline⟩
    | false =>
      have hb := hs.brackets_eq i
      simp only [State.code,hi,brackets,Bool.and_eq_true] at hb
      exact ⟨done,lines,hs.go (congrArg Thread.status hi) hb.2
        (by simp [State.code,hi,sections,hline]) (by simp [hline])⟩
  | @pause i rest hi =>
    have hb := hs.brackets_eq i
    rw [State.code,hi] at hb
    exact ⟨done,lines,hs.go (congrArg Thread.status hi) hb (by simp [State.code,hi,sections]) rfl⟩
  | @resume i code hi ho =>
    have hb := hs.brackets_eq i
    simp only [State.inside,State.code,hi] at hb
    exact ⟨done,[],hs.take ho hb (by rw [State.code,hi])⟩
  | @notifyOne i j rest hi ho hj =>
    have hb := hs.brackets_eq i
    simp only [State.inside,State.code,hi,brackets,Bool.and_eq_true] at hb
    have hne : i ≠ j := by
      rintro rfl
      rw [hi] at hj
      contradiction
    have hi' : Monitor.setStatus s.threads j .notified i = ⟨.notify :: rest,.running⟩ :=
      (put_of_ne hne).trans hi
    exact ⟨done,lines,(hs.wake hj).go (congrArg Thread.status hi')
      (by simpa [State.inside,hi',ho] using hb.2) (by simp [State.code,hi',sections]) rfl⟩
  | @notifyNone i rest hi ho hall =>
    have hb := hs.brackets_eq i
    simp only [State.inside,State.code,hi,brackets,Bool.and_eq_true] at hb
    exact ⟨done,lines,hs.go (congrArg Thread.status hi) (by simpa [State.inside,hi,ho] using hb.2)
      (by simp [State.code,hi,sections]) rfl⟩
  | @wake j hj => exact ⟨done,lines,hs.wake hj⟩

theorem serial_init {main : ι} (hprogram : ∀ i, brackets guarded false (program i) = true) :
    Serial guarded program (init program main) [] [] where
  brackets_eq i := by
    have hinside : (init program main).inside i = false := by
      by_cases h : i = main <;> simp [State.inside,init,h]
    rw [hinside]
    exact hprogram i
  running i h := by simp [init] at h
  sections_eq i := by simp [own,State.current,init,State.code]
  output_eq := rfl

theorem Serial.owner_of_finished (hs : Serial guarded program s done lines) (h : Finished s) :
    s.owner = none := by
  by_contra hne
  obtain ⟨i,ho⟩ := Option.ne_none_iff_exists'.mp hne
  have hb := hs.brackets_eq i
  simp [h i,State.inside,hs.running i ho,ho,brackets] at hb

/-! ## Threads with one section each -/

/-- Threads that end one section each, and no others, end them in some order. -/
theorem exists_order {κ : Type*} {e : κ → ι} {f : κ → List ω} (he : Function.Injective e)
    (hothers : ∀ i, i ∉ Set.range e → own i done = [])
    (hone : ∀ k, own (e k) done = [] ∨ own (e k) done = [f k]) :
    ∃ order : List κ, order.Nodup ∧ done = order.map (fun k => (e k,f k)) ∧
      ∀ k, k ∈ order ↔ own (e k) done = [f k] := by
  induction done with
  | nil => exact ⟨[],List.nodup_nil,rfl,by simp [own]⟩
  | cons d done ih =>
    obtain ⟨i,ended⟩ := d
    have hself : own i ((i,ended) :: done) = ended :: own i done := by simp [own]
    have hne : ∀ j ≠ i, own j ((i,ended) :: done) = own j done := fun j hj => by simp [own,hj.symm]
    obtain ⟨k,rfl⟩ : i ∈ Set.range e := by
      by_contra hi
      rw [hothers i hi] at hself
      contradiction
    obtain ⟨rfl,hrest⟩ : ended = f k ∧ own (e k) done = [] := by
      have hk := hone k
      rw [hself] at hk
      simpa using hk
    have hkeep : ∀ l ≠ k, own (e l) ((e k,f k) :: done) = own (e l) done :=
      fun l hl => hne _ (he.ne hl)
    obtain ⟨order,hnodup,hdone,horder⟩ := ih
      (fun j hj => by rw [← hne j (fun h => hj ⟨k,h.symm⟩)]; exact hothers j hj)
      (fun l => by
        rcases eq_or_ne l k with rfl | hl
        · exact Or.inl hrest
        · rw [← hkeep l hl]
          exact hone l)
    refine ⟨k :: order,List.nodup_cons.mpr ⟨by simp [horder,hrest],hnodup⟩,by rw [hdone]; rfl,?_⟩
    intro l
    rcases eq_or_ne l k with rfl | hl
    · simp [hself,hrest]
    · rw [hkeep l hl,List.mem_cons,horder]
      simp [hl]

def hasLines (lines : List ω) : Bool := !lines.isEmpty

theorem own_filter (i : ι) (done : List (ι × List ω)) :
    own i (done.filter (fun d => hasLines d.2)) = (own i done).filter hasLines := by
  induction done with
  | nil => rfl
  | cons d done ih =>
    rw [own] at ih ⊢
    by_cases hi : d.1 = i <;> by_cases hd : hasLines d.2 <;> simp [own,hi,hd,ih]

omit [DecidableEq ι] in
theorem joined_filter (done : List (ι × List ω)) :
    joined (done.filter (fun d => hasLines d.2)) = joined done := by
  induction done with
  | nil => rfl
  | cons d done ih =>
    obtain ⟨i,lines⟩ := d
    rw [joined] at ih ⊢
    cases lines <;> simp [hasLines,joined] at ih ⊢ <;> exact ih

section OneSection
variable {κ : Type*} {e : κ → ι} {f : κ → List ω}

/-- Threads with one section each that prints anything print it whole, in some order. -/
theorem Serial.exists_order (hs : Serial guarded program s done lines) (he : Function.Injective e)
    (hothers : ∀ i, i ∉ Set.range e → (sections guarded (program i)).filter hasLines = [])
    (hone : ∀ k, (sections guarded (program (e k))).filter hasLines = [f k]) :
    ∃ order : List κ, order.Nodup ∧
      s.output.filter (fun p => guarded p.2) <+: order.flatMap (fun k => (f k).map (e k,·)) ∧
      (Finished s → (∀ k, k ∈ order) ∧ s.output.filter (fun p => guarded p.2) =
        order.flatMap (fun k => (f k).map (e k,·))) := by
  have hsplit : ∀ i, own i (done.filter (fun d => hasLines d.2)) ++
      (prepend (s.current lines i) (sections guarded (s.code i))).filter hasLines =
        (sections guarded (program i)).filter hasLines := by
    intro i
    rw [own_filter,← List.filter_append,hs.sections_eq]
  have hnone : ∀ i, i ∉ Set.range e → own i (done.filter (fun d => hasLines d.2)) = [] := by
    intro i hi
    have hi' := hsplit i
    rw [hothers i hi] at hi'
    exact (List.append_eq_nil_iff.mp hi').1
  have hsome : ∀ k, own (e k) (done.filter (fun d => hasLines d.2)) = [] ∨
      own (e k) (done.filter (fun d => hasLines d.2)) = [f k] := by
    intro k
    have hk := hsplit (e k)
    rw [hone k] at hk
    rcases List.append_eq_singleton_iff.mp hk with ⟨h,_⟩ | ⟨h,_⟩
    · exact Or.inl h
    · exact Or.inr h
  obtain ⟨order,hnodup,hdone,hmem⟩ := Monitor.exists_order he hnone hsome
  have hjoined : joined done = order.flatMap (fun k => (f k).map (e k,·)) := by
    rw [← joined_filter,hdone,joined,List.flatMap_map]
  have hout := hs.output_eq
  rw [hjoined] at hout
  by_cases hcurrent : s.owner.toList.flatMap (fun i => lines.map (i,·)) = []
  · rw [hcurrent,List.append_nil] at hout
    refine ⟨order,hnodup,hout ▸ List.prefix_rfl,fun hend => ⟨fun k => ?_,hout⟩⟩
    have hk := hsplit (e k)
    rw [hend (e k),State.current,hs.owner_of_finished hend,if_neg (by simp),prepend_nil,hone k] at hk
    exact (hmem k).mpr (by simpa [sections,hasLines] using hk)
  · cases ho : s.owner with
    | none => simp [ho] at hcurrent
    | some i =>
      have hlines : lines ≠ [] := by
        rintro rfl
        simp [ho] at hcurrent
      -- the open section is the one hasLines section that its thread still has to end
      obtain ⟨first,more,hsections⟩ :=
        List.exists_cons_of_ne_nil (sections_ne_nil guarded (s.code i))
      have hi := hsplit i
      rw [State.current,if_pos ho,hsections,prepend,
        List.filter_cons_of_pos (by simp [hasLines,hlines])] at hi
      obtain ⟨k,rfl⟩ : i ∈ Set.range e := by
        by_contra h
        rw [hothers i h] at hi
        simp at hi
      rw [hone k] at hi
      rcases List.append_eq_singleton_iff.mp hi with ⟨hk,hrest⟩ | ⟨_,hrest⟩
      · have hf : lines ++ first = f k := (List.cons_eq_cons.mp hrest).1
        rw [ho,Option.toList_some,List.flatMap_cons,List.flatMap_nil,List.append_nil] at hout
        refine ⟨order ++ [k],?_,?_,fun hend => absurd (hs.owner_of_finished hend) (by simp [ho])⟩
        · refine List.nodup_append.mpr ⟨hnodup,List.nodup_singleton k,fun l hl l' hl' hll => ?_⟩
          rw [hll,List.mem_singleton.mp hl',hmem,hk] at hl
          contradiction
        · rw [hout,List.flatMap_append,List.flatMap_singleton,← hf]
          exact (List.prefix_append_right_inj _).mpr ((List.prefix_append ..).map _)
      · contradiction

end OneSection

variable [Fintype ι]

theorem serial_of_reachable {main : ι} (hprogram : ∀ i, brackets guarded false (program i) = true)
    (h : Reachable step (init program main) s) :
    ∃ done lines, Serial guarded program s done lines :=
  h.invariant (P := fun s => ∃ done lines, Serial guarded program s done lines)
    (fun _ _ _ ⟨_,_,hs⟩ ht => serial_of_moves hs (moves_of_step ht)) ⟨[],[],serial_init hprogram⟩

end SunshineService.Monitor
