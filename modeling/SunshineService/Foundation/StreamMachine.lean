import Mathlib.Tactic.Common

/-! # Machines that read a stream symbol by symbol

A turn moves to a next state and emits symbols, or stops for a reason. A reading can
stop anywhere and go on later, an invariant of the text read so far is proved one turn at
a time, and so is a condition on every turn.
-/
namespace SunshineService.StreamMachine

variable {σ β ε : Type*}

inductive Turn (σ β ε : Type*)
  | next (s : σ) (emit : List β)
  | stop (why : ε)

/-- Where a reading stands: it waits for more, or it stopped before `rest`. -/
inductive Stand (σ β ε : Type*)
  | again (s : σ)
  | stopped (why : ε) (rest : List β)
  deriving DecidableEq

structure Fed (σ β ε : Type*) where
  out : List β
  stand : Stand σ β ε
  deriving DecidableEq

variable (turn : σ → β → Turn σ β ε)

def feed (s : σ) : List β → Fed σ β ε
  | [] => ⟨[],.again s⟩
  | b :: bs => match turn s b with
    | .next t emit => ⟨emit ++ (feed t bs).out,(feed t bs).stand⟩
    | .stop why => ⟨[],.stopped why bs⟩

/-- Go on with more symbols where a reading stands. -/
def Fed.andThen (f : Fed σ β ε) (bs : List β) : Fed σ β ε :=
  match f.stand with
  | .again s => ⟨f.out ++ (feed turn s bs).out,(feed turn s bs).stand⟩
  | .stopped why rest => ⟨f.out,.stopped why (rest ++ bs)⟩

variable {turn}

@[simp] theorem feed_nil (s : σ) : feed turn s [] = ⟨[],.again s⟩ := rfl

theorem feed_next {s t : σ} {b : β} {emit : List β} (h : turn s b = .next t emit) (bs : List β) :
    feed turn s (b :: bs) = ⟨emit ++ (feed turn t bs).out,(feed turn t bs).stand⟩ := by
  simp only [feed,h]

theorem feed_stop {s : σ} {b : β} {why : ε} (h : turn s b = .stop why) (bs : List β) :
    feed turn s (b :: bs) = ⟨[],.stopped why bs⟩ := by
  simp only [feed,h]

theorem feed_append (s : σ) (xs ys : List β) :
    feed turn s (xs ++ ys) = (feed turn s xs).andThen turn ys := by
  induction xs generalizing s with
  | nil => simp [Fed.andThen]
  | cons b xs ih =>
    cases h : turn s b with
    | stop why => simp only [List.cons_append,feed_stop h,Fed.andThen]
    | next t emit =>
      rw [List.cons_append,feed_next h,feed_next h,ih]
      cases hs : (feed turn t xs).stand <;> simp [Fed.andThen,hs]

theorem feed_append_of_again {s t : σ} {xs out : List β}
    (h : feed turn s xs = ⟨out,.again t⟩) (ys : List β) :
    feed turn s (xs ++ ys) = ⟨out ++ (feed turn t ys).out,(feed turn t ys).stand⟩ := by
  rw [feed_append,h]
  rfl

/-- What the text read so far says about the state and the symbols emitted. -/
def Kept (turn : σ → β → Turn σ β ε) (R : σ → List β → List β → Prop) : Prop :=
  ∀ s text out b t emit, R s text out → turn s b = .next t emit → R t (text ++ [b]) (out ++ emit)

theorem Kept.of_again {R : σ → List β → List β → Prop} (hR : Kept turn R) {s t : σ}
    {text out bs emitted : List β} (h : R s text out) (hf : feed turn s bs = ⟨emitted,.again t⟩) :
    R t (text ++ bs) (out ++ emitted) := by
  induction bs generalizing s text out emitted with
  | nil =>
    rw [feed_nil,Fed.mk.injEq,Stand.again.injEq] at hf
    obtain ⟨rfl,rfl⟩ := hf
    simpa using h
  | cons b bs ih =>
    cases hb : turn s b with
    | stop why => simp [feed_stop hb] at hf
    | next u emit =>
      rw [feed_next hb,Fed.mk.injEq] at hf
      obtain ⟨rfl,hf⟩ := hf
      have hrest : feed turn u bs = ⟨(feed turn u bs).out,.again t⟩ := by rw [← hf]
      simpa using ih (hR s text out b u emit h hb) hrest

/-- A reading that stopped was still going on before its last symbol. -/
theorem exists_again_of_stopped {s : σ} {bs rest out : List β} {why : ε}
    (hf : feed turn s bs = ⟨out,.stopped why rest⟩) :
    ∃ pre b t, bs = pre ++ b :: rest ∧ feed turn s pre = ⟨out,.again t⟩ ∧ turn t b = .stop why := by
  induction bs generalizing s out with
  | nil => simp at hf
  | cons b bs ih =>
    cases hb : turn s b with
    | stop why' =>
      rw [feed_stop hb,Fed.mk.injEq,Stand.stopped.injEq] at hf
      obtain ⟨rfl,rfl,rfl⟩ := hf
      exact ⟨[],b,s,rfl,rfl,hb⟩
    | next u emit =>
      rw [feed_next hb,Fed.mk.injEq] at hf
      obtain ⟨rfl,hf⟩ := hf
      have hrest : feed turn u bs = ⟨(feed turn u bs).out,.stopped why rest⟩ := by rw [← hf]
      obtain ⟨pre,c,t,rfl,hpre,hc⟩ := ih hrest
      exact ⟨b :: pre,c,t,rfl,by rw [feed_next hb,hpre],hc⟩

theorem Kept.of_stopped {R : σ → List β → List β → Prop} (hR : Kept turn R) {s : σ}
    {bs rest out : List β} {why : ε} (h : R s [] []) (hf : feed turn s bs = ⟨out,.stopped why rest⟩) :
    ∃ pre b t, bs = pre ++ b :: rest ∧ R t pre out ∧ turn t b = .stop why := by
  obtain ⟨pre,b,t,rfl,hpre,hb⟩ := exists_again_of_stopped hf
  exact ⟨pre,b,t,rfl,by simpa using hR.of_again h hpre,hb⟩

theorem feed_of_stop {s t : σ} {pre out rest : List β} {b : β} {why : ε}
    (hpre : feed turn s pre = ⟨out,.again t⟩) (hb : turn t b = .stop why) :
    feed turn s (pre ++ b :: rest) = ⟨out,.stopped why rest⟩ := by
  rw [feed_append_of_again hpre,feed_stop hb,List.append_nil]

/-- A stream on whose last symbol the reading stops keeps it going until then. -/
theorem feed_of_append_stopped {s : σ} {xs ys out : List β} {why : ε}
    (h : feed turn s (xs ++ ys) = ⟨out,.stopped why []⟩) :
    (ys = [] ∧ feed turn s xs = ⟨out,.stopped why []⟩) ∨
      ∃ t, feed turn s xs = ⟨(feed turn s xs).out,.again t⟩ ∧ (feed turn s xs).out <+: out ∧
        ys ≠ [] := by
  rw [feed_append] at h
  cases hs : (feed turn s xs).stand with
  | again t =>
    right
    simp only [Fed.andThen,hs,Fed.mk.injEq] at h
    refine ⟨t,by rw [← hs],⟨_,h.1⟩,?_⟩
    rintro rfl
    simp at h
  | stopped why' rest =>
    left
    simp only [Fed.andThen,hs,Fed.mk.injEq,Stand.stopped.injEq,List.append_eq_nil_iff] at h
    obtain ⟨rfl,rfl,rfl,rfl⟩ := h
    exact ⟨rfl,by rw [← hs]⟩

/-- Every turn the reading takes satisfies `Q`. -/
def Each (turn : σ → β → Turn σ β ε) (Q : σ → β → Prop) (s : σ) (bs : List β) : Prop :=
  ∀ pre b rest out t, bs = pre ++ b :: rest → feed turn s pre = ⟨out,.again t⟩ → Q t b

variable {Q : σ → β → Prop}

theorem Each.mono {Q' : σ → β → Prop} (hQ : ∀ s b, Q s b → Q' s b) {s : σ} {bs : List β}
    (h : Each turn Q s bs) : Each turn Q' s bs :=
  fun pre b rest out t hs hf => hQ t b (h pre b rest out t hs hf)

theorem each_of_mem {s : σ} {bs : List β} (h : ∀ t, ∀ b ∈ bs, Q t b) : Each turn Q s bs := by
  intro pre b rest out t hs _
  exact h t b (by simp [hs])

theorem each_nil (s : σ) : Each turn Q s [] := by
  intro pre b rest out t hs
  simp at hs

theorem Each.head {s : σ} {b : β} {bs : List β} (h : Each turn Q s (b :: bs)) : Q s b :=
  h [] b bs [] s rfl rfl

theorem Each.next {s t : σ} {b : β} {bs emit : List β} (h : Each turn Q s (b :: bs))
    (ht : turn s b = .next t emit) : Each turn Q t bs := by
  intro pre c rest out u hs hf
  refine h (b :: pre) c rest (emit ++ out) u (by rw [hs]; rfl) ?_
  rw [feed_next ht,hf]

theorem Each.cons {s : σ} {b : β} {bs : List β} (h : Q s b)
    (hs : ∀ t emit, turn s b = .next t emit → Each turn Q t bs) : Each turn Q s (b :: bs) := by
  intro pre c rest out t heq hf
  cases pre with
  | nil =>
    obtain ⟨rfl,rfl⟩ := List.cons.inj heq
    obtain ⟨-,rfl⟩ : [] = out ∧ s = t := by simpa using hf
    exact h
  | cons b' pre =>
    obtain ⟨rfl,rfl⟩ := List.cons.inj heq
    cases ht : turn s b with
    | stop why => simp [feed_stop ht] at hf
    | next u emit =>
      rw [feed_next ht,Fed.mk.injEq] at hf
      exact hs u emit ht pre c rest _ t rfl (congrArg (Fed.mk _) hf.2)

theorem Each.left {s : σ} {xs ys : List β} (h : Each turn Q s (xs ++ ys)) : Each turn Q s xs := by
  intro pre b rest out t hs
  exact h pre b (rest ++ ys) out t (by rw [hs,List.append_assoc]; rfl)

theorem Each.right {s t : σ} {xs ys out : List β} (h : Each turn Q s (xs ++ ys))
    (hf : feed turn s xs = ⟨out,.again t⟩) : Each turn Q t ys := by
  intro pre b rest out' u hs hr
  refine h (xs ++ pre) b rest (out ++ out') u (by rw [hs,List.append_assoc]) ?_
  rw [feed_append_of_again hf,hr]

theorem Each.append {s : σ} {xs ys : List β} (h : Each turn Q s xs)
    (hs : ∀ t out, feed turn s xs = ⟨out,.again t⟩ → Each turn Q t ys) : Each turn Q s (xs ++ ys) := by
  induction xs generalizing s with
  | nil => exact hs s [] rfl
  | cons b xs ih =>
    refine Each.cons h.head fun t emit ht => ?_
    refine ih (h.next ht) fun u out hf => hs u (emit ++ out) ?_
    rw [feed_next ht,hf]

theorem Each.then {s t : σ} {xs ys out : List β} (h : Each turn Q s xs)
    (hf : feed turn s xs = ⟨out,.again t⟩) (ht : Each turn Q t ys) : Each turn Q s (xs ++ ys) := by
  refine h.append fun u out' hu => ?_
  rw [hf,Fed.mk.injEq,Stand.again.injEq] at hu
  rw [← hu.2]
  exact ht

end SunshineService.StreamMachine
