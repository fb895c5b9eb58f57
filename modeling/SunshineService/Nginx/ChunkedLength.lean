import SunshineService.Nginx.ChunkedBody
import Mathlib.Order.Bounds.Basic

/-! # The minimal amount of data

With each call that wants more the parser names the least amount of data it wants to
see. The least number of bytes that can end the response is found on the plain machine.
The two agree but inside the digits of a size that is not zero, where the parser names
one byte too many.
-/
namespace SunshineService.Nginx.Chunked
open StreamMachine Utf8

/-- The byte is no digit that takes a size out of the range of `off_t`. -/
def FitsTurn (p : Place) (b : UInt8) : Prop :=
  p.state = .chunkSize → ∀ d, digitOf b = some d → p.size * 16 + d < 2 ^ 63

def Fits (p : Place) (s : Bytes) : Prop := Each turn FitsTurn p s

theorem fitsTurn_of_state {p : Place} {b : UInt8} (h : p.state ≠ .chunkSize) : FitsTurn p b :=
  fun hp => absurd hp h

theorem fitsTurn_of_none {p : Place} {b : UInt8} (h : digitOf b = none) : FitsTurn p b := by
  intro _ d hd
  rw [h] at hd
  cases hd

/-- The bytes that are missing at least. -/
def missing (p : Place) : ℤ :=
  match p.state with
  | .chunkStart => 3
  | .chunkSize => if p.size = 0 then 2 else p.size + 5
  | .chunkExtension | .chunkExtensionAlmostDone => p.size + 5
  | .chunkData => p.size + 4
  | .afterData | .afterDataAlmostDone => 4
  | .lastChunkExtension | .lastChunkExtensionAlmostDone => 2
  | .trailer | .trailerAlmostDone => 1
  | .trailerHeader | .trailerHeaderAlmostDone => 2

/-- A byte brings the end nearer by one at most. -/
theorem missing_le_of_turn {p q : Place} {b : UInt8} {emit : Bytes} (hs : Sized p) (h0 : 0 ≤ p.size)
    (hfit : FitsTurn p b) (ht : turn p b = .next q emit) : missing p ≤ missing q + 1 ∧ 0 ≤ q.size := by
  obtain ⟨hsw,-⟩ | ⟨hst,-,rfl,-⟩ := turn_next ht
  · obtain ⟨st,sz⟩ := p
    have h0 : 0 ≤ sz := h0
    cases st with
    | chunkStart =>
      cases hd : digitOf b with
      | none => simp [switch,hd] at hsw
      | some d =>
        simp only [switch,hd] at hsw
        obtain rfl := Switch.next.inj hsw
        have hrange := digitOf_range hd
        refine ⟨?_,hrange.1⟩
        simp only [missing]
        split_ifs <;> omega
    | chunkSize =>
      cases hd : digitOf b with
      | some d =>
        have hrange := digitOf_range hd
        have hlt : sz * 16 + d < 2 ^ 63 := hfit rfl d hd
        simp only [switch,hd,offT_of_lt (n := sz * 16 + d) (by omega) hlt] at hsw
        obtain rfl := Switch.next.inj hsw
        refine ⟨?_,by dsimp only; omega⟩
        simp only [missing]
        split_ifs <;> omega
      | none =>
        by_cases hz : sz = 0 <;> simp only [switch,hd,hz,if_true,if_false] at hsw <;>
          repeat' split at hsw
        all_goals first
          | contradiction
          | obtain rfl := Switch.next.inj hsw
            simp only [missing,hz,if_true,if_false]
            omega
    | _ =>
      simp only [switch] at hsw
      repeat' split at hsw
      all_goals first
        | contradiction
        | obtain rfl := Switch.next.inj hsw
          exact ⟨by simp only [missing]; omega,h0⟩
  · have hne : p.size ≠ 0 := hs (.inr (.inr hst))
    have hmissing : missing p = p.size + 4 := by simp only [missing,hst]
    rw [hmissing,settle_data]
    by_cases hlast : p.size - 1 = 0
    · rw [if_pos hlast]
      simp only [missing]
      omega
    · rw [if_neg hlast]
      simp only [missing]
      omega

/-- Behind the digits of a size only a bare line feed is no detour. -/
theorem missing_le_of_digits {p q : Place} {b : UInt8} {emit : Bytes} (hp : p.state = .chunkSize)
    (hpos : 0 < p.size) (hfit : FitsTurn p b) (hb : b ≠ lf) (ht : turn p b = .next q emit) :
    missing p ≤ missing q := by
  obtain ⟨st,sz⟩ := p
  obtain rfl : st = .chunkSize := hp
  have hpos : 0 < sz := hpos
  have hne : sz ≠ 0 := hpos.ne'
  cases hd : digitOf b with
  | some d =>
    have hrange := digitOf_range hd
    have hlt : sz * 16 + d < 2 ^ 63 := hfit rfl d hd
    simp only [turn,switch,hd,offT_of_lt (n := sz * 16 + d) (by omega) hlt] at ht
    obtain ⟨rfl,-⟩ := Turn.next.inj ht
    simp only [missing]
    split_ifs <;> omega
  | none =>
    rw [turn_afterDigits hd,if_neg hb] at ht
    split at ht
    · obtain ⟨rfl,-⟩ := Turn.next.inj ht
      simp [missing,hne]
    split at ht
    · obtain ⟨rfl,-⟩ := Turn.next.inj ht
      simp [missing,hne]
    · cases ht

theorem missing_of_done {p : Place} {b : UInt8} (h : turn p b = .stop .done) : missing p = 1 := by
  obtain ⟨hst | hst,-⟩ := switch_of_done h <;> simp only [missing,hst]

theorem missing_le {p : Place} {s out : Bytes} (hs : Sized p) (h0 : 0 ≤ p.size) (hfit : Fits p s)
    (hf : feed turn p s = ⟨out,.stopped .done []⟩) : missing p ≤ s.length := by
  induction s generalizing p out with
  | nil => simp at hf
  | cons b s ih =>
    cases ht : turn p b with
    | stop why =>
      rw [feed_stop ht,Fed.mk.injEq,Stand.stopped.injEq] at hf
      obtain ⟨-,rfl,-⟩ := hf
      rw [missing_of_done ht,List.length_cons]
      omega
    | next q emit =>
      rw [feed_next ht,Fed.mk.injEq] at hf
      obtain ⟨hstep,hq⟩ := missing_le_of_turn hs h0 hfit.head ht
      have hrest := ih (hs.turn ht) hq (hfit.next ht)
        (congrArg (Fed.mk (feed turn q s).out) hf.2)
      rw [List.length_cons]
      omega

/-- The reading stays away from the digits of a size. -/
def Away (p : Place) (s : Bytes) : Prop := Each turn (fun q _ => q.state ≠ .chunkSize) p s

theorem away_data {n : ℤ} {xs : Bytes} (hn : 0 < n) (hle : xs.length ≤ n) :
    Away ⟨.chunkData,n⟩ xs := by
  intro pre b rest out q hs hf hq
  have hlen := congrArg List.length hs
  rw [List.length_append,List.length_cons] at hlen
  rw [feed_data pre hn (by omega),Fed.mk.injEq,Stand.again.injEq,settle_data] at hf
  rw [← hf.2] at hq
  split at hq <;> cases hq

theorem away_text {p : Place} (hp : Skips p) (hst : p.state ≠ .chunkSize) {w : Bytes} (hw : Text w) :
    Away p w := by
  induction w with
  | nil => exact each_nil p
  | cons b w ih =>
    obtain ⟨hcr,hlf⟩ := hw b List.mem_cons_self
    refine Each.cons hst fun q emit ht => ?_
    rw [turn_of_next (hp b hcr hlf)] at ht
    obtain ⟨rfl,-⟩ := Turn.next.inj ht
    exact ih fun c hc => hw c (List.mem_cons_of_mem b hc)

/-- The shortest text that ends the response. -/
def closing (p : Place) : Bytes :=
  let data := List.replicate p.size.toNat 0 ++ [lf,48,lf,lf]
  match p.state with
  | .chunkStart => [48,lf,lf]
  | .chunkSize => if p.size = 0 then [lf,lf] else lf :: data
  | .chunkExtension | .chunkExtensionAlmostDone => lf :: data
  | .chunkData => data
  | .afterData | .afterDataAlmostDone => [lf,48,lf,lf]
  | .lastChunkExtension | .lastChunkExtensionAlmostDone => [lf,lf]
  | .trailer | .trailerAlmostDone => [lf]
  | .trailerHeader | .trailerHeaderAlmostDone => [lf,lf]

/-- The text ends the response, and its sizes fit. -/
def Ends (p : Place) (s : Bytes) : Prop := Fits p s ∧ ∃ out, feed turn p s = ⟨out,.stopped .done []⟩

theorem Ends.cons {p q : Place} {b : UInt8} {s emit : Bytes} (hb : FitsTurn p b)
    (ht : turn p b = .next q emit) (h : Ends q s) : Ends p (b :: s) := by
  obtain ⟨hfit,out,hf⟩ := h
  refine ⟨Each.cons hb fun r e hr => ?_,emit ++ out,by rw [feed_next ht,hf]⟩
  obtain ⟨rfl,-⟩ := Turn.next.inj (ht.symm.trans hr)
  exact hfit

theorem Ends.done {p : Place} {b : UInt8} (ht : turn p b = .stop .done) : Ends p [b] := by
  obtain ⟨-,rfl⟩ := switch_of_done ht
  exact ⟨Each.cons (fitsTurn_of_none digitOf_lf) fun q _ _ => each_nil q,[],feed_stop ht []⟩

theorem Ends.data {n : ℤ} {xs ys : Bytes} (hn : 0 < n) (hlen : xs.length = n)
    (h : Ends ⟨.afterData,0⟩ ys) : Ends ⟨.chunkData,n⟩ (xs ++ ys) := by
  obtain ⟨hfit,out,hf⟩ := h
  have hfeed := feed_data xs hn hlen.le
  rw [hlen,sub_self,settle_data,if_pos rfl] at hfeed
  have hdata : Fits ⟨.chunkData,n⟩ xs := (away_data hn hlen.le).mono fun _ _ => fitsTurn_of_state
  exact ⟨hdata.then hfeed hfit,xs ++ out,by rw [feed_append_of_again hfeed,hf]⟩

theorem ends_closing {p : Place} (hs : Sized p) (h0 : 0 ≤ p.size) : Ends p (closing p) := by
  obtain ⟨st,sz⟩ := p
  have h0 : 0 ≤ sz := h0
  have htrailer : ∀ v, Ends ⟨.trailer,v⟩ [lf] := fun v => Ends.done rfl
  have hlast : ∀ v, Ends ⟨.chunkStart,v⟩ [48,lf,lf] := fun v =>
    Ends.cons (fitsTurn_of_state (by simp)) rfl
      (Ends.cons (fitsTurn_of_none digitOf_lf) rfl (htrailer 0))
  have hafter : ∀ v, Ends ⟨.afterData,v⟩ [lf,48,lf,lf] := fun v =>
    Ends.cons (fitsTurn_of_state (by simp)) rfl (hlast v)
  have hdata : sz ≠ 0 → Ends ⟨.chunkData,sz⟩ (List.replicate sz.toNat 0 ++ [lf,48,lf,lf]) := fun hne =>
    Ends.data (by omega) (by rw [List.length_replicate]; omega) (hafter 0)
  cases st with
  | chunkStart => exact hlast sz
  | chunkSize =>
    simp only [closing]
    split
    · rename_i hz
      subst hz
      exact Ends.cons (fitsTurn_of_none digitOf_lf) rfl (htrailer 0)
    · rename_i hz
      have ht : turn ⟨.chunkSize,sz⟩ lf = .next ⟨.chunkData,sz⟩ [] := by
        rw [turn_afterDigits digitOf_lf,if_neg (by decide),if_pos rfl,afterLine,if_neg hz]
      exact Ends.cons (fitsTurn_of_none digitOf_lf) ht (hdata hz)
  | chunkExtension => exact Ends.cons (fitsTurn_of_state (by simp)) rfl (hdata (hs (.inl rfl)))
  | chunkExtensionAlmostDone =>
    exact Ends.cons (fitsTurn_of_state (by simp)) rfl (hdata (hs (.inr (.inl rfl))))
  | chunkData => exact hdata (hs (.inr (.inr rfl)))
  | afterData => exact hafter sz
  | afterDataAlmostDone => exact Ends.cons (fitsTurn_of_state (by simp)) rfl (hlast sz)
  | lastChunkExtension => exact Ends.cons (fitsTurn_of_state (by simp)) rfl (htrailer sz)
  | lastChunkExtensionAlmostDone => exact Ends.cons (fitsTurn_of_state (by simp)) rfl (htrailer sz)
  | trailer => exact htrailer sz
  | trailerAlmostDone => exact Ends.done rfl
  | trailerHeader => exact Ends.cons (fitsTurn_of_state (by simp)) rfl (htrailer sz)
  | trailerHeaderAlmostDone => exact Ends.cons (fitsTurn_of_state (by simp)) rfl (htrailer sz)

theorem length_closing {p : Place} (h0 : 0 ≤ p.size) : ((closing p).length : ℤ) = missing p := by
  obtain ⟨st,sz⟩ := p
  have h0 : 0 ≤ sz := h0
  cases st <;> simp only [closing,missing] <;> try split
  all_goals simp
  all_goals omega

/-- The lengths of the texts that end the response. -/
def endings (p : Place) : Set ℤ := { n | ∃ s : Bytes, Ends p s ∧ (s.length : ℤ) = n }

theorem isLeast_missing {p : Place} (hs : Sized p) (h0 : 0 ≤ p.size) :
    IsLeast (endings p) (missing p) := by
  constructor
  · exact ⟨closing p,ends_closing hs h0,length_closing h0⟩
  · rintro n ⟨s,⟨hfit,out,hf⟩,rfl⟩
    exact missing_le hs h0 hfit hf

theorem minimalLength_eq {p : Place} (h0 : 0 ≤ p.size) (hsize : p.size + 6 < 2 ^ 63) :
    minimalLength p = missing p + if p.state = .chunkSize ∧ p.size ≠ 0 then 1 else 0 := by
  obtain ⟨st,sz⟩ := p
  have h0 : 0 ≤ sz := h0
  have hsize : sz + 6 < 2 ^ 63 := hsize
  cases st with
  | chunkSize =>
    by_cases hz : sz = 0
    · subst hz
      rfl
    · simp only [minimalLength,missing,hz,if_false,ne_eq,not_false_eq_true,and_self,if_true]
      rw [offT_of_lt (by omega) (by omega)]
      omega
  | chunkExtension | chunkExtensionAlmostDone =>
    simp only [minimalLength,missing,reduceCtorEq,false_and,if_false]
    rw [offT_of_lt (by omega) (by omega)]
    omega
  | chunkData =>
    simp only [minimalLength,missing,reduceCtorEq,false_and,if_false]
    rw [offT_of_lt (by omega) (by omega)]
    omega
  | _ => rfl

theorem Fits.nonneg {p q : Place} {s out : Bytes} (hs : Sized p) (h0 : 0 ≤ p.size) (hfit : Fits p s)
    (hf : feed turn p s = ⟨out,.again q⟩) : 0 ≤ q.size := by
  induction s generalizing p out with
  | nil =>
    obtain ⟨-,rfl⟩ : [] = out ∧ p = q := by simpa using hf
    exact h0
  | cons b s ih =>
    cases ht : turn p b with
    | stop why => simp [feed_stop ht] at hf
    | next r emit =>
      rw [feed_next ht,Fed.mk.injEq] at hf
      have hr := (missing_le_of_turn hs h0 hfit.head ht).2
      exact ih (hs.turn ht) hr (hfit.next ht) (congrArg (Fed.mk (feed turn r s).out) hf.2)

theorem offT_lt (n : ℤ) : offT n < 2 ^ 63 := by
  have h := Int.bmod_lt (x := n) (m := 2 ^ 64) (by norm_num)
  norm_num at h
  exact h

theorem size_lt_of_feed {p q : Place} {s out : Bytes} (hp : p.size < 2 ^ 63)
    (hf : feed turn p s = ⟨out,.again q⟩) : q.size < 2 ^ 63 := by
  have hkept : Kept turn (fun p _ _ => p.size < 2 ^ 63) := by
    intro p text out b q emit hp ht
    obtain ⟨hsw,-⟩ | ⟨-,-,rfl,-⟩ := turn_next ht
    · unfold switch at hsw
      split at hsw <;> (repeat' split at hsw) <;> first
        | contradiction
        | obtain rfl := Switch.next.inj hsw
          first
            | exact hp
            | exact offT_lt _
            | rename_i hd
              have hrange := digitOf_range hd
              dsimp only
              omega
    · rw [settle_data]
      split
      · norm_num
      · dsimp only
        omega
  exact @Kept.of_again _ _ _ _ _ hkept p q [] [] s out hp hf

theorem minimalLength_le {p : Place} (h0 : 0 ≤ p.size) (hlt : p.size < 2 ^ 63) :
    minimalLength p ≤ missing p + (if p.state = .chunkSize ∧ p.size ≠ 0 then 1 else 0) ∧
      minimalLength p ≠ 0 ∧ minimalLength p ≠ -1 := by
  have hoff : ∀ n : ℤ, 0 < n → n < 2 ^ 63 + 6 → offT n ≤ n ∧ offT n ≠ 0 ∧ offT n ≠ -1 := by
    intro n hpos hn
    rw [offT_eq,Int.emod_eq_of_lt hpos.le (by omega)]
    split_ifs <;> omega
  obtain ⟨st,sz⟩ := p
  have h0 : 0 ≤ sz := h0
  have hlt : sz < 2 ^ 63 := hlt
  cases st with
  | chunkSize =>
    by_cases hz : sz = 0
    · subst hz
      simp [minimalLength,missing,offT]
    · have h := hoff (2 + (sz + 4)) (by omega) (by omega)
      simp only [minimalLength,missing,hz,if_false,ne_eq,not_false_eq_true,and_self,if_true]
      exact ⟨by omega,h.2⟩
  | chunkExtension | chunkExtensionAlmostDone =>
    have h := hoff (1 + sz + 4) (by omega) (by omega)
    simp only [minimalLength,missing,reduceCtorEq,false_and,if_false,add_zero]
    exact ⟨by omega,h.2⟩
  | chunkData =>
    have h := hoff (sz + 4) (by omega) (by omega)
    simp only [minimalLength,missing,reduceCtorEq,false_and,if_false,add_zero]
    exact h
  | _ => simp [minimalLength,missing]

/-- After any part of a stream whose sizes fit, the length the parser names is the least
that can end the response, unless the part ends in the digits of a size that is not zero. -/
theorem minimalLength_isLeast_iff {s out : Bytes} {p : Place} (hfit : Fits start s)
    (hf : feed turn start s = ⟨out,.again p⟩) (hsize : p.size + 6 < 2 ^ 63) :
    IsLeast (endings p) (minimalLength p) ↔ ¬ (p.state = .chunkSize ∧ p.size ≠ 0) := by
  have h0 := hfit.nonneg sized_start le_rfl hf
  have hleast := isLeast_missing (sized_start.feed hf) h0
  have heq := minimalLength_eq h0 hsize
  constructor
  · intro h hp
    rw [if_pos hp] at heq
    have hsame := h.unique hleast
    omega
  · intro hp
    rw [if_neg hp,add_zero] at heq
    rwa [heq]

theorem minimalLength_isLeast_iff_digit :
    IsLeast (endings ⟨.chunkSize,5⟩) (minimalLength ⟨.chunkSize,5⟩) ↔
      ¬ (State.chunkSize = .chunkSize ∧ (5 : ℤ) ≠ 0) := by
  have hfit : Fits start [53] := Each.cons (fitsTurn_of_state (by decide)) fun q _ _ => each_nil q
  exact minimalLength_isLeast_iff hfit (show feed turn start [53] = ⟨[],.again ⟨.chunkSize,5⟩⟩ from rfl)
    (by norm_num)

/-! Bodies whose sizes are in range. -/

def Body.InRange (b : Body) : Prop :=
  (∀ c ∈ b.chunks, c.number < 2 ^ 63) ∧ b.last.number < 2 ^ 63

theorem digit_nonneg (b : UInt8) : 0 ≤ (digitOf b).getD 0 := by
  cases hd : digitOf b with
  | none => exact le_rfl
  | some d => exact (digitOf_range hd).1

theorem le_numberFrom {v : ℤ} (h0 : 0 ≤ v) (ds : Bytes) : v ≤ numberFrom v ds := by
  induction ds generalizing v with
  | nil => exact le_rfl
  | cons b ds ih =>
    have hd := digit_nonneg b
    have h := ih (v := v * 16 + (digitOf b).getD 0) (by omega)
    have hstep : numberFrom v (b :: ds) = numberFrom (v * 16 + (digitOf b).getD 0) ds := rfl
    omega

theorem fits_digits {v : ℤ} {ds : Bytes} (h0 : 0 ≤ v) (hds : Digits ds) (hlt : numberFrom v ds < 2 ^ 63) :
    Fits ⟨.chunkSize,v⟩ ds := by
  induction ds generalizing v with
  | nil => exact each_nil _
  | cons b ds ih =>
    obtain ⟨d,hd⟩ := Option.isSome_iff_exists.mp (hds b List.mem_cons_self)
    have hrange := digitOf_range hd
    have hstep : numberFrom v (b :: ds) = numberFrom (v * 16 + d) ds := by simp [numberFrom,hd]
    have hle := le_numberFrom (v := v * 16 + d) (by omega) ds
    refine Each.cons (fun _ d' hd' => ?_) fun q emit ht => ?_
    · obtain rfl := Option.some.inj (hd.symm.trans hd')
      dsimp only
      omega
    · simp only [turn,switch,hd] at ht
      obtain ⟨rfl,-⟩ := Turn.next.inj ht
      rw [offT_of_lt (by omega) (by omega)]
      exact ih (by omega) (fun c hc => hds c (List.mem_cons_of_mem b hc)) (by omega)

theorem fits_number {v : ℤ} {ds : Bytes} (hds : Digits ds) (hlt : numberFrom 0 ds < 2 ^ 63) :
    Fits ⟨.chunkStart,v⟩ ds := by
  cases ds with
  | nil => exact each_nil _
  | cons b ds =>
    obtain ⟨d,hd⟩ := Option.isSome_iff_exists.mp (hds b List.mem_cons_self)
    have hrange := digitOf_range hd
    have hstep : numberFrom 0 (b :: ds) = numberFrom d ds := by simp [numberFrom,hd]
    refine Each.cons (fitsTurn_of_state (by simp)) fun q emit ht => ?_
    simp only [turn,switch,hd] at ht
    obtain ⟨rfl,-⟩ := Turn.next.inj ht
    exact fits_digits hrange.1 (fun c hc => hds c (List.mem_cons_of_mem b hc)) (by omega)

/-- Only digits lead to the digits of a size. -/
theorem state_of_turn {p q : Place} {b : UInt8} {emit : Bytes} (hb : digitOf b = none)
    (ht : turn p b = .next q emit) : q.state ≠ .chunkSize := by
  obtain ⟨hsw,-⟩ | ⟨-,-,rfl,-⟩ := turn_next ht
  · unfold switch at hsw
    split at hsw <;> (repeat' split at hsw) <;> simp_all <;> subst hsw <;> simp_all
  · rw [settle_data]
    split <;> simp

theorem away_eol {p : Place} (hp : p.state ≠ .chunkSize) {e : Bytes} (he : Eol e) : Away p e := by
  obtain rfl | rfl := he
  · exact Each.cons hp fun q _ _ => each_nil q
  · exact Each.cons hp fun q _ ht => Each.cons (state_of_turn digitOf_cr ht) fun r _ _ => each_nil r

/-! A condition on turns that is free away from the digits of a size is a condition on the
size lines of a body. -/

section Lines

variable {Q : Place → UInt8 → Prop} (haway : ∀ p b, p.state ≠ .chunkSize → Q p b)

include haway

theorem each_of_away {p : Place} {s : Bytes} (h : Away p s) : Each turn Q p s := h.mono haway

theorem each_sizeLine (v : ℤ) (l : SizeLine) (hdigits : Each turn Q ⟨.chunkStart,v⟩ l.digits)
    (hnext : ∀ b ∈ (l.extension ++ l.eol).head?, Q ⟨.chunkSize,l.size⟩ b) :
    Each turn Q ⟨.chunkStart,v⟩ l.text := by
  refine hdigits.then (feed_number l.digits_ne l.isDigits) ?_
  obtain hx | ⟨b,w,hx,hb,hw⟩ := l.isExtension
  · rw [hx,List.nil_append] at hnext ⊢
    obtain he | he := l.isEol <;> rw [he] at hnext ⊢
    · exact Each.cons (hnext lf rfl) fun q _ _ => each_nil q
    · exact Each.cons (hnext cr rfl) fun q _ ht =>
        Each.cons (haway _ _ (state_of_turn digitOf_cr ht)) fun r _ _ => each_nil r
  · rw [hx,List.cons_append] at hnext ⊢
    refine Each.cons (hnext b rfl) fun q emit ht => ?_
    obtain ⟨hcr,hlf⟩ := not_eol_of_opensExtension hb
    rw [turn_afterDigits (digitOf_opensExtension hb),if_neg hcr,if_neg hlf,if_pos hb] at ht
    obtain ⟨rfl,-⟩ := Turn.next.inj ht
    apply each_of_away haway
    split
    · exact (away_text (skips_lastChunkExtension _) (by simp) hw).then
        (feed_text (skips_lastChunkExtension _) hw) (away_eol (by simp) l.isEol)
    · exact (away_text (skips_chunkExtension _) (by simp) hw).then
        (feed_text (skips_chunkExtension _) hw) (away_eol (by simp) l.isEol)

theorem each_chunk (v : ℤ) (c : Chunk) (hline : Each turn Q ⟨.chunkStart,v⟩ c.toSizeLine.text) :
    Each turn Q ⟨.chunkStart,v⟩ c.text := by
  have hlen := List.length_pos_iff.mpr c.data_ne
  have hsize := c.data_length
  have hfeed := feed_data (n := c.size) c.data (by omega) (by omega)
  have hjunk : Away (settle ⟨.chunkData,0⟩) (c.junk ++ c.close) :=
    (away_text (skips_afterData 0) (by simp) c.isJunk).then (feed_text (skips_afterData 0) c.isJunk)
      (away_eol (by simp) c.isClose)
  rw [hsize,sub_self] at hfeed
  refine hline.then (feed_sizeLine v c.toSizeLine) ?_
  rw [afterLine,if_neg (by omega)]
  exact each_of_away haway ((away_data (by omega) (by omega)).then hfeed hjunk)

theorem each_chunks (v : ℤ) (cs : List Chunk)
    (hlines : ∀ c ∈ cs, ∀ u, Each turn Q ⟨.chunkStart,u⟩ c.toSizeLine.text) :
    Each turn Q ⟨.chunkStart,v⟩ (chunksText cs) := by
  induction cs generalizing v with
  | nil => exact each_nil _
  | cons c cs ih =>
    rw [← List.singleton_append,chunksText_append,chunksText_singleton]
    exact (each_chunk haway v c (hlines c List.mem_cons_self v)).then (feed_chunk v c)
      (ih 0 (fun d hd => hlines d (List.mem_cons_of_mem c hd)))

omit haway in
theorem away_headers (v : ℤ) (hs : List Header) : Away ⟨.trailer,v⟩ (headersText hs) := by
  induction hs with
  | nil => exact each_nil _
  | cons h hs ih =>
    obtain ⟨b,w,hcr,hlf,hw,hall⟩ := headersText_cons h hs
    rw [hall]
    refine Each.cons (by simp) fun q emit ht => ?_
    rw [turn_of_next (switch_trailer v hcr hlf)] at ht
    obtain ⟨rfl,-⟩ := Turn.next.inj ht
    have hnext := (away_eol (by simp) h.isEol).then (feed_eol (endsLine_trailerHeader v) h.isEol) ih
    exact (away_text (skips_trailerHeader v) (by simp) hw).then (feed_text (skips_trailerHeader v) hw) hnext

theorem each_body (b : Body) (hchunks : ∀ c ∈ b.chunks, ∀ u, Each turn Q ⟨.chunkStart,u⟩ c.toSizeLine.text)
    (hlast : ∀ u, Each turn Q ⟨.chunkStart,u⟩ b.last.toSizeLine.text) : Each turn Q start b.text := by
  obtain ⟨u,hu⟩ := feed_chunks 0 b.chunks
  refine (each_chunks haway 0 b.chunks hchunks).then hu ?_
  refine (hlast u).then (feed_sizeLine u b.last.toSizeLine) ?_
  rw [afterLine,if_pos b.last.size_zero]
  exact each_of_away haway ((away_headers _ b.last.headers).then (feed_headers _ b.last.headers)
    (away_eol (by simp) b.last.isClose))

end Lines

theorem fits_body (b : Body) (h : b.InRange) : Fits start b.text := by
  have hline : ∀ (l : SizeLine) (u : ℤ), l.number < 2 ^ 63 → Fits ⟨.chunkStart,u⟩ l.text := by
    intro l u hl
    refine each_sizeLine (fun _ _ => fitsTurn_of_state) u l (fits_number l.isDigits hl) fun b hb => ?_
    obtain hx | ⟨c,w,hx,hc,-⟩ := l.isExtension
    · rw [hx,List.nil_append] at hb
      obtain he | he := l.isEol <;> rw [he] at hb <;> obtain rfl := Option.some.inj hb
      · exact fitsTurn_of_none digitOf_lf
      · exact fitsTurn_of_none digitOf_cr
    · rw [hx,List.cons_append] at hb
      obtain rfl := Option.some.inj hb
      exact fitsTurn_of_none (digitOf_opensExtension hc)
  exact each_body (fun _ _ => fitsTurn_of_state) b (fun c hc u => hline c.toSizeLine u (h.1 c hc))
    (fun u => hline b.last.toSizeLine u h.2)

theorem inRange_written (r : Response) : r.body.InRange := by
  refine ⟨fun c hc => ?_,?_⟩
  · obtain ⟨n,hn,hline⟩ := exists_sizeLine r hc
    rw [hline,number_sizeLine]
    exact_mod_cast hn
  · have hlast : r.body.last.number = 0 := number_sizeLine 0
    rw [hlast]
    norm_num

/-- No size of the body is followed by a bare line feed. -/
def NoBareLf (p : Place) (b : UInt8) : Prop := p.state = .chunkSize → b ≠ lf

theorem noBareLf_written (r : Response) : Each turn NoBareLf start r.written := by
  have haway : ∀ (p : Place) (b : UInt8), p.state ≠ .chunkSize → NoBareLf p b :=
    fun p b hp hst => absurd hst hp
  have hline : ∀ (n : ℕ) (u : ℤ), Each turn NoBareLf ⟨.chunkStart,u⟩ (sizeLine n).text := by
    intro n u
    refine each_sizeLine haway u (sizeLine n) (each_of_mem fun p b hb _ => ?_) fun b hb _ => ?_
    · rintro rfl
      have hdigit := (sizeLine n).isDigits lf hb
      rw [digitOf_lf] at hdigit
      cases hdigit
    · obtain rfl : cr = b := Option.some.inj hb
      decide
  rw [← text_body]
  refine each_body haway r.body (fun c hc u => ?_) (hline 0)
  obtain ⟨n,-,hsize⟩ := exists_sizeLine r hc
  rw [hsize]
  exact hline n u

end SunshineService.Nginx.Chunked
