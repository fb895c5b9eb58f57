import Mathlib.Data.Finset.Basic

/-! # Cutting a byte stream into delimited frames

`scan` reads a stream left to right and closes a frame at each occurrence of the
delimiter, so its result depends only on the concatenation of the segments read.
A frame is `Fresh` when the delimiter occurs in the delimited frame only at its
end; over fresh frames every cut of the stream yields exactly the frames that are
complete and keeps a piece of the next one.
-/
namespace SunshineService.Framing
variable {α : Type*} [DecidableEq α]

structure Scan (α : Type*) where
  frames : List (List α)
  tail : List α
  deriving DecidableEq

def start : Scan α := ⟨[],[]⟩

def push (d : List α) (s : Scan α) (b : α) : Scan α :=
  if d <:+ s.tail ++ [b] then
    ⟨s.frames ++ [(s.tail ++ [b]).take ((s.tail ++ [b]).length - d.length)],[]⟩
  else ⟨s.frames,s.tail ++ [b]⟩

def scan (d : List α) (s : Scan α) (bs : List α) : Scan α := bs.foldl (push d) s

def frames (d bs : List α) : List (List α) := (scan d start bs).frames

def tail (d bs : List α) : List α := (scan d start bs).tail

def delimited (d : List α) (fs : List (List α)) : List α := (fs.map (fun f => f ++ d)).flatten

omit [DecidableEq α] in
@[simp] theorem delimited_nil (d : List α) : delimited d [] = [] := rfl

omit [DecidableEq α] in
@[simp] theorem delimited_cons (d f : List α) (fs : List (List α)) :
    delimited d (f :: fs) = f ++ d ++ delimited d fs := rfl

omit [DecidableEq α] in
theorem delimited_append (d : List α) (fs gs : List (List α)) :
    delimited d (fs ++ gs) = delimited d fs ++ delimited d gs := by
  simp [delimited]

omit [DecidableEq α] in
theorem length_le_delimited (d : List α) {f : List α} {fs : List (List α)} (hf : f ∈ fs) :
    f.length ≤ (delimited d fs).length := by
  have hmem : f ++ d ∈ fs.map (fun f => f ++ d) := List.mem_map_of_mem hf
  exact (List.sublist_append_left f d).length_le.trans (List.sublist_flatten_of_mem hmem).length_le

theorem scan_append (d : List α) (s : Scan α) (xs ys : List α) :
    scan d s (xs ++ ys) = scan d (scan d s xs) ys := List.foldl_append

theorem push_joined (d : List α) (s : Scan α) (b : α) :
    delimited d (push d s b).frames ++ (push d s b).tail =
      delimited d s.frames ++ (s.tail ++ [b]) := by
  unfold push
  by_cases h : d <:+ s.tail ++ [b]
  · have hsplit := List.suffix_iff_eq_append.mp h
    simp only [h,↓reduceIte,delimited_append,delimited_cons,delimited_nil,List.append_nil]
    rw [hsplit]
  · simp only [h,↓reduceIte]

/-- Nothing is lost or invented: frames, delimiters and tail make up the input. -/
theorem delimited_frames_append_tail (d bs : List α) :
    delimited d (frames d bs) ++ tail d bs = bs := by
  suffices h : ∀ s : Scan α, delimited d (scan d s bs).frames ++ (scan d s bs).tail =
      delimited d s.frames ++ (s.tail ++ bs) by
    exact h start
  induction bs with
  | nil => simp [scan]
  | cons b bs ih =>
    intro s
    have hstep := push_joined d s b
    have hrest := ih (push d s b)
    rw [← List.append_assoc,hstep] at hrest
    simpa [scan] using hrest

theorem scan_frames (d : List α) (fs : List (List α)) (t bs : List α) :
    scan d ⟨fs,t⟩ bs = ⟨fs ++ (scan d ⟨[],t⟩ bs).frames,(scan d ⟨[],t⟩ bs).tail⟩ := by
  induction bs generalizing fs t with
  | nil => simp [scan]
  | cons b bs ih =>
    have hcons : ∀ s : Scan α, scan d s (b :: bs) = scan d (push d s b) bs := fun _ => rfl
    rw [hcons,hcons]
    by_cases h : d <:+ t ++ [b]
    · simp only [push,h,↓reduceIte,List.nil_append]
      rw [ih (fs ++ _),ih [_]]
      simp
    · simp only [push,h,↓reduceIte]
      exact ih fs (t ++ [b])

/-- Frames that have been closed stay closed, and the tail is all that scanning goes on from. -/
theorem frames_append (d xs ys : List α) :
    frames d (xs ++ ys) = frames d xs ++ (scan d ⟨[],tail d xs⟩ ys).frames := by
  unfold frames tail
  rw [scan_append,scan_frames]

theorem tail_append (d xs ys : List α) : tail d (xs ++ ys) = (scan d ⟨[],tail d xs⟩ ys).tail := by
  unfold tail
  rw [scan_append,scan_frames]

/-! ## Fresh frames -/

/-- The delimiter occurs in `f ++ d` only at its end. -/
def Fresh (d f : List α) : Prop := ∀ p, p <+: f ++ d → d <:+ p → p = f ++ d

theorem scan_inside {d f p : List α} (hf : Fresh d f) (hp : p <+: f ++ d)
    (hne : p ≠ f ++ d) : scan d start p = ⟨[],p⟩ := by
  induction p using List.reverseRecOn with
  | nil => rfl
  | append_singleton q b ih =>
    have hq : q <+: f ++ d := (List.prefix_append q [b]).trans hp
    have hqne : q ≠ f ++ d := by
      intro h
      have hlen := hp.length_le
      rw [h] at hlen
      simp only [List.length_append,List.length_singleton] at hlen
      omega
    have hno : ¬ d <:+ q ++ [b] := fun hs => hne (hf _ hp hs)
    rw [scan_append,ih hq hqne]
    simp [scan,push,hno]

theorem scan_delimited_frame {d f : List α} (hd : d ≠ []) (hf : Fresh d f) :
    scan d start (f ++ d) = ⟨[f],[]⟩ := by
  obtain ⟨d',b,rfl⟩ : ∃ d' b, d = d' ++ [b] := ⟨_,_,(List.dropLast_append_getLast hd).symm⟩
  have hp : f ++ d' <+: f ++ (d' ++ [b]) := by
    rw [← List.append_assoc]
    exact List.prefix_append _ _
  have hne : f ++ d' ≠ f ++ (d' ++ [b]) := by
    intro h
    have hlen := congrArg List.length h
    simp at hlen
  rw [← List.append_assoc,scan_append,scan_inside hf hp hne]
  have hs : d' ++ [b] <:+ f ++ d' ++ [b] := ⟨f,by simp⟩
  simp only [scan,List.foldl_cons,List.foldl_nil,push,hs,↓reduceIte,List.nil_append]
  simp

theorem frames_delimited {d : List α} (hd : d ≠ []) {fs : List (List α)}
    (hfs : ∀ f ∈ fs, Fresh d f) : frames d (delimited d fs) = fs := by
  induction fs with
  | nil => rfl
  | cons f fs ih =>
    have hrest := ih (fun g hg => hfs g (List.mem_cons_of_mem f hg))
    have hf := hfs f List.mem_cons_self
    rw [delimited_cons,frames,scan_append,scan_delimited_frame hd hf,scan_frames]
    exact congrArg (List.cons f) hrest

theorem tail_delimited {d : List α} (hd : d ≠ []) {fs : List (List α)}
    (hfs : ∀ f ∈ fs, Fresh d f) : tail d (delimited d fs) = [] := by
  have hsplit := delimited_frames_append_tail d (delimited d fs)
  rw [frames_delimited hd hfs] at hsplit
  exact List.append_right_eq_self.mp hsplit

/-! ## The frames of any stream -/

/-- What has been read since the last closed frame never completed the delimiter. -/
structure Clean (d : List α) (s : Scan α) : Prop where
  frames_fresh : ∀ f ∈ s.frames, Fresh d f
  tail_open : ∀ q, q <+: s.tail → ¬ d <:+ q

omit [DecidableEq α] in
theorem clean_start {d : List α} (hd : d ≠ []) : Clean d start := by
  refine ⟨by simp [start],?_⟩
  intro q hq hs
  obtain rfl := List.prefix_nil.mp hq
  exact hd (List.suffix_nil.mp hs)

theorem Clean.push {d : List α} {s : Scan α} (h : Clean d s) (hd : d ≠ []) (b : α) :
    Clean d (push d s b) := by
  unfold Framing.push
  by_cases hs : d <:+ s.tail ++ [b]
  · have hsplit := List.suffix_iff_eq_append.mp hs
    simp only [hs,↓reduceIte]
    refine ⟨?_,(clean_start hd).tail_open⟩
    intro f hf
    rcases List.mem_append.mp hf with hold | hnew
    · exact h.frames_fresh f hold
    · obtain rfl := List.mem_singleton.mp hnew
      unfold Fresh
      rw [hsplit]
      -- a shorter prefix lies inside the tail as it was before `b`
      intro p hp hdp
      rcases List.prefix_concat_iff.mp hp with heq | hp
      · exact heq
      · exact absurd hdp (h.tail_open p hp)
  · simp only [hs,↓reduceIte]
    refine ⟨h.frames_fresh,?_⟩
    intro q hq
    rcases List.prefix_concat_iff.mp hq with rfl | hq
    · exact hs
    · exact h.tail_open q hq

theorem clean_scan {d : List α} (hd : d ≠ []) (bs : List α) : Clean d (scan d start bs) := by
  induction bs using List.reverseRecOn with
  | nil => exact clean_start hd
  | append_singleton bs b ih =>
    rw [scan_append]
    exact ih.push hd b

/-- What cannot close a frame is read as one open piece. -/
theorem scan_open {d t : List α} (ht : ∀ q, q <+: t → ¬ d <:+ q) : scan d start t = ⟨[],t⟩ := by
  induction t using List.reverseRecOn with
  | nil => rfl
  | append_singleton t b ih =>
    have hno : ¬ d <:+ t ++ [b] := ht _ List.prefix_rfl
    rw [scan_append,ih (fun q hq => ht q (hq.trans (List.prefix_append t [b])))]
    simp [scan,push,hno]

theorem scan_tail {d : List α} (hd : d ≠ []) (xs : List α) :
    scan d start (tail d xs) = ⟨[],tail d xs⟩ := scan_open (clean_scan hd xs).tail_open

/-- Scanning goes on as if it began with the open piece. -/
theorem frames_append_tail {d : List α} (hd : d ≠ []) (xs ys : List α) :
    frames d (xs ++ ys) = frames d xs ++ frames d (tail d xs ++ ys) := by
  have hopen := scan_tail hd xs
  rw [frames_append,frames_append d (tail d xs) ys]
  simp only [frames,tail] at hopen ⊢
  rw [hopen]
  rfl

theorem tail_append_tail {d : List α} (hd : d ≠ []) (xs ys : List α) :
    tail d (xs ++ ys) = tail d (tail d xs ++ ys) := by
  have hopen := scan_tail hd xs
  rw [tail_append,tail_append d (tail d xs) ys]
  simp only [tail] at hopen ⊢
  rw [hopen]

theorem frames_delimited_frames {d : List α} (hd : d ≠ []) (bs : List α) :
    frames d (delimited d (frames d bs)) = frames d bs :=
  frames_delimited hd (clean_scan hd bs).frames_fresh

/-- An unfinished piece either stays unfinished or is part of the first frame closed. -/
theorem scan_from_tail (d t bs : List α) :
    scan d ⟨[],t⟩ bs = ⟨[],t ++ bs⟩ ∨
      ∃ f ∈ (scan d ⟨[],t⟩ bs).frames, t <+: f ++ d ∧ t.length < (f ++ d).length := by
  induction bs generalizing t with
  | nil => exact Or.inl (by simp [scan])
  | cons b bs ih =>
    have hcons : scan d ⟨[],t⟩ (b :: bs) = scan d (push d ⟨[],t⟩ b) bs := rfl
    rw [hcons]
    by_cases h : d <:+ t ++ [b]
    · have hsplit := List.suffix_iff_eq_append.mp h
      refine Or.inr ⟨(t ++ [b]).take ((t ++ [b]).length - d.length),?_,?_⟩
      · simp only [push,h,↓reduceIte,List.nil_append]
        rw [scan_frames]
        exact List.mem_append_left _ List.mem_cons_self
      · rw [hsplit]
        exact ⟨List.prefix_append t [b],by simp⟩
    · simp only [push,h,↓reduceIte]
      rcases ih (t ++ [b]) with heq | ⟨f,hf,hpiece,hlt⟩
      · exact Or.inl (by rw [heq,List.append_assoc,List.singleton_append])
      · refine Or.inr ⟨f,hf,(List.prefix_append t [b]).trans hpiece,?_⟩
        rw [List.length_append] at hlt
        omega

theorem frames_mono {d p bs : List α} (hp : p <+: bs) : frames d p <+: frames d bs := by
  obtain ⟨r,rfl⟩ := hp
  rw [frames_append]
  exact List.prefix_append _ _

/-- Cut anywhere, a stream leaves a piece of its tail or of one of its frames. -/
theorem tail_of_prefix {d p bs : List α} (hp : p <+: bs) :
    tail d p <+: tail d bs ∨
      ∃ f ∈ frames d bs, tail d p <+: f ++ d ∧ (tail d p).length < (f ++ d).length := by
  obtain ⟨r,rfl⟩ := hp
  rw [tail_append,frames_append]
  rcases scan_from_tail d (tail d p) r with heq | ⟨f,hf,h⟩
  · rw [heq]
    exact Or.inl (List.prefix_append _ _)
  · exact Or.inr ⟨f,List.mem_append_right _ hf,h⟩

/-- Any cut of a stream of fresh frames: the complete ones, then a piece of the next. -/
theorem scan_prefix {d : List α} (hd : d ≠ []) {fs : List (List α)} (hfs : ∀ f ∈ fs, Fresh d f)
    {p : List α} (hp : p <+: delimited d fs) :
    frames d p <+: fs ∧ (tail d p = [] ∨ ∃ f ∈ fs, tail d p <+: f ++ d) := by
  have hframes := frames_mono (d := d) hp
  have hpiece := tail_of_prefix (d := d) hp
  rw [frames_delimited hd hfs] at hframes hpiece
  rw [tail_delimited hd hfs] at hpiece
  refine ⟨hframes,?_⟩
  rcases hpiece with hnil | ⟨f,hf,hin,_⟩
  · exact Or.inl (List.prefix_nil.mp hnil)
  · exact Or.inr ⟨f,hf,hin⟩

/-! ## Delimiters that do not overlap themselves -/

/-- No proper piece of `d` both begins and ends it. -/
def Unbordered (d : List α) : Prop := ∀ b, b <+: d → b <:+ d → b = [] ∨ b = d

omit [DecidableEq α] in
/-- A cut of two pieces stays in the first or keeps it and cuts the second. -/
theorem cut_append {xs ys p : List α} (h : p <+: xs ++ ys) :
    p <+: xs ∨ ∃ q, q <+: ys ∧ p = xs ++ q := by
  have hpieces := List.prefix_or_prefix_of_prefix h (List.prefix_append xs ys)
  refine hpieces.imp_right ?_
  rintro ⟨q,rfl⟩
  exact ⟨q,(List.prefix_append_right_inj xs).mp h,rfl⟩

omit [DecidableEq α] in
/-- A frame without the delimiter in it is fresh: no occurrence begins in the frame and
ends in the delimiter behind it. -/
theorem fresh_of_not_infix {d f : List α} (hu : Unbordered d) (h : ¬ d <:+: f) : Fresh d f := by
  intro p hp hs
  rcases cut_append hp with hin | ⟨e,he,rfl⟩
  · exact absurd (List.infix_iff_suffix_prefix.mpr ⟨p,hs,hin⟩) h
  · have hsuffix : e <:+ d :=
      List.suffix_of_suffix_length_le (List.suffix_append f e) hs he.length_le
    rcases hu e he hsuffix with rfl | rfl
    · rw [List.append_nil] at hs
      exact absurd hs.isInfix h
    · rfl

omit [DecidableEq α] in
theorem unbordered_singleton (a : α) : Unbordered [a] := by
  intro b hp _
  rcases List.prefix_cons_iff.mp hp with rfl | ⟨t,rfl,ht⟩
  · exact Or.inl rfl
  · obtain rfl := List.prefix_nil.mp ht
    exact Or.inr rfl

omit [DecidableEq α] in
theorem fresh_singleton {a : α} {f : List α} (h : a ∉ f) : Fresh [a] f :=
  fresh_of_not_infix (unbordered_singleton a) (mt (List.singleton_infix_iff a f).mp h)

omit [DecidableEq α] in
/-- Nor does one begin in a closed delimiter and end in what follows. -/
theorem Unbordered.suffix_right {d xs e : List α} (hu : Unbordered d) (hxs : xs = [] ∨ d <:+ xs)
    (he : e ≠ []) (h : d <:+ xs ++ e) : d <:+ e := by
  rcases List.suffix_or_suffix_of_suffix h (List.suffix_append xs e) with hin | ⟨c,rfl⟩
  · exact hin
  · obtain ⟨r,hr⟩ := h
    rw [← List.append_assoc] at hr
    have hc : c <:+ xs := ⟨r,List.append_cancel_right hr⟩
    rcases hxs with rfl | hxs
    · obtain rfl := List.suffix_nil.mp hc
      exact List.suffix_rfl
    · have hborder : c <:+ c ++ e := List.suffix_of_suffix_length_le hc hxs (by simp)
      rcases hu c (List.prefix_append c e) hborder with rfl | heq
      · exact List.suffix_rfl
      · exact absurd (List.self_eq_append_right.mp heq) he

theorem frames_eq_nil {d bs : List α} (h : ¬ d <:+: bs) : frames d bs = [] := by
  have hsplit := delimited_frames_append_tail d bs
  cases hf : frames d bs with
  | nil => rfl
  | cons f fs =>
    rw [hf,delimited_cons] at hsplit
    refine absurd ⟨f,delimited d fs ++ tail d bs,?_⟩ h
    rw [← List.append_assoc]
    exact hsplit

/-- Frames and a rest without the delimiter in them are what scanning finds again. -/
theorem frames_delimited_append {d : List α} (hd : d ≠ []) (hu : Unbordered d)
    {fs : List (List α)} (hfs : ∀ f ∈ fs, ¬ d <:+: f) {rest : List α} (hrest : ¬ d <:+: rest) :
    frames d (delimited d fs ++ rest) = fs := by
  have hfresh := fun f hf => fresh_of_not_infix hu (hfs f hf)
  rw [frames_append,frames_delimited hd hfresh,tail_delimited hd hfresh]
  exact (congrArg (fs ++ ·) (frames_eq_nil hrest)).trans (List.append_nil fs)

omit [DecidableEq α] in
/-- An open piece and bytes that do not contain the last of the delimiter close no frame. -/
theorem not_infix_append {d t c : List α} {b : α} (hb : [b] <:+ d) (ht : ∀ q, q <+: t → ¬ d <:+ q)
    (hc : b ∉ c) : ¬ d <:+: t ++ c := by
  intro h
  obtain ⟨p,hs,hp⟩ := List.infix_iff_suffix_prefix.mp h
  rcases cut_append hp with hin | ⟨q,hq,rfl⟩
  · exact ht p hin hs
  · by_cases hne : q = []
    · subst hne
      rw [List.append_nil] at hs
      exact ht t List.prefix_rfl hs
    · have hlast : [b] <:+ q := by
        apply List.suffix_of_suffix_length_le (hb.trans hs) (List.suffix_append t q)
        exact List.length_pos_of_ne_nil hne
      exact hc (hq.subset (hlast.subset List.mem_cons_self))

/-- `p` is the longest prefix of `bs` that ends in `d`, empty when none does. -/
structure LongestEnding (d bs p : List α) : Prop where
  prefix_of : p <+: bs
  ends : p = [] ∨ d <:+ p
  longest : ∀ q, q <+: bs → d <:+ q → q <+: p

omit [DecidableEq α] in
theorem delimited_ends (d : List α) (fs : List (List α)) :
    delimited d fs = [] ∨ d <:+ delimited d fs := by
  induction fs using List.reverseRecOn with
  | nil => exact Or.inl rfl
  | append_singleton fs f _ =>
    refine Or.inr ?_
    rw [delimited_append,delimited_cons,delimited_nil,List.append_nil,← List.append_assoc]
    exact List.suffix_append _ _

/-- The frames of a stream, delimited again, make up all of it up to its last delimiter. -/
theorem longestEnding_frames {d : List α} (hd : d ≠ []) (hu : Unbordered d) (bs : List α) :
    LongestEnding d bs (delimited d (frames d bs)) := by
  have hsplit := delimited_frames_append_tail d bs
  refine ⟨⟨tail d bs,hsplit⟩,delimited_ends d _,?_⟩
  intro q hq hs
  nth_rewrite 1 [← hsplit] at hq
  rcases cut_append hq with hin | ⟨e,he,rfl⟩
  · exact hin
  · by_cases hne : e = []
    · rw [hne,List.append_nil]
    · exact absurd (hu.suffix_right (delimited_ends d _) hne hs) ((clean_scan hd bs).tail_open e he)

end SunshineService.Framing
