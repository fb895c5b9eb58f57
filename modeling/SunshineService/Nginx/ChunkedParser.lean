import SunshineService.Foundation.StreamMachine
import SunshineService.Foundation.Utf8
import Mathlib.Data.Int.Basic
import Mathlib.Tactic.Linarith

/-! # The parser of a chunked response

`parseChunked` is the state machine of the proxy module over one buffer. It stops at a
byte of data, which the caller takes together with the rest of the chunk. Reading byte
by byte, data included, is the plain machine `turn`. It says what a stream means as long
as no size is negative as an `off_t`, and stops where data of a negative size is due.
-/
namespace SunshineService.Nginx.Chunked
open StreamMachine Utf8

def cr : UInt8 := 13
def lf : UInt8 := 10

inductive State
  | chunkStart
  | chunkSize
  | chunkExtension
  | chunkExtensionAlmostDone
  | chunkData
  | afterData
  | afterDataAlmostDone
  | lastChunkExtension
  | lastChunkExtensionAlmostDone
  | trailer
  | trailerAlmostDone
  | trailerHeader
  | trailerHeaderAlmostDone
  deriving DecidableEq

structure Place where
  state : State
  size : ℤ
  deriving DecidableEq

structure Ctx extends Place where
  length : ℤ
  deriving DecidableEq

/-- A value of type `off_t`. -/
def offT (n : ℤ) : ℤ := n.bmod (2 ^ 64)

/-- The two ranges of bytes that are hexadecimal digits. -/
def digitOf (ch : UInt8) : Option ℤ :=
  if 48 ≤ ch ∧ ch ≤ 57 then some (ch.toNat - 48)
  else if 97 ≤ ch ||| 0x20 ∧ ch ||| 0x20 ≤ 102 then some ((ch ||| 0x20).toNat - 97 + 10)
  else none

/-- A byte that ends the size and opens an extension. -/
def opensExtension (ch : UInt8) : Bool := ch = 59 || ch = 32 || ch = 9

/-- What one byte does: it goes on, it is data, it ends the response, or it is invalid. -/
inductive Switch
  | next (p : Place)
  | data
  | done
  | invalid

def switch (p : Place) (ch : UInt8) : Switch :=
  match p.state with
  | .chunkStart =>
    match digitOf ch with
    | some d => .next ⟨.chunkSize,d⟩
    | none => .invalid
  | .chunkSize =>
    match digitOf ch with
    | some d => .next ⟨.chunkSize,offT (p.size * 16 + d)⟩
    | none =>
      if p.size = 0 then
        if ch = cr then .next ⟨.lastChunkExtensionAlmostDone,p.size⟩
        else if ch = lf then .next ⟨.trailer,p.size⟩
        else if opensExtension ch then .next ⟨.lastChunkExtension,p.size⟩
        else .invalid
      else
        if ch = cr then .next ⟨.chunkExtensionAlmostDone,p.size⟩
        else if ch = lf then .next ⟨.chunkData,p.size⟩
        else if opensExtension ch then .next ⟨.chunkExtension,p.size⟩
        else .invalid
  | .chunkExtension =>
    if ch = cr then .next ⟨.chunkExtensionAlmostDone,p.size⟩
    else if ch = lf then .next ⟨.chunkData,p.size⟩
    else .next p
  | .chunkExtensionAlmostDone => if ch = lf then .next ⟨.chunkData,p.size⟩ else .invalid
  | .chunkData => .data
  | .afterData =>
    if ch = cr then .next ⟨.afterDataAlmostDone,p.size⟩
    else if ch = lf then .next ⟨.chunkStart,p.size⟩
    else .next p
  | .afterDataAlmostDone => if ch = lf then .next ⟨.chunkStart,p.size⟩ else .invalid
  | .lastChunkExtension =>
    if ch = cr then .next ⟨.lastChunkExtensionAlmostDone,p.size⟩
    else if ch = lf then .next ⟨.trailer,p.size⟩
    else .next p
  | .lastChunkExtensionAlmostDone => if ch = lf then .next ⟨.trailer,p.size⟩ else .invalid
  | .trailer =>
    if ch = cr then .next ⟨.trailerAlmostDone,p.size⟩
    else if ch = lf then .done
    else .next ⟨.trailerHeader,p.size⟩
  | .trailerAlmostDone => if ch = lf then .done else .invalid
  | .trailerHeader =>
    if ch = cr then .next ⟨.trailerHeaderAlmostDone,p.size⟩
    else if ch = lf then .next ⟨.trailer,p.size⟩
    else .next p
  | .trailerHeaderAlmostDone => if ch = lf then .next ⟨.trailer,p.size⟩ else .invalid

inductive Rc
  | ok
  | again
  | done
  | error
  deriving DecidableEq

/-- The loop over the buffer: the code returned, the place, and the bytes from `pos` on. -/
def parseLoop (p : Place) : Bytes → Rc × Place × Bytes
  | [] => (.again,p,[])
  | ch :: rest => match switch p ch with
    | .next q => parseLoop q rest
    | .data => (.ok,p,ch :: rest)
    | .done => (.done,p,rest)
    | .invalid => (.error,p,rest)

/-- The data of a chunk that is spent leaves only what follows it. -/
def settle (p : Place) : Place :=
  if p.state = .chunkData ∧ p.size = 0 then ⟨.afterData,p.size⟩ else p

/-- The minimal amount of data the caller wants to see before the next call. -/
def minimalLength (p : Place) : ℤ :=
  match p.state with
  | .chunkStart => 3
  | .chunkSize => offT (2 + if p.size = 0 then 0 else p.size + 4)
  | .chunkExtension | .chunkExtensionAlmostDone => offT (1 + p.size + 4)
  | .chunkData => offT (p.size + 4)
  | .afterData | .afterDataAlmostDone => 4
  | .lastChunkExtension | .lastChunkExtensionAlmostDone => 2
  | .trailer | .trailerAlmostDone => 1
  | .trailerHeader | .trailerHeaderAlmostDone => 2

/-- When the response ended or is invalid, only the size has been written back. -/
def parseChunked (ctx : Ctx) (buf : Bytes) : Rc × Ctx × Bytes :=
  match parseLoop (settle ctx.toPlace) buf with
  | (.done,p,_) => (.done,{ ctx with size := p.size },buf)
  | (.error,p,_) => (.error,{ ctx with size := p.size },buf)
  | (rc,p,rest) => (rc,⟨p,minimalLength p⟩,rest)

/-! The plain machine. -/

inductive End
  | done
  | invalid
  | negative
  deriving DecidableEq

def turn (p : Place) (ch : UInt8) : Turn Place UInt8 End :=
  match switch p ch with
  | .next q => .next q []
  | .data => if p.size < 0 then .stop .negative else .next (settle ⟨.chunkData,p.size - 1⟩) [ch]
  | .done => .stop .done
  | .invalid => .stop .invalid

theorem switch_data_iff {p : Place} {ch : UInt8} : switch p ch = .data ↔ p.state = .chunkData := by
  constructor
  · intro h
    by_contra hst
    unfold switch at h
    split at h <;> (repeat' split at h) <;> contradiction
  · intro h
    simp only [switch,h]

theorem turn_of_next {p q : Place} {ch : UInt8} (h : switch p ch = .next q) :
    turn p ch = .next q [] := by simp only [turn,h]

theorem turn_of_done {p : Place} {ch : UInt8} (h : switch p ch = .done) :
    turn p ch = .stop .done := by simp only [turn,h]

theorem turn_of_invalid {p : Place} {ch : UInt8} (h : switch p ch = .invalid) :
    turn p ch = .stop .invalid := by simp only [turn,h]

theorem turn_data {n : ℤ} (hn : 0 < n) (ch : UInt8) :
    turn ⟨.chunkData,n⟩ ch = .next (settle ⟨.chunkData,n - 1⟩) [ch] :=
  if_neg hn.not_gt

theorem turn_data_negative {p : Place} (hp : p.state = .chunkData) (hs : p.size < 0) (ch : UInt8) :
    turn p ch = .stop .negative := by
  simp only [turn,switch_data_iff.mpr hp,if_pos hs]

/-- A turn that goes on is a step of the parser, or takes one byte of data. -/
theorem turn_next {p q : Place} {ch : UInt8} {emit : Bytes} (h : turn p ch = .next q emit) :
    (switch p ch = .next q ∧ emit = []) ∨
      (p.state = .chunkData ∧ 0 ≤ p.size ∧ q = settle ⟨.chunkData,p.size - 1⟩ ∧ emit = [ch]) := by
  cases hs : switch p ch with
  | next r =>
    rw [turn_of_next hs] at h
    obtain ⟨rfl,rfl⟩ := Turn.next.inj h
    exact .inl ⟨rfl,rfl⟩
  | done => simp [turn_of_done hs] at h
  | invalid => simp [turn_of_invalid hs] at h
  | data =>
    have hst := switch_data_iff.mp hs
    simp only [turn,hs] at h
    split at h
    · cases h
    · obtain ⟨rfl,rfl⟩ := Turn.next.inj h
      exact .inr ⟨hst,by omega,rfl,rfl⟩

/-- Where the data of a chunk is due, its size is not zero. -/
def Sized (p : Place) : Prop :=
  p.state = .chunkExtension ∨ p.state = .chunkExtensionAlmostDone ∨ p.state = .chunkData → p.size ≠ 0

theorem Sized.settle_eq {p : Place} (h : Sized p) : settle p = p :=
  if_neg (fun hp => h (.inr (.inr hp.1)) hp.2)

theorem settle_data (n : ℤ) :
    settle ⟨.chunkData,n⟩ = if n = 0 then ⟨.afterData,0⟩ else ⟨.chunkData,n⟩ := by
  unfold settle
  by_cases hn : n = 0 <;> simp [hn]

theorem sized_settle_data (n : ℤ) : Sized (settle ⟨.chunkData,n⟩) := by
  unfold settle
  split
  · intro h
    simp at h
  · rename_i hn
    intro _ hz
    exact hn ⟨rfl,hz⟩

theorem Sized.next {p q : Place} {ch : UInt8} (h : Sized p) (hq : switch p ch = .next q) : Sized q := by
  unfold switch at hq
  unfold Sized at h ⊢
  split at hq <;> (repeat' split at hq) <;> simp_all <;> subst hq <;> simp_all

theorem Sized.turn {p q : Place} {ch : UInt8} {emit : Bytes} (h : Sized p)
    (hq : turn p ch = .next q emit) : Sized q := by
  obtain ⟨hs,-⟩ | ⟨-,-,rfl,-⟩ := turn_next hq
  · exact h.next hs
  · exact sized_settle_data _

theorem Sized.feed {p q : Place} {bs out : Bytes} (h : Sized p)
    (hf : feed Chunked.turn p bs = ⟨out,.again q⟩) : Sized q := by
  have hkept : Kept Chunked.turn (fun p _ _ => Sized p) :=
    fun _ _ _ _ _ _ hp ht => hp.turn ht
  exact @Kept.of_again _ _ _ _ _ hkept p q [] [] bs out h hf

def start : Place := ⟨.chunkStart,0⟩

theorem sized_start : Sized start := by
  intro h
  simp [start] at h

/-- The plain machine takes the data of a chunk one byte at a time. -/
theorem feed_data {n : ℤ} (xs : Bytes) (hn : 0 < n) (hle : xs.length ≤ n) :
    feed turn ⟨.chunkData,n⟩ xs = ⟨xs,.again (settle ⟨.chunkData,n - xs.length⟩)⟩ := by
  induction xs generalizing n with
  | nil =>
    have hsized : Sized ⟨.chunkData,n⟩ := fun _ => hn.ne'
    simp [hsized.settle_eq]
  | cons b xs ih =>
    rw [List.length_cons,Nat.cast_add,Nat.cast_one] at hle
    rw [feed_next (turn_data hn b),List.length_cons]
    obtain hz | hpos := (by omega : n - 1 = 0 ∨ 0 < n - 1)
    · have hxs : xs = [] := List.length_eq_zero_iff.mp (by omega)
      subst hxs
      simp
    · have hsized : Sized ⟨.chunkData,n - 1⟩ := fun _ => hpos.ne'
      rw [hsized.settle_eq,ih hpos (by omega)]
      simp only [List.singleton_append,Nat.cast_add,Nat.cast_one,Fed.mk.injEq,true_and]
      congr 3
      omega

end SunshineService.Nginx.Chunked
