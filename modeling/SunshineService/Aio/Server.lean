import SunshineService.Aio.ServerHandler
import SunshineService.Foundation.Interleaving

/-! # The AIO server with all its connections

`run` starts the first accept and waits for the latch. The accept callback starts the
next accept before it reads from the new channel, so one accept is outstanding until one
fails, which counts the latch down. The connections complete their operations in any
order. When `run` has returned only daemon threads are left and the process may end.
-/
namespace SunshineService.AIOServer
open TransitionRun ProcessUtils Utf8 Constant AIOServerHandler

/-- `accepts` counts the outstanding accepts and `uncaught` the calls that found one. -/
structure State where
  accepts : ℕ
  latch : ℕ
  exited : Bool
  connections : List AIOServerHandler.Connection
  uncaught : ℕ
  deriving DecidableEq

/-- How the constructor leaves the listening channel. -/
inductive Listener
  | bound
  | unbound
  | missing
  deriving DecidableEq

/-- `asynServerSocketChannel.accept`, which throws while an accept is pending. -/
def accept (s : State) : Option State :=
  if s.accepts = 0 then some { s with accepts := s.accepts + 1 } else none

/-- `run` up to `await`: the exceptions of an unbound or missing channel end its thread. -/
def start : Listener → Option State
  | .bound => accept ⟨0,1,false,[],0⟩
  | .unbound => none
  | .missing => none

def completed (s : State) : State :=
  match accept s with
  | some s => { s with connections := s.connections ++ [accepted] }
  | none => { s with uncaught := s.uncaught + 1 }

def failed (s : State) : State := { s with latch := s.latch - 1 }

inductive Event
  | acceptCompleted
  | acceptFailed
  | operation (i : ℕ) (a : ℕ × Completion × Int64)
  | exit

def step (s : State) (e : Event) : Option State :=
  if s.exited then none
  else match e with
    | .acceptCompleted =>
      if s.accepts = 0 then none else some (completed { s with accepts := s.accepts - 1 })
    | .acceptFailed =>
      if s.accepts = 0 then none else some (failed { s with accepts := s.accepts - 1 })
    | .operation i a =>
      (s.connections[i]?).bind (fun c => (AIOServerHandler.step c a).map
        (fun d => { s with connections := s.connections.set i d }))
    | .exit => if s.latch = 0 then some { s with exited := true } else none

def init : State := ⟨1,1,false,[],0⟩

theorem start_bound : start .bound = some init := rfl

/-! ## One accept at a time -/

/-- Until an accept fails exactly one is outstanding, and afterwards none is. -/
structure Listening (s : State) : Prop where
  accepts_eq : s.accepts = s.latch
  latch_le : s.latch ≤ 1
  uncaught_eq : s.uncaught = 0
  exited : s.exited = true → s.latch = 0

variable {s t : State}

theorem step_acceptCompleted (hs : Listening s) (h : step s .acceptCompleted = some t) :
    s.exited = false ∧ s.latch = 1 ∧ t = { s with connections := s.connections ++ [accepted] } := by
  obtain ⟨accepts,latch,exited,connections,uncaught⟩ := s
  obtain ⟨haccepts,hlatch,_,_⟩ := hs
  simp only at haccepts hlatch
  subst haccepts
  simp only [step] at h
  split at h
  · contradiction
  · rename_i hexited
    split at h
    · contradiction
    · rename_i hpos
      obtain rfl : accepts = 1 := by omega
      cases h
      exact ⟨by simpa using hexited,rfl,rfl⟩

theorem step_acceptFailed (hs : Listening s) (h : step s .acceptFailed = some t) :
    s.exited = false ∧ s.latch = 1 ∧ t = { s with
      accepts := 0
      latch := 0 } := by
  obtain ⟨accepts,latch,exited,connections,uncaught⟩ := s
  obtain ⟨haccepts,hlatch,_,_⟩ := hs
  simp only at haccepts hlatch
  subst haccepts
  simp only [step] at h
  split at h
  · contradiction
  · rename_i hexited
    split at h
    · contradiction
    · rename_i hpos
      obtain rfl : accepts = 1 := by omega
      cases h
      exact ⟨by simpa using hexited,rfl,rfl⟩

theorem step_operation {i : ℕ} {a : ℕ × Completion × Int64} (h : step s (.operation i a) = some t) :
    s.exited = false ∧ ∃ c d, s.connections[i]? = some c ∧ AIOServerHandler.step c a = some d ∧
      t = { s with connections := s.connections.set i d } := by
  simp only [step] at h
  split at h
  · contradiction
  · rename_i hexited
    obtain ⟨c,hc,h⟩ := Option.bind_eq_some_iff.mp h
    obtain ⟨d,hd,rfl⟩ := Option.map_eq_some_iff.mp h
    exact ⟨by simpa using hexited,c,d,hc,hd,rfl⟩

theorem step_exit (h : step s .exit = some t) : s.latch = 0 ∧ t = { s with exited := true } := by
  simp only [step] at h
  split at h
  · contradiction
  · split at h
    · rename_i hlatch
      cases h
      exact ⟨hlatch,rfl⟩
    · contradiction

theorem listening_of_step (s : State) (e : Event) (t : State) (hs : Listening s)
    (h : step s e = some t) : Listening t := by
  cases e with
  | acceptCompleted =>
    obtain ⟨_,_,rfl⟩ := step_acceptCompleted hs h
    exact ⟨hs.accepts_eq,hs.latch_le,hs.uncaught_eq,hs.exited⟩
  | acceptFailed =>
    obtain ⟨_,_,rfl⟩ := step_acceptFailed hs h
    exact ⟨rfl,Nat.zero_le 1,hs.uncaught_eq,fun _ => rfl⟩
  | operation i a =>
    obtain ⟨_,c,d,_,_,rfl⟩ := step_operation h
    exact ⟨hs.accepts_eq,hs.latch_le,hs.uncaught_eq,hs.exited⟩
  | exit =>
    obtain ⟨hlatch,rfl⟩ := step_exit h
    exact ⟨hs.accepts_eq,hs.latch_le,hs.uncaught_eq,fun _ => hlatch⟩

theorem listening_init : Listening init := ⟨rfl,le_refl 1,rfl,fun h => absurd h (by decide)⟩

/-! ## Each connection on its own -/

/-- The steps of the connections, as those of a list of components. -/
def forget : Event → Option (Interleaving.Action (ℕ × Completion × Int64))
  | .acceptCompleted => some .spawn
  | .operation i a => some (.act i a)
  | _ => none

theorem connections_simulation :
    Simulation step (Interleaving.step AIOServerHandler.step accepted) forget
      (fun s cs => Listening s ∧ s.connections = cs) := by
  rintro s cs e t ⟨hs,rfl⟩ h
  have ht := listening_of_step s e t hs h
  cases e with
  | acceptCompleted =>
    obtain ⟨_,_,rfl⟩ := step_acceptCompleted hs h
    exact ⟨_,rfl,ht,rfl⟩
  | acceptFailed =>
    obtain ⟨_,_,rfl⟩ := step_acceptFailed hs h
    exact ⟨_,rfl,ht,rfl⟩
  | operation i a =>
    obtain ⟨_,c,d,hc,hd,rfl⟩ := step_operation h
    refine ⟨_,?_,ht,rfl⟩
    simp [forget,Interleaving.step,hc,hd]
  | exit =>
    obtain ⟨_,rfl⟩ := step_exit h
    exact ⟨_,rfl,ht,rfl⟩

/-- The operations of connection `i` that completed in a run. -/
def own (i : ℕ) (as : List Event) : List (ℕ × Completion × Int64) :=
  as.filterMap (fun e => match e with
    | .operation j a => if j = i then some a else none
    | _ => none)

theorem own_forget (i : ℕ) (as : List Event) :
    Interleaving.own i (as.filterMap forget) = own i as := by
  rw [Interleaving.own,List.filterMap_filterMap,own]
  apply List.filterMap_congr
  intro e _
  cases e <;> rfl

/-- What becomes of a connection. -/
inductive Stage : AIOServerHandler.Connection → Prop
  | accepted : Stage AIOServerHandler.accepted
  | replying (req : String) (now : Int64) (written : Bytes) (src : ByteBuffer)
      (hsrc : written ++ src.contents = encode (process req now)) :
      Stage (AIOServerHandler.replying req (process req now) written src)
  | replied (req : String) (now : Int64) :
      Stage (AIOServerHandler.replied req (process req now) (encode (process req now)))
  | readFailed : Stage ⟨⟨false,[]⟩,[],[],[],[]⟩
  | writeFailed (req : String) (now : Int64) (written : Bytes) (hwritten : written <+: encode (process req now)) :
      Stage ⟨⟨false,written⟩,[],[req],[process req now],[]⟩

theorem step_failed {c d : AIOServerHandler.Connection} {a : ℕ × Completion × Int64}
    (ha : a.2.1 = .failed) (h : AIOServerHandler.step c a = some d) : d.channel.isOpen = false := by
  obtain ⟨⟨rest,completed⟩,hp,rfl⟩ := Option.map_eq_some_iff.mp h
  rw [ha] at hp
  obtain rfl := Operation.completeAt_failed hp
  rfl

/-- A step that does not fail keeps the channel open, and one that fails closes it. -/
theorem stage_of_step {c d : AIOServerHandler.Connection} {a : ℕ × Completion × Int64} (hc : Stage c)
    (h : AIOServerHandler.step c a = some d) :
    Stage d ∧ c.channel.isOpen = true ∧ (d.channel.isOpen = false ↔ a.2.1 = .failed) := by
  have hfails : a.2.1 = .failed → d.channel.isOpen = false := fun ha => step_failed ha h
  cases hc with
  | accepted =>
    rcases step_accepted h with ⟨dst,src,_,hsrc,rfl⟩ | ⟨ha,rfl⟩
    · exact ⟨.replying _ _ [] src hsrc,rfl,fun hshut => absurd hshut.symm Bool.false_ne_true,hfails⟩
    · exact ⟨.readFailed,rfl,fun _ => ha,hfails⟩
  | replying req now written src hsrc =>
    rcases step_replying hsrc h with ⟨bytes,rest,hbytes,rfl⟩ | rfl | ⟨ha,rfl⟩
    · exact ⟨.replying req now bytes rest hbytes,rfl,fun hshut => absurd hshut.symm Bool.false_ne_true,hfails⟩
    · exact ⟨.replied req now,rfl,fun hshut => absurd hshut.symm Bool.false_ne_true,hfails⟩
    · exact ⟨.writeFailed req now written ⟨src.contents,hsrc⟩,rfl,fun _ => ha,hfails⟩
  | replied req now => rw [step_idle rfl] at h; contradiction
  | readFailed => rw [step_idle rfl] at h; contradiction
  | writeFailed req now written hwritten => rw [step_idle rfl] at h; contradiction

/-- A channel is closed precisely when one of its operations has failed. -/
theorem closed_iff {c d : AIOServerHandler.Connection} {as : List (ℕ × Completion × Int64)} (hc : Stage c)
    (hopen : c.channel.isOpen = true) (hr : run AIOServerHandler.step c as = some d) :
    d.channel.isOpen = false ↔ ∃ a ∈ as, a.2.1 = .failed := by
  induction as generalizing c with
  | nil =>
    cases hr
    simp [hopen]
  | cons a as ih =>
    obtain ⟨e,he,hr⟩ := Option.bind_eq_some_iff.mp hr
    obtain ⟨hstage,_,hclosed⟩ := stage_of_step hc he
    rw [List.exists_mem_cons_iff]
    by_cases ha : a.2.1 = .failed
    · -- a closed channel starts nothing, so this step was the last
      cases as with
      | nil =>
        cases hr
        exact ⟨fun _ => Or.inl ha,fun _ => hclosed.mpr ha⟩
      | cons b as =>
        obtain ⟨f,hf,_⟩ := Option.bind_eq_some_iff.mp hr
        have hshut := hclosed.mpr ha
        rw [(stage_of_step hstage hf).2.1] at hshut
        contradiction
    · have hstill : e.channel.isOpen = true := by
        rw [← Bool.not_eq_false]
        exact fun hshut => ha (hclosed.mp hshut)
      rw [ih hstage hstill hr]
      exact ⟨Or.inr,fun h => h.resolve_left ha⟩

/-! ## What holds of the server -/

/-- At most one request is read and answered on a connection, in one operation after the
other, and what is on the wire is the reply as far as it has been written. -/
structure Served (c : AIOServerHandler.Connection) : Prop where
  outstanding_le : c.outstanding.length ≤ 1
  requests_le : c.requests.length ≤ 1
  answers : List.Forall₂ (fun req reply => ∃ now, reply = process req now) c.requests c.replies
  written : c.channel.written <+: (c.replies.map encode).flatten
  settled : c.outstanding = [] → c.channel.isOpen = true →
    c.requests.length = 1 ∧ c.channel.written = (c.replies.map encode).flatten
  uncaught : c.uncaught = []

theorem Stage.served {c : AIOServerHandler.Connection} (h : Stage c) : Served c := by
  have hanswer : ∀ req now, List.Forall₂ (fun req reply => ∃ now, reply = process req now)
      [req] [process req now] := fun req now => .cons ⟨now,rfl⟩ .nil
  have hwire : ∀ reply, (([reply] : List String).map encode).flatten = encode reply := by simp
  cases h with
  | accepted =>
    exact ⟨le_refl 1,Nat.zero_le 1,.nil,List.nil_prefix,
      fun hidle => absurd hidle (List.cons_ne_nil _ _),rfl⟩
  | replying req now written src hsrc =>
    refine ⟨le_refl 1,le_refl 1,hanswer req now,?_,fun hidle => absurd hidle (List.cons_ne_nil _ _),rfl⟩
    exact (hwire _).symm ▸ ⟨src.contents,hsrc⟩
  | replied req now =>
    refine ⟨Nat.zero_le 1,le_refl 1,hanswer req now,?_,fun _ _ => ⟨rfl,(hwire _).symm⟩,rfl⟩
    exact (hwire _).symm ▸ List.prefix_rfl
  | readFailed => exact ⟨Nat.zero_le 1,Nat.zero_le 1,.nil,List.nil_prefix,by simp,rfl⟩
  | writeFailed req now written hwritten =>
    exact ⟨Nat.zero_le 1,le_refl 1,hanswer req now,(hwire _).symm ▸ hwritten,by simp,rfl⟩

/-- The connections of a run, each where its own operations have led it. -/
structure Separate (as : List Event) (s : State) : Prop where
  length_eq : s.connections.length = Interleaving.spawned (as.filterMap forget)
  run_own : ∀ i c, s.connections[i]? = some c →
    run AIOServerHandler.step accepted (own i as) = some c
  closed_iff : ∀ i c, s.connections[i]? = some c →
    (c.channel.isOpen = false ↔ ∃ a ∈ own i as, a.2.1 = .failed)

theorem separate_of_run {as : List Event} (hr : run step init as = some s) : Separate as s := by
  obtain ⟨cs,hcs,_,rfl⟩ := connections_simulation.run ⟨listening_init,rfl⟩ hr
  obtain ⟨hlength,hown⟩ := Interleaving.run_own hcs
  simp only [own_forget] at hown
  exact ⟨hlength,hown,fun i c hc => closed_iff .accepted rfl (hown i c hc)⟩

/-- Two clients; the first one's read fails while the second one is answered. -/
theorem separate_two_clients :
    ∃ s, run step init [.acceptCompleted,.acceptCompleted,.operation 1 (0,.received [81],7),
        .operation 0 (0,.failed,8),.acceptFailed,.operation 1 (0,.accepted 9,9)] = some s ∧
      Separate [.acceptCompleted,.acceptCompleted,.operation 1 (0,.received [81],7),
        .operation 0 (0,.failed,8),.acceptFailed,.operation 1 (0,.accepted 9,9)] s :=
  ⟨_,rfl,separate_of_run rfl⟩

theorem stages_of_reachable (h : Reachable step init s) : ∀ c ∈ s.connections, Stage c := by
  obtain ⟨cs,⟨as,hcs⟩,_,rfl⟩ := connections_simulation.reachable ⟨listening_init,rfl⟩ h
  exact Interleaving.forall_of_run (fun c a d hc hd => (stage_of_step hc hd).1) .accepted hcs

/-- Whether an accept is outstanding tells whether one has failed. -/
theorem accepts_of_step (as : List Event) (s : State) (e : Event) (t : State)
    (hr : run step init as = some s) (hs : s.accepts = 1 ↔ Event.acceptFailed ∉ as)
    (h : step s e = some t) : t.accepts = 1 ↔ Event.acceptFailed ∉ as ++ [e] := by
  have hlistening := Reachable.invariant listening_of_step listening_init ⟨as,hr⟩
  rw [List.mem_append,List.mem_singleton,not_or]
  cases e with
  | acceptCompleted =>
    obtain ⟨_,_,rfl⟩ := step_acceptCompleted hlistening h
    simpa using hs
  | acceptFailed =>
    obtain ⟨_,_,rfl⟩ := step_acceptFailed hlistening h
    simp
  | operation i a =>
    obtain ⟨_,c,d,_,_,rfl⟩ := step_operation h
    simpa using hs
  | exit =>
    obtain ⟨_,rfl⟩ := step_exit h
    simpa using hs

/-- The server after a run: it takes clients until an accept has failed, then nobody. -/
structure Serves (as : List Event) (s : State) : Prop extends Listening s where
  listens : Event.acceptFailed ∉ as → s.accepts = 1 ∧ s.latch = 1
  deaf : Event.acceptFailed ∈ as → s.accepts = 0 ∧ s.latch = 0 ∧ step s .acceptCompleted = none
  served : ∀ c ∈ s.connections, Served c

theorem not_accepted (h : s.accepts = 0) : step s .acceptCompleted = none := by
  simp only [step,h,if_true]
  split <;> rfl

/-- The server listens precisely as long as no accept has failed, whatever its connections
do, and answers at most one request on each of them. -/
theorem serves_of_run {as : List Event} (hr : run step init as = some s) : Serves as s := by
  have hs := Reachable.invariant listening_of_step listening_init ⟨as,hr⟩
  have haccepts : s.accepts = 1 ↔ Event.acceptFailed ∉ as :=
    run_history (P := fun as s => s.accepts = 1 ↔ Event.acceptFailed ∉ as) (by simp [init])
      accepts_of_step hr
  have hsame := hs.accepts_eq
  have hle := hs.latch_le
  refine ⟨hs,?_,?_,fun c hc => (stages_of_reachable ⟨as,hr⟩ c hc).served⟩
  · intro hno
    have hone := haccepts.mpr hno
    exact ⟨hone,by omega⟩
  · intro hfailed
    have hne : s.accepts ≠ 1 := fun hone => haccepts.mp hone hfailed
    have hzero : s.accepts = 0 := by omega
    exact ⟨hzero,by omega,not_accepted hzero⟩

/-- After its end of stream a client is answered like any other, also when nobody can be
accepted any more. -/
theorem serves_after_failed_accept :
    ∃ s, run step init [.acceptCompleted,.acceptFailed,.operation 0 (0,.endOfStream,7)] = some s ∧
      s.accepts = 0 ∧ s.connections.map Connection.replies = [[badOrder]] ∧
      Serves [.acceptCompleted,.acceptFailed,.operation 0 (0,.endOfStream,7)] s :=
  ⟨_,rfl,rfl,by decide,serves_of_run rfl⟩

/-! ## An open connection can be answered -/

/-- The operations of one connection leave everything else as it is. -/
theorem run_operations {i : ℕ} {c d : AIOServerHandler.Connection} {as : List (ℕ × Completion × Int64)}
    (hexited : s.exited = false) (hc : s.connections[i]? = some c)
    (hr : run AIOServerHandler.step c as = some d) :
    run step s (as.map (.operation i)) = some { s with connections := s.connections.set i d } := by
  induction as generalizing s c with
  | nil =>
    cases hr
    obtain ⟨hlt,rfl⟩ := List.getElem?_eq_some_iff.mp hc
    rw [List.set_getElem_self]
    rfl
  | cons a as ih =>
    obtain ⟨e,he,hr⟩ := Option.bind_eq_some_iff.mp hr
    have hstep : step s (.operation i a) = some { s with connections := s.connections.set i e } := by
      simp only [step,hexited,hc,he,Option.bind_some,Option.map_some]
      rfl
    have hlt := (List.getElem?_eq_some_iff.mp hc).1
    rw [List.map_cons,run_cons,hstep,Option.bind_some,
      ih (s := { s with connections := s.connections.set i e }) hexited (List.getElem?_set_self hlt) hr]
    simp only [List.set_set]

/-- What a read that does not fail brings: some bytes, or none at the end of the stream. -/
def arrived : Completion → Option Bytes
  | .received bytes => if bytes ≠ [] ∧ bytes.length ≤ readCapacity then some bytes else none
  | .endOfStream => some []
  | _ => none

theorem complete_arrived {o : Completion} {bytes : Bytes} (h : arrived o = some bytes) :
    ∃ dst, Operation.complete (.read (.allocate readCapacity)) o = some (.filled dst) ∧
      dst.flip.contents = bytes := by
  cases o with
  | received received =>
    simp only [arrived] at h
    split at h
    · rename_i hlength
      cases h
      exact Operation.complete_received hlength.2
    · contradiction
  | endOfStream =>
    cases h
    exact ⟨.allocate readCapacity,rfl,rfl⟩
  | connected => contradiction
  | accepted n => contradiction
  | failed => contradiction

/-- The write of a reply can take all that is left of it. -/
theorem finishes_replying {req : String} {now : Int64} {written : Bytes} {src : ByteBuffer}
    (hsrc : written ++ src.contents = encode (process req now)) :
    run AIOServerHandler.step (AIOServerHandler.replying req (process req now) written src)
      [(0,.accepted src.remaining,now)] =
        some (AIOServerHandler.replied req (process req now) (encode (process req now))) := by
  rw [run_cons,step_replying_whole,hsrc]
  rfl

theorem finishes_accepted {o : Completion} {bytes : Bytes} (h : arrived o = some bytes) (now : Int64) :
    ∃ n, run AIOServerHandler.step AIOServerHandler.accepted [(0,o,now),(0,.accepted n,now)] =
      some (AIOServerHandler.replied (decode bytes) (process (decode bytes) now)
        (encode (process (decode bytes) now))) := by
  obtain ⟨dst,hdst,rfl⟩ := complete_arrived h
  obtain ⟨src,hsrc,hstep⟩ := step_accepted_filled hdst now
  refine ⟨src.remaining,?_⟩
  rw [run_cons,hstep,Option.bind_some,finishes_replying (by simpa using hsrc)]

/-- What an open connection can still come to: whatever its read brings is answered, and an
answer that has begun is written to its end. -/
inductive CanEnd (s : State) (i : ℕ) (c : AIOServerHandler.Connection) : Prop
  | waiting (hc : c = AIOServerHandler.accepted)
      (h : ∀ o bytes now, arrived o = some bytes → ∃ n,
        run step s [.operation i (0,o,now),.operation i (0,.accepted n,now)] = some { s with
          connections := s.connections.set i (replied (decode bytes) (process (decode bytes) now)
            (encode (process (decode bytes) now))) })
  | answering (req : String) (now : Int64) (hrequests : c.requests = [req])
      (hreplies : c.replies = [process req now])
      (h : ∃ bs : List (ℕ × Completion × Int64), run step s (bs.map (.operation i)) = some { s with
        connections := s.connections.set i (replied req (process req now) (encode (process req now))) })

/-- Whatever the other connections have done, one that is open can be brought to the reply
to whatever it receives, and nothing else changes on the way. -/
theorem answer_can_end (h : Reachable step init s) (hexited : s.exited = false) {i : ℕ}
    {c : AIOServerHandler.Connection} (hc : s.connections[i]? = some c) (hopen : c.channel.isOpen = true) :
    CanEnd s i c := by
  have hstage := stages_of_reachable h c (List.mem_of_getElem? hc)
  cases hstage with
  | accepted =>
    refine .waiting rfl (fun o bytes now ho => ?_)
    obtain ⟨n,hr⟩ := finishes_accepted ho now
    exact ⟨n,run_operations hexited hc hr⟩
  | replying req now written src hsrc =>
    exact .answering req now rfl rfl ⟨_,run_operations hexited hc (finishes_replying hsrc)⟩
  | replied req now =>
    exact .answering req now rfl rfl ⟨[],run_operations hexited hc rfl⟩
  | readFailed => exact absurd hopen Bool.false_ne_true
  | writeFailed req now written hwritten => exact absurd hopen Bool.false_ne_true

/-- The second of two clients, after the read of the first one has failed. -/
theorem answer_can_end_second_client :
    ∃ s, run step init [.acceptCompleted,.acceptCompleted,.operation 0 (0,.failed,8)] = some s ∧
      s.connections.map (fun c => c.channel.isOpen) = [false,true] ∧ CanEnd s 1 accepted :=
  ⟨_,rfl,rfl,answer_can_end (c := accepted)
    ⟨[.acceptCompleted,.acceptCompleted,.operation 0 (0,.failed,8)],rfl⟩ rfl rfl rfl⟩

end SunshineService.AIOServer
