import SunshineService.Foundation.ThreadPoolExecutor
import SunshineService.Foundation.TransitionRun
import SunshineService.Bio.BIOHandler

/-! # The blocking server in front of a thread pool

`main` accepts a client, hands its handler to the pool and loops. The catch block of the
loop names `IOException` alone, and the finally block closes the acceptor on any way out.
-/
namespace SunshineService.BioAnsyTimeServer
open TransitionRun ThreadPoolExecutor ProcessUtils
variable {p : Parameters} {ι : Type*} [DecidableEq ι]

structure Client where
  pending : List String
  replies : List String
  deriving DecidableEq

/-- `accepting` holds while the loop runs; the handlers are named by their clients. -/
structure State (p : Parameters) (ι : Type*) where
  acceptor : Option ServerSocket
  accepting : Bool
  pool : Executor p ι
  clients : ι → Option Client

/-- The port is bound and the loop is about to accept. -/
def init : State p ι := ⟨some ⟨true⟩,true,.new,fun _ => none⟩

inductive Action (ι : Type*)
  | accept (c : ι)
  | line (c : ι) (body : String)
  | serve (c : ι) (currentTimeMillis : Int64)
  | finish (c : ι)
  | take
  | retire

/-- The body of the loop once `accept` has returned. -/
def acceptedClient (s : State p ι) (c : ι) : Except (Throwable × State p ι) (State p ι) :=
  let s := { s with clients := Function.update s.clients c (some ⟨[],[]⟩) }
  match s.pool.execute c with
  | some pool => .ok { s with pool := pool }
  | none => .error (.rejectedExecution,s)

/-- The way out of the loop: catch, if it applies, and finally. -/
def leaveLoop (e : Throwable) (s : State p ι) : State p ι :=
  let s := match e with
    | .ioException => { s with acceptor := CloseUtils.closeServer s.acceptor }
    | _ => s
  { s with acceptor := CloseUtils.closeServer s.acceptor, accepting := false }

def serveLine (client : Client) (currentTimeMillis : Int64) : Option Client :=
  match client.pending with
  | [] => none
  | body :: rest => some ⟨rest,client.replies ++ [process body currentTimeMillis]⟩

def step (s : State p ι) : Action ι → Option (State p ι)
  | .accept c =>
    if s.accepting && s.acceptor == some ⟨true⟩ && (s.clients c).isNone then
      match acceptedClient s c with
      | .ok t => some t
      | .error (e,t) => some (leaveLoop e t)
    else none
  | .line c body =>
    (s.clients c).map (fun client => { s with
      clients := Function.update s.clients c
        (some { client with pending := client.pending ++ [body] }) })
  | .serve c currentTimeMillis =>
    if c ∈ s.pool.running then
      ((s.clients c).bind (fun client => serveLine client currentTimeMillis)).map
        (fun client => { s with clients := Function.update s.clients c (some client) })
    else none
  | .finish c => (s.pool.finish c).map (fun pool => { s with pool := pool })
  | .take => s.pool.take.map (fun pool => { s with pool := pool })
  | .retire => s.pool.retire.map (fun pool => { s with pool := pool })

def Serving (s : State p ι) : Prop := s.accepting = true ∧ s.acceptor = some ⟨true⟩

/-- An accept finds a place in the pool. -/
def Admitted (s : State p ι) (a : Action ι) : Prop := ∀ c, a = .accept c → ¬ s.pool.Saturated

instance (s : State p ι) : (a : Action ι) → Decidable (Admitted s a)
  | .accept c => decidable_of_iff (¬ s.pool.Saturated) ⟨fun h _ _ => h,fun h => h c rfl⟩
  | .line _ _ => isTrue (fun _ h => by contradiction)
  | .serve _ _ => isTrue (fun _ h => by contradiction)
  | .finish _ => isTrue (fun _ h => by contradiction)
  | .take => isTrue (fun _ h => by contradiction)
  | .retire => isTrue (fun _ h => by contradiction)

theorem step_accept_admitted {s t : State p ι} {c : ι} (h : step s (.accept c) = some t)
    (hroom : ¬ s.pool.Saturated) :
    Serving s ∧ ∃ pool, s.pool.execute c = some pool ∧ t = { s with
      pool := pool
      clients := Function.update s.clients c (some ⟨[],[]⟩) } := by
  simp only [step] at h
  split at h
  · rename_i hc
    simp only [Bool.and_eq_true,beq_iff_eq] at hc
    refine ⟨hc.1,?_⟩
    cases hpool : s.pool.execute c with
    | none => exact absurd ((s.pool.execute_eq_none_iff c).mp hpool) hroom
    | some pool =>
      simp only [acceptedClient,hpool] at h
      cases h
      exact ⟨pool,rfl,rfl⟩
  · contradiction

theorem step_accept_rejected {s t : State p ι} {c : ι} (h : step s (.accept c) = some t)
    (hfull : s.pool.Saturated) : t.accepting = false ∧ t.acceptor = some ⟨false⟩ := by
  simp only [step] at h
  split at h
  · rename_i hc
    simp only [Bool.and_eq_true,beq_iff_eq] at hc
    simp only [acceptedClient,(s.pool.execute_eq_none_iff c).mpr hfull] at h
    cases h
    refine ⟨rfl,?_⟩
    simp only [leaveLoop,hc.1.2]
    rfl
  · contradiction

theorem step_other {s t : State p ι} {a : Action ι} (ha : ∀ c, a ≠ .accept c)
    (h : step s a = some t) : t.accepting = s.accepting ∧ t.acceptor = s.acceptor := by
  cases a with
  | accept c => exact absurd rfl (ha c)
  | line c body =>
    obtain ⟨client,_,rfl⟩ := Option.map_eq_some_iff.mp h
    exact ⟨rfl,rfl⟩
  | serve c now =>
    simp only [step] at h
    split at h
    · obtain ⟨client,_,rfl⟩ := Option.map_eq_some_iff.mp h
      exact ⟨rfl,rfl⟩
    · contradiction
  | finish c =>
    obtain ⟨pool,_,rfl⟩ := Option.map_eq_some_iff.mp h
    exact ⟨rfl,rfl⟩
  | take =>
    obtain ⟨pool,_,rfl⟩ := Option.map_eq_some_iff.mp h
    exact ⟨rfl,rfl⟩
  | retire =>
    obtain ⟨pool,_,rfl⟩ := Option.map_eq_some_iff.mp h
    exact ⟨rfl,rfl⟩

theorem serving_of_step (s : State p ι) (a : Action ι) (t : State p ι) (hs : Serving s)
    (h : step s a = some t) (ha : Admitted s a) : Serving t := by
  by_cases hc : ∃ c, a = .accept c
  · obtain ⟨c,rfl⟩ := hc
    obtain ⟨_,pool,_,rfl⟩ := step_accept_admitted h (ha c rfl)
    exact hs
  · obtain ⟨haccepting,hacceptor⟩ := step_other (fun c hc' => hc ⟨c,hc'⟩) h
    exact ⟨haccepting.trans hs.1,hacceptor.trans hs.2⟩

theorem not_serving_of_step (s : State p ι) (a : Action ι) (t : State p ι) (_ : Serving s)
    (h : step s a = some t) (ha : ¬ Admitted s a) : ¬ Serving t := by
  simp only [Admitted,not_forall,not_not] at ha
  obtain ⟨c,rfl,hfull⟩ := ha
  rintro ⟨haccepting,_⟩
  rw [(step_accept_rejected h hfull).1] at haccepting
  contradiction

/-- The server goes on serving precisely when no client is accepted while all threads
are taken and the queue is full. -/
theorem serving_iff {as : List (Action ι)} {s : State p ι} (hr : run step init as = some s) :
    Throughout step Serving (init : State p ι) as ↔ EachStep step Admitted (init : State p ι) as :=
  throughout_iff_eachStep (fun _ hs => hs) serving_of_step not_serving_of_step ⟨rfl,rfl⟩ hr

theorem serving_with_four_clients :
    Throughout step Serving (init : State ⟨1,2,1,le_refl 1,by decide,le_refl 1⟩ ℕ)
      [.accept 0,.line 0 "QUERY TIME ORDER",.serve 0 7,.accept 1,.accept 2,.finish 0,.take,.accept 3] :=
  (serving_iff rfl).mpr (by decide)

/-- One thread and one place: the third client brings the server down. -/
theorem third_client_closes_acceptor :
    ∃ s, run step (init : State ⟨1,1,1,le_refl 1,le_refl 1,le_refl 1⟩ ℕ)
      [.accept 0,.accept 1,.accept 2] = some s ∧ s.accepting = false ∧ s.acceptor = some ⟨false⟩ ∧
        ¬ Serving s := by
  refine ⟨_,rfl,rfl,rfl,?_⟩
  rintro ⟨haccepting,_⟩
  contradiction

/-! ## Any pool can be overrun -/

theorem stopped_of_step (s : State p ι) (a : Action ι) (t : State p ι) (hs : s.accepting = false)
    (h : step s a = some t) : t.accepting = false := by
  by_cases hc : ∃ c, a = .accept c
  · obtain ⟨c,rfl⟩ := hc
    simp [step,hs] at h
  · rw [(step_other (fun c hc' => hc ⟨c,hc'⟩) h).1,hs]

theorem unfinished_of_accepts {s t : State p ι} {cs : List ι}
    (hr : run step s (cs.map .accept) = some t) (ht : Serving t) :
    t.pool.unfinished = s.pool.unfinished + cs.length := by
  induction cs generalizing s with
  | nil =>
    cases hr
    rfl
  | cons c cs ih =>
    obtain ⟨u,hu,hr⟩ := Option.bind_eq_some_iff.mp hr
    by_cases hfull : s.pool.Saturated
    · have hstopped := run_invariant (P := fun s => s.accepting = false) stopped_of_step
        (step_accept_rejected hu hfull).1 hr
      exact absurd (hstopped.symm.trans ht.1) (by decide)
    · obtain ⟨_,pool,hpool,rfl⟩ := step_accept_admitted hu hfull
      rw [ih hr,Executor.unfinished_execute hpool,List.length_cons]
      omega

/-- Whatever the sizes, one client more than threads and places ends the service. -/
theorem not_serving_of_overrun {s : State p ι} {cs : List ι}
    (hcs : p.maximumPoolSize + p.queueCapacity < cs.length)
    (hr : run step init (cs.map .accept) = some s) : ¬ Serving s := by
  intro hs
  have hcount := unfinished_of_accepts hr hs
  have hbound := s.pool.unfinished_le
  simp only [init,Executor.unfinished,Executor.new,List.length_nil] at hcount hbound
  omega

/-! ## The handlers of the pool -/

theorem serveLine_foldlM (ls : List (String × Int64)) (sent : List String) :
    ls.foldlM (fun client l => serveLine client l.2) (⟨ls.map Prod.fst,sent⟩ : Client) =
      some ⟨[],sent ++ BIOHandler.replies ls⟩ := by
  induction ls generalizing sent with
  | nil => simp [BIOHandler.replies]
  | cons l ls ih =>
    have hstep : serveLine ⟨(l :: ls).map Prod.fst,sent⟩ l.2 =
        some ⟨ls.map Prod.fst,sent ++ [process l.1 l.2]⟩ := rfl
    rw [List.foldlM_cons,hstep,Option.bind_eq_bind,Option.bind_some,ih]
    simp [BIOHandler.replies]

/-- Serving a client line by line prints what the `run` of its handler prints. -/
theorem serveLine_run {outcomes : CloseOutcomes} {peer : Peer} {c : Connection}
    (h : BIOHandler.run outcomes (some ⟨peer,false⟩) = .ok c) :
    (BIOHandler.linesRead peer).foldlM (fun client l => serveLine client l.2)
      (⟨(BIOHandler.linesRead peer).map Prod.fst,[]⟩ : Client) =
        some ⟨[],BIOHandler.printed c⟩ := by
  rw [BIOHandler.run_eq] at h
  cases h
  rw [serveLine_foldlM,BIOHandler.printed_left,List.nil_append]

end SunshineService.BioAnsyTimeServer
