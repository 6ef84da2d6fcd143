import ScamMiner.Orchestrator.Books

set_option autoImplicit false

namespace ScamMiner.Orchestrator

open Transition (Run)

inductive ApiError where
  | rateLimited (error : String)
  | unauthorized
  | other (error : String)
  deriving DecidableEq, Repr

-- Where the main thread stands; `exited` is `process::exit(1)`, `slept` is in milliseconds.
inductive Phase (n : Nat) where
  | head
  | requesting
  | mining (tasks : List Task) (watch : Watch n)
  | failed
  | sleeping (slept : Nat)
  | ended
  | exited

structure Batch (n : Nat) where
  tasks : List Task
  session : Session
  found : Nat
  begun : List (Fin n × Nat)

-- Within a batch its own session carries the statistics.
-- `requests`, `pauses` and `batches` are history.
structure Miner (n : Nat) where
  shutdown : Bool
  tasksCompleted : UInt64
  racesLost : UInt64
  phase : Phase n
  requests : Nat
  pauses : Nat
  batches : List (Batch n)

section
variable {n : Nat}

def Miner.start (n : Nat) : Miner n :=
  { shutdown := false
    tasksCompleted := 0
    racesLost := 0
    phase := .head
    requests := 0
    pauses := 0
    batches := [] }

def Watch.batch (tasks : List Task) (w : Watch n) : Batch n :=
  { tasks := tasks
    session := w.sys.shared.session
    found := w.sys.shared.found
    begun := w.begun }

def Watch.launch (session : Session) (shutdown : Bool) : Watch n :=
  if shutdown then (Watch.start n session).interrupted else Watch.start n session

-- The pause after an error or an empty reply, and the pieces it is slept in.
def retryMillis : Nat := 3000
def pauseMillis : Nat := 100

def Miner.received (m : Miner n) : Except ApiError (List Task) -> Phase n
  | .ok [] => .sleeping 0
  | .ok tasks => .mining tasks (.launch (.start m.tasksCompleted m.racesLost) m.shutdown)
  | .error (.rateLimited _) => .sleeping 0
  | .error .unauthorized => .exited
  | .error (.other _) => .failed

def Miner.returned (m : Miner n) (tasks : List Task) (w : Watch n) : Miner n :=
  { m with
    tasksCompleted := w.sys.shared.session.tasksCompleted
    racesLost := w.sys.shared.session.racesLost
    phase := .head
    batches := m.batches ++ [w.batch tasks] }

def Phase.interrupted : Phase n -> Phase n
  | .mining tasks w => .mining tasks w.interrupted
  | phase => phase

def Miner.interrupted (m : Miner n) : Miner n :=
  { m with shutdown := true, phase := m.phase.interrupted }

def Phase.Over : Phase n -> Prop
  | .ended | .exited => True
  | _ => False

variable (toLowercase : String -> String)

inductive MinerStep : Miner n -> Miner n -> Prop
  | leave {m : Miner n} (place : m.phase = .head) (down : m.shutdown = true) :
    MinerStep m { m with phase := .ended }
  | request {m : Miner n} (place : m.phase = .head) (quiet : m.shutdown = false) :
    MinerStep m { m with phase := .requesting, requests := m.requests + 1 }
  | reply {m : Miner n} (place : m.phase = .requesting) (result : Except ApiError (List Task)) :
    MinerStep m { m with phase := m.received result }
  | giveUp {m : Miner n} (place : m.phase = .failed) (down : m.shutdown = true) :
    MinerStep m { m with phase := .ended }
  | retry {m : Miner n} (place : m.phase = .failed) (quiet : m.shutdown = false) :
    MinerStep m { m with phase := .sleeping 0 }
  | pause {m : Miner n} {slept : Nat} (place : m.phase = .sleeping slept)
      (short : slept < retryMillis) (quiet : m.shutdown = false) :
    MinerStep m { m with phase := .sleeping (slept + pauseMillis), pauses := m.pauses + 1 }
  | awake {m : Miner n} {slept : Nat} (place : m.phase = .sleeping slept)
      (enough : retryMillis ≤ slept ∨ m.shutdown = true) :
    MinerStep m { m with phase := .head }
  | mine {m : Miner n} {tasks : List Task} {w u : Watch n} (place : m.phase = .mining tasks w)
      (moves : WatchStep toLowercase tasks w u) :
    MinerStep m { m with shutdown := u.sys.shared.shutdown, phase := .mining tasks u }
  | finish {m : Miner n} {tasks : List Task} {w : Watch n} (place : m.phase = .mining tasks w)
      (joined : w.sys.Joined) : MinerStep m (m.returned tasks w)
  | interrupt {m : Miner n} (quiet : m.shutdown = false) (alive : ¬ m.phase.Over) :
    MinerStep m m.interrupted

def Batch.Ran (b : Batch n) (completed lost : UInt64) (shutdown : Bool) : Prop :=
  ∃ k, ∃ w : Watch n, Run (WatchStep toLowercase b.tasks) k (Watch.start n (.start completed lost)) w ∧
    w.sys.Joined ∧ w.sys.shared.shutdown = shutdown ∧ b = w.batch b.tasks

def Miner.submits (m : Miner n) : List (Solution × Option SubmitResponse) :=
  m.batches.flatMap fun b => b.session.submits

structure Ledger (m : Miner n) : Prop where
  ran : ∀ b ∈ m.batches, ∃ completed lost shutdown, b.Ran toLowercase completed lost shutdown ∧
    (shutdown = true -> m.shutdown = true)
  completed : m.tasksCompleted = UInt64.ofNat (acceptedSum m.submits)
  lost : m.racesLost = UInt64.ofNat (lostCount toLowercase m.submits)
  mined : ∀ tasks w, m.phase = .mining tasks w -> w.sys.shared.shutdown = m.shutdown ∧
    ∃ k, Run (WatchStep toLowercase tasks) k
      (Watch.start n (.start m.tasksCompleted m.racesLost)) w

variable {toLowercase} {m : Miner n} {tasks : List Task} {completed lost : UInt64} {w u : Watch n}

theorem watch_books {k : Nat} (run : Run (WatchStep toLowercase tasks) k
    (Watch.start n (.start completed lost)) w) :
    Books toLowercase tasks completed lost w.sys ∧ w.sys.aborted = false := by
  obtain ⟨j, projected⟩ := watch_projects run
  exact Books.run projected

theorem launch_run (tasks : List Task) (session : Session) (shutdown : Bool) :
    (Watch.launch (n := n) session shutdown).sys.shared.shutdown = shutdown ∧
      ∃ k, Run (WatchStep toLowercase tasks) k (Watch.start n session) (.launch session shutdown) := by
  cases shutdown with
  | false => exact ⟨rfl, 0, .refl _⟩
  | true => exact ⟨rfl, 1, .tail (.refl _) (.interrupt _ rfl rfl)⟩

theorem acceptedSum_concat (left right : List (Solution × Option SubmitResponse)) :
    acceptedSum (left ++ right) = acceptedSum left + acceptedSum right := by
  simp [acceptedSum]

theorem lostCount_concat (left right : List (Solution × Option SubmitResponse)) :
    lostCount toLowercase (left ++ right) =
      lostCount toLowercase left + lostCount toLowercase right := by
  simp [lostCount]

theorem received_mining {result : Except ApiError (List Task)}
    (loaded : m.received result = .mining tasks w) :
    w = .launch (.start m.tasksCompleted m.racesLost) m.shutdown := by
  cases result with
  | error e => cases e <;> cases loaded
  | ok served =>
    cases served with
    | nil => cases loaded
    | cons task rest =>
      cases loaded
      rfl

theorem interrupted_mining (place : m.phase.interrupted = .mining tasks w) :
    ∃ v, m.phase = .mining tasks v ∧ w = v.interrupted := by
  cases phase : m.phase with
  | mining own v =>
    rw [phase] at place
    cases place
    exact ⟨v, rfl, rfl⟩
  | _ =>
    rw [phase] at place
    cases place

theorem start_ledger (toLowercase : String -> String) : Ledger toLowercase (Miner.start n) where
  ran := fun b member => by cases member
  completed := rfl
  lost := rfl
  mined := fun tasks w place => by cases place

theorem WatchStep.shutdown (step : WatchStep toLowercase tasks w u) :
    w.sys.shared.shutdown = true -> u.sys.shared.shutdown = true := by
  intro down
  cases step with
  | call i idx alive entering idle => exact down
  | worker i s pc alive returned moves => exact moves.balanced.shutdown.trans down
  | panic i alive panics => exact down
  | interrupt alive quiet => rfl

theorem Ledger.finish (ledger : Ledger toLowercase m) (place : m.phase = .mining tasks w)
    (joined : w.sys.Joined) : Ledger toLowercase (m.returned tasks w) := by
  obtain ⟨flag, k, run⟩ := ledger.mined tasks w place
  obtain ⟨credited, raced⟩ := (watch_books run).1.statistics joined
  have submits : (m.returned tasks w).submits = m.submits ++ w.sys.shared.session.submits := by
    simp [Miner.submits, Miner.returned, Watch.batch]
  constructor
  · intro b member
    rcases List.mem_append.mp member with old | new
    · exact ledger.ran b old
    · obtain rfl := List.mem_singleton.mp new
      exact ⟨_, _, _, ⟨k, w, run, joined, rfl, rfl⟩, fun down => flag.symm.trans down⟩
  · rw [submits, acceptedSum_concat, UInt64.ofNat_add, ← ledger.completed]
    exact credited
  · rw [submits, lostCount_concat, UInt64.ofNat_add, ← ledger.lost]
    exact raced
  · intro own v away
    cases away

theorem Ledger.step (m v : Miner n) (ledger : Ledger toLowercase m)
    (step : MinerStep toLowercase m v) : Ledger toLowercase v := by
  -- outside a batch only the phase changes
  cases step with
  | reply place result =>
    refine ⟨ledger.ran, ledger.completed, ledger.lost, fun tasks w loaded => ?_⟩
    rw [received_mining loaded]
    exact launch_run tasks _ m.shutdown
  | @mine tasks w u place moves =>
    obtain ⟨flag, k, run⟩ := ledger.mined tasks w place
    refine ⟨fun b member => ?_, ledger.completed, ledger.lost, ?_⟩
    · obtain ⟨completed, lost, shutdown, ran, down⟩ := ledger.ran b member
      exact ⟨completed, lost, shutdown, ran, fun set => moves.shutdown (flag.trans (down set))⟩
    · rintro _ _ ⟨⟩
      exact ⟨rfl, k + 1, run.tail moves⟩
  | finish place joined => exact ledger.finish place joined
  | interrupt quiet alive =>
    refine ⟨fun b member => ?_, ledger.completed, ledger.lost, fun tasks w place => ?_⟩
    · obtain ⟨completed, lost, shutdown, ran, -⟩ := ledger.ran b member
      exact ⟨completed, lost, shutdown, ran, fun _ => rfl⟩
    · obtain ⟨v, before, rfl⟩ := interrupted_mining place
      obtain ⟨flag, k, run⟩ := ledger.mined tasks v before
      refine ⟨rfl, k + 1, run.tail (.interrupt v (watch_books run).2 ?_)⟩
      exact flag.trans quiet
  | _ => exact ⟨ledger.ran, ledger.completed, ledger.lost, fun tasks w away => by cases away⟩

theorem ledger_run {k : Nat} (run : Run (MinerStep toLowercase) k (Miner.start n) m) :
    Ledger toLowercase m :=
  run.invariant Ledger.step (start_ledger toLowercase)

theorem Batch.Ran.settled {b : Batch n} {shutdown : Bool}
    (ran : b.Ran toLowercase completed lost shutdown) : Settled b.tasks b.session b.found := by
  obtain ⟨k, w, run, joined, -, same⟩ := ran
  rw [same]
  exact (watch_books run).1.settled joined

theorem mine_run {k : Nat} (run : Run (WatchStep toLowercase tasks) k w u)
    (place : m.phase = .mining tasks w) (flag : w.sys.shared.shutdown = m.shutdown) :
    Run (MinerStep toLowercase) k m
      { m with shutdown := u.sys.shared.shutdown, phase := .mining tasks u } := by
  induction run with
  | refl =>
    rw [flag, ← place]
    exact .refl m
  | tail _ last ih => exact (ih place flag).tail (.mine rfl last)

theorem batch_run {found : Nat} {after : Session} (some_ : tasks ≠ [])
    (outcome : mineTasks toLowercase tasks n (.start m.tasksCompleted m.racesLost) (some found) after)
    (place : m.phase = .requesting) (quiet : m.shutdown = false) :
    ∃ k v, Run (MinerStep toLowercase) k m v ∧ v.phase = .head ∧ v.shutdown = false ∧
      v.requests = m.requests ∧ v.pauses = m.pauses ∧
      ∃ b, v.batches = m.batches ++ [b] ∧ b.tasks = tasks ∧ b.session = after ∧ b.found = found := by
  obtain ⟨k, w, run, down, rfl, ⟨joined, same⟩ | ⟨-, impossible⟩⟩ :=
    (mineTasks_iff_watched _ _ _).mp outcome
  · obtain ⟨task, rest, rfl⟩ := List.exists_cons_of_ne_nil some_
    have loaded : m.received (.ok (task :: rest)) =
        .mining (task :: rest) (Watch.start n (.start m.tasksCompleted m.racesLost)) := by
      simp [Miner.received, Watch.launch, quiet]
    have mined := mine_run (m := { m with phase := m.received (.ok (task :: rest)) }) run loaded
      (show false = m.shutdown from quiet.symm)
    exact ⟨_, _, ((Run.tail (.refl m) (.reply place (.ok (task :: rest)))).append mined).tail
      (.finish rfl joined), rfl, down, rfl, rfl, _, rfl, rfl, rfl, (Option.some.inj same).symm⟩
  · cases impossible

theorem first_batch {found : Nat} {after : Session} (some_ : tasks ≠ [])
    (outcome : mineTasks toLowercase tasks n (.start 0 0) (some found) after) :
    ∃ k, ∃ m : Miner n, Run (MinerStep toLowercase) k (Miner.start n) m ∧ m.phase = .head ∧
      m.shutdown = false ∧ m.requests = 1 ∧ m.pauses = 0 ∧
      ∃ b, m.batches = [b] ∧ b.tasks = tasks ∧ b.session = after ∧ b.found = found := by
  let asking : Miner n := { Miner.start n with phase := .requesting, requests := 1 }
  have asked : Run (MinerStep toLowercase) 1 (Miner.start n) asking :=
    .tail (.refl _) (.request rfl rfl)
  obtain ⟨k, m, run, rest⟩ := batch_run (m := asking) some_ outcome rfl rfl
  exact ⟨_, m, asked.append run, rest⟩

/-- At any moment of a session: the batches so far are settled, the statistics are those of their
replies, and the batch in hand keeps its books. -/
structure Accounted (toLowercase : String -> String) (m : Miner n) : Prop where
  settled : ∀ b ∈ m.batches, Settled b.tasks b.session b.found
  completed : m.tasksCompleted = UInt64.ofNat (acceptedSum m.submits)
  lost : m.racesLost = UInt64.ofNat (lostCount toLowercase m.submits)
  current : ∀ tasks w, m.phase = .mining tasks w ->
    Books toLowercase tasks m.tasksCompleted m.racesLost w.sys

theorem session_accounted {k : Nat} (run : Run (MinerStep toLowercase) k (Miner.start n) m) :
    Accounted toLowercase m := by
  have ledger := ledger_run run
  refine ⟨fun b member => ?_, ledger.completed, ledger.lost, fun tasks w place => ?_⟩
  · obtain ⟨_, _, _, ran, -⟩ := ledger.ran b member
    exact ran.settled
  · obtain ⟨-, j, mined⟩ := ledger.mined tasks w place
    exact (watch_books mined).1

theorem session_accounted_example : ∃ k, ∃ m : Miner 2,
    Run (MinerStep String.toLower) k (Miner.start 2) m ∧ m.batches.length = 1 ∧
      Accounted String.toLower m := by
  obtain ⟨found, after, ran, -⟩ := mineTasks_answering String.toLower
    [⟨.num 1, "a", 1, 5, 9⟩, ⟨.num 2, "b", 1, 0, 3⟩] 0 0 fun _ => .silent
  obtain ⟨k, m, run, -, -, -, -, b, batches, -⟩ := first_batch (List.cons_ne_nil _ _) ran
  exact ⟨k, m, run, by rw [batches]; rfl, session_accounted run⟩

end

end ScamMiner.Orchestrator
