import ScamMiner.Orchestrator.Submit
import ScamMiner.Shared.Transition

set_option autoImplicit false

-- A `Vec` of tasks and the threads together are fewer than `2 ^ 64`, so the index is a `Nat`.

namespace ScamMiner.Orchestrator

open Transition (Run Final total total_update)

-- Where a worker stands between two accesses to shared state.
inductive Pc where
  | claim
  | check (idx : Nat)
  | mining (idx : Nat)
  | announce (sol : Solution)
  | submit (sol : Solution)
  | tally (due : Tally)
  | count
  | done

structure Shared where
  taskIdx : Nat
  found : Nat
  shutdown : Bool
  session : Session

section
variable (toLowercase : String -> String) (tasks : List Task)

inductive WorkerStep (backend : Nat) : Shared -> Pc -> Shared -> Pc -> Prop
  | claim (s : Shared) :
    WorkerStep backend s .claim { s with taskIdx := s.taskIdx + 1 } (.check s.taskIdx)
  | beyond (s : Shared) (idx : Nat) (past : tasks.length ≤ idx) :
    WorkerStep backend s (.check idx) s .done
  | interrupted (s : Shared) (idx : Nat) (inside : idx < tasks.length)
      (down : s.shutdown = true) : WorkerStep backend s (.check idx) s .done
  | take (s : Shared) (idx : Nat) (inside : idx < tasks.length) (quiet : s.shutdown = false) :
    WorkerStep backend s (.check idx) s (.mining idx)
  | exhausted (s : Shared) (idx : Nat) (task : Task) (here : tasks[idx]? = some task) :
    WorkerStep backend s (.mining idx)
      { s with session := s.session.called ⟨backend, idx, task, none⟩ } .claim
  | solved (s : Shared) (idx : Nat) (task : Task) (sol : Solution)
      (here : tasks[idx]? = some task) (hex : HexText sol.hash) :
    WorkerStep backend s (.mining idx)
      { s with session := s.session.called ⟨backend, idx, task, some sol⟩ } (.announce sol)
  | announce (s : Shared) (sol : Solution) (text : List Char)
      (head : hashHead sol.hash = some text) :
    WorkerStep backend s (.announce sol) s (.submit sol)
  | submit (s : Shared) (sol : Solution) (reply : Option SubmitResponse) :
    WorkerStep backend s (.submit sol) { s with session := s.session.submitted sol reply }
      (.tally (tally toLowercase reply))
  | tally (s : Shared) (due : Tally) :
    WorkerStep backend s (.tally due) { s with session := s.session.record due } .count
  | count (s : Shared) :
    WorkerStep backend s .count { s with found := s.found + 1 } .claim

def Panics (pc : Pc) : Prop :=
  ∃ sol, pc = .announce sol ∧ hashHead sol.hash = none

structure Sys (n : Nat) where
  shared : Shared
  pcs : Fin n -> Pc
  aborted : Bool

def Sys.start (n : Nat) (session : Session) : Sys n :=
  { shared := { taskIdx := 0, found := 0, shutdown := false, session := session }
    pcs := fun _ => .claim
    aborted := false }

variable {n : Nat}

def Sys.after (sys : Sys n) (i : Fin n) (s : Shared) (pc : Pc) : Sys n :=
  { sys with shared := s, pcs := Function.update sys.pcs i pc }

inductive Step : Sys n -> Sys n -> Prop
  | worker (sys : Sys n) (i : Fin n) (s : Shared) (pc : Pc) (alive : sys.aborted = false)
      (moves : WorkerStep toLowercase tasks i.val sys.shared (sys.pcs i) s pc) :
    Step sys (sys.after i s pc)
  | panic (sys : Sys n) (i : Fin n) (alive : sys.aborted = false) (panics : Panics (sys.pcs i)) :
    Step sys { sys with aborted := true }
  | interrupt (sys : Sys n) (alive : sys.aborted = false) (quiet : sys.shared.shutdown = false) :
    Step sys { sys with shared := { sys.shared with shutdown := true } }

def Sys.Joined (sys : Sys n) : Prop :=
  sys.aborted = false ∧ ∀ i, sys.pcs i = .done

def Pc.holds (k : Nat) : Pc -> Nat
  | .check idx => if idx = k then 1 else 0
  | .mining idx => if idx = k then 1 else 0
  | _ => 0

def Pc.carries (sol : Solution) : Pc -> Nat
  | .announce own => if own = sol then 1 else 0
  | .submit own => if own = sol then 1 else 0
  | _ => 0

def Pc.owes : Pc -> Nat
  | .announce _ => 1
  | .submit _ => 1
  | .tally _ => 1
  | .count => 1
  | _ => 0

def Pc.pendingAccepted : Pc -> Nat
  | .tally due => due.accepted
  | _ => 0

def Pc.pendingLost : Pc -> Nat
  | .tally due => due.lost
  | _ => 0

def Pc.left : Pc -> Nat
  | .check idx => if tasks.length ≤ idx then 1 else 0
  | .done => 1
  | _ => 0

def Pc.potential : Pc -> Nat
  | .done => 0
  | .claim => 1
  | .count => 2
  | .tally _ => 3
  | .submit _ => 4
  | .announce _ => 5
  | .mining _ => 6
  | .check _ => 7

def PcOk : Pc -> Prop
  | .mining idx => idx < tasks.length
  | .announce sol => HexText sol.hash
  | _ => True

theorem PcOk.firm {pc : Pc} (ok : PcOk tasks pc) : ¬ Panics pc := by
  rintro ⟨sol, rfl, none⟩
  have head := hashHead_hex sol.hash ok
  simp [none] at head

def taken (taskIdx k : Nat) : Nat :=
  if k < taskIdx then 1 else 0

structure Inv (completed lost : UInt64) (sys : Sys n) : Prop where
  pcs : ∀ i, PcOk tasks (sys.pcs i)
  claimed : ∀ i idx, sys.pcs i = .check idx -> idx < sys.shared.taskIdx
  within : sys.shared.taskIdx ≤ tasks.length + total (Pc.left tasks) sys.pcs
  excused : ∀ i, sys.pcs i = .done ->
    sys.shared.shutdown = true ∨ tasks.length ≤ sys.shared.taskIdx
  own : ∀ call ∈ sys.shared.session.calls, tasks[call.index]? = some call.task
  once : sys.shared.shutdown = false -> ∀ k, k < tasks.length ->
    (sys.shared.session.calls.map Call.index).count k + total (Pc.holds k) sys.pcs =
      taken sys.shared.taskIdx k
  carried : ∀ sol, (sys.shared.session.submits.map Prod.fst).count sol +
    total (Pc.carries sol) sys.pcs = (sys.shared.session.calls.filterMap Call.result).count sol
  counted : sys.shared.found + total Pc.owes sys.pcs =
    (sys.shared.session.calls.filterMap Call.result).length
  credited : (sys.shared.session.tasksCompleted.toNat + total Pc.pendingAccepted sys.pcs) % 2 ^ 64 =
    (completed.toNat + acceptedSum sys.shared.session.submits) % 2 ^ 64
  raced : (sys.shared.session.racesLost.toNat + total Pc.pendingLost sys.pcs) % 2 ^ 64 =
    (lost.toNat + lostCount toLowercase sys.shared.session.submits) % 2 ^ 64

theorem Sys.start_inv (completed lost : UInt64) :
    Inv toLowercase tasks completed lost (Sys.start n (.start completed lost)) := by
  have none (weight : Pc -> Nat) (zero : weight .claim = 0) :
      total weight (Sys.start n (.start completed lost)).pcs = 0 := by
    have each := Transition.total_const weight (Sys.start n (.start completed lost)).pcs 0
      fun _ => zero
    simpa using each
  constructor
  · intro i
    trivial
  · intro i idx pc
    cases pc
  · exact Nat.zero_le _
  · intro i pc
    cases pc
  · simp [Sys.start, Session.start]
  · intro _ k _
    rw [none _ rfl]
    simp [Sys.start, Session.start, taken]
  · intro sol
    rw [none _ rfl]
    simp [Sys.start, Session.start]
  · rw [none _ rfl]
    simp [Sys.start, Session.start]
  · rw [none _ rfl]
    simp [Sys.start, Session.start, acceptedSum]
  · rw [none _ rfl]
    simp [Sys.start, Session.start, lostCount]

end

section
variable {toLowercase : String -> String} {tasks : List Task} {backend : Nat} {s t : Shared}
  {pc next : Pc}

theorem WorkerStep.claimed (step : WorkerStep toLowercase tasks backend s pc t next) :
    s.taskIdx ≤ t.taskIdx ∧ (∀ idx, next = .check idx -> idx < t.taskIdx) := by
  cases step <;> simp

theorem WorkerStep.ok (step : WorkerStep toLowercase tasks backend s pc t next) :
    PcOk tasks next := by
  cases step with
  | take idx inside quiet => exact inside
  | solved idx task sol here hex => exact hex
  | _ => trivial

theorem WorkerStep.shutdown (step : WorkerStep toLowercase tasks backend s pc t next) :
    t.shutdown = s.shutdown := by
  cases step <;> rfl

theorem WorkerStep.within (step : WorkerStep toLowercase tasks backend s pc t next) :
    t.taskIdx = s.taskIdx ∧ pc.left tasks ≤ next.left tasks ∨
      t.taskIdx = s.taskIdx + 1 ∧ pc.left tasks = 0 ∧
        next.left tasks = if tasks.length ≤ s.taskIdx then 1 else 0 := by
  cases step with
  | claim => exact .inr ⟨rfl, rfl, rfl⟩
  | beyond idx past => exact .inl ⟨rfl, by simp [Pc.left, past]⟩
  | interrupted idx inside down =>
    have here : ¬ tasks.length ≤ idx := by omega
    exact .inl ⟨rfl, by simp [Pc.left, here]⟩
  | take idx inside quiet => exact .inl ⟨rfl, by simp [Pc.left, inside]⟩
  | _ => exact .inl ⟨rfl, by simp [Pc.left]⟩

theorem WorkerStep.excused (step : WorkerStep toLowercase tasks backend s pc t next)
    (claimed : ∀ idx, pc = .check idx -> idx < s.taskIdx) (exits : next = .done) :
    t.shutdown = true ∨ tasks.length ≤ t.taskIdx := by
  cases step with
  | beyond idx past =>
    have less := claimed idx rfl
    exact .inr (by omega)
  | interrupted idx inside down => exact .inl down
  | _ => cases exits

theorem WorkerStep.own (step : WorkerStep toLowercase tasks backend s pc t next)
    (before : ∀ call ∈ s.session.calls, tasks[call.index]? = some call.task) :
    ∀ call ∈ t.session.calls, tasks[call.index]? = some call.task := by
  cases step with
  | exhausted idx task here =>
    intro call member
    rcases List.mem_append.mp member with old | new
    · exact before call old
    · rw [List.mem_singleton.mp new]
      exact here
  | solved idx task sol here hex =>
    intro call member
    rcases List.mem_append.mp member with old | new
    · exact before call old
    · rw [List.mem_singleton.mp new]
      exact here
  | tally due => cases due <;> exact before
  | _ => exact before

theorem WorkerStep.once (step : WorkerStep toLowercase tasks backend s pc t next)
    (quiet : t.shutdown = false) (k : Nat) (inside : k < tasks.length) :
    (t.session.calls.map Call.index).count k + next.holds k + taken s.taskIdx k =
      (s.session.calls.map Call.index).count k + pc.holds k + taken t.taskIdx k := by
  cases step with
  | claim =>
    simp only [Pc.holds, taken]
    split_ifs <;> omega
  | beyond idx past =>
    have other : idx ≠ k := by omega
    simp [Pc.holds, other]
  | interrupted idx inside down => simp [down] at quiet
  | exhausted idx task here => simp [Session.called, Pc.holds, List.count_singleton]
  | solved idx task sol here hex => simp [Session.called, Pc.holds, List.count_singleton]
  | tally due => cases due <;> simp [Session.record, Pc.holds]
  | _ => simp [Session.submitted, Pc.holds]

theorem WorkerStep.carried (step : WorkerStep toLowercase tasks backend s pc t next)
    (sol : Solution) :
    (t.session.submits.map Prod.fst).count sol + next.carries sol +
        (s.session.calls.filterMap Call.result).count sol =
      (s.session.submits.map Prod.fst).count sol + pc.carries sol +
        (t.session.calls.filterMap Call.result).count sol := by
  cases step with
  | exhausted idx task here => simp [Session.called, Pc.carries]
  | solved idx task sol here hex =>
    simp [Session.called, Pc.carries, List.count_singleton]
    omega
  | submit sol reply => simp [Session.submitted, Pc.carries, List.count_singleton]
  | tally due => cases due <;> simp [Session.record, Pc.carries]
  | _ => simp [Pc.carries]

theorem WorkerStep.counted (step : WorkerStep toLowercase tasks backend s pc t next) :
    t.found + next.owes + (s.session.calls.filterMap Call.result).length =
      s.found + pc.owes + (t.session.calls.filterMap Call.result).length := by
  cases step with
  | exhausted idx task here => simp [Session.called, Pc.owes]
  | solved idx task sol here hex =>
    simp [Session.called, Pc.owes]
    omega
  | tally due => cases due <;> simp [Session.record, Pc.owes]
  | submit sol reply => simp [Session.submitted, Pc.owes]
  | _ => simp [Pc.owes]

theorem WorkerStep.credited (step : WorkerStep toLowercase tasks backend s pc t next) :
    (t.session.tasksCompleted.toNat + next.pendingAccepted + acceptedSum s.session.submits) %
        2 ^ 64 =
      (s.session.tasksCompleted.toNat + pc.pendingAccepted + acceptedSum t.session.submits) %
        2 ^ 64 := by
  cases step with
  | submit sol reply =>
    simp only [Session.submitted, Pc.pendingAccepted, acceptedSum_append, tally_accepted]
    congr 1
    omega
  | tally due =>
    cases due with
    | claimed accepted =>
      simp only [Session.record, Pc.pendingAccepted, Tally.accepted, UInt64.toNat_add]
      omega
    | lostRace => rfl
    | unchanged => rfl
  | _ => rfl

theorem WorkerStep.raced (step : WorkerStep toLowercase tasks backend s pc t next) :
    (t.session.racesLost.toNat + next.pendingLost + lostCount toLowercase s.session.submits) %
        2 ^ 64 =
      (s.session.racesLost.toNat + pc.pendingLost + lostCount toLowercase t.session.submits) %
        2 ^ 64 := by
  cases step with
  | submit sol reply =>
    simp only [Session.submitted, Pc.pendingLost, lostCount_append, tally_lost]
    congr 1
    omega
  | tally due =>
    cases due with
    | claimed accepted => rfl
    | lostRace =>
      simp only [Session.record, Pc.pendingLost, Tally.lost, UInt64.toNat_add, UInt64.reduceToNat]
      omega
    | unchanged => rfl
  | _ => rfl

theorem WorkerStep.potential (step : WorkerStep toLowercase tasks backend s pc t next) :
    t.taskIdx = s.taskIdx ∧ next.potential < pc.potential ∨
      t.taskIdx = s.taskIdx + 1 ∧ next.potential = pc.potential + 6 ∧ pc = .claim := by
  cases step with
  | claim => exact .inr ⟨rfl, rfl, rfl⟩
  | _ => exact .inl ⟨rfl, by simp [Pc.potential]⟩

-- What the backend and the server are to say.
structure Replies where
  answer : Task -> Option Solution
  reply : Solution -> Option SubmitResponse
  hex : ∀ task sol, answer task = some sol -> HexText sol.hash

def Replies.silent : Replies :=
  { answer := fun _ => none, reply := fun _ => none, hex := fun _ _ nothing => by cases nothing }

structure Answering (replies : Replies) (backend : Nat) (s t : Shared) : Prop where
  calls : ∀ call ∈ t.session.calls, call ∈ s.session.calls ∨
    call.backend = backend ∧ call.result = replies.answer call.task
  submits : ∀ sub ∈ t.session.submits, sub ∈ s.session.submits ∨ sub.2 = replies.reply sub.1

theorem Answering.same {replies : Replies} {backend : Nat} {s t : Shared}
    (calls : t.session.calls = s.session.calls) (submits : t.session.submits = s.session.submits) :
    Answering replies backend s t :=
  ⟨fun _ member => .inl (calls ▸ member), fun _ member => .inl (submits ▸ member)⟩

theorem Answering.called {replies : Replies} {backend idx : Nat} {s : Shared}
    {task : Task} {result : Option Solution} (answered : replies.answer task = result) :
    Answering replies backend s
      { s with session := s.session.called ⟨backend, idx, task, result⟩ } := by
  refine ⟨fun call member => ?_, fun _ member => .inl member⟩
  rcases List.mem_append.mp member with old | new
  · exact .inl old
  · obtain rfl := List.mem_singleton.mp new
    exact .inr ⟨rfl, answered.symm⟩

theorem Answering.submitted {replies : Replies} {backend : Nat} {s : Shared} (sol : Solution) :
    Answering replies backend s
      { s with session := s.session.submitted sol (replies.reply sol) } := by
  refine ⟨fun _ member => .inl member, fun sub member => ?_⟩
  rcases List.mem_append.mp member with old | new
  · exact .inl old
  · obtain rfl := List.mem_singleton.mp new
    exact .inr rfl

theorem WorkerStep.answering (toLowercase : String -> String) (backend : Nat) (s : Shared)
    (replies : Replies) (ok : PcOk tasks pc) (active : pc ≠ .done) :
    ∃ t next, WorkerStep toLowercase tasks backend s pc t next ∧ Answering replies backend s t := by
  cases pc with
  | claim => exact ⟨_, _, .claim s, .same rfl rfl⟩
  | check idx =>
    by_cases past : tasks.length ≤ idx
    · exact ⟨_, _, .beyond s idx past, .same rfl rfl⟩
    · cases down : s.shutdown with
      | true => exact ⟨_, _, .interrupted s idx (by omega) down, .same rfl rfl⟩
      | false => exact ⟨_, _, .take s idx (by omega) down, .same rfl rfl⟩
  | mining idx =>
    have here : tasks[idx]? = some tasks[idx] := List.getElem?_eq_getElem ok
    cases result : replies.answer tasks[idx] with
    | none => exact ⟨_, _, .exhausted s idx tasks[idx] here, .called result⟩
    | some sol =>
      have hex := replies.hex _ sol result
      exact ⟨_, _, .solved s idx tasks[idx] sol here hex, .called result⟩
  | announce sol =>
    obtain ⟨text, head⟩ := Option.isSome_iff_exists.mp (hashHead_hex sol.hash ok)
    exact ⟨_, _, .announce s sol text head, .same rfl rfl⟩
  | submit sol => exact ⟨_, _, .submit s sol (replies.reply sol), .submitted sol⟩
  | tally due =>
    obtain ⟨calls, submits⟩ := s.session.record_histories due
    exact ⟨_, _, .tally s due, .same calls submits⟩
  | count => exact ⟨_, _, .count s, .same rfl rfl⟩
  | done => exact absurd rfl active

end

end ScamMiner.Orchestrator
