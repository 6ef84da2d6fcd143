import ScamMiner.Orchestrator.Distribution

set_option autoImplicit false

namespace ScamMiner.Orchestrator

open Transition (Run)

def Pc.InBody : Pc -> Prop
  | .claim | .check _ | .done => False
  | _ => True

section
variable (toLowercase : String -> String) (tasks : List Task)

/-- The plain loop: `taskIdx` is the position of the iterator, and nothing reads `SHUTDOWN`. -/
inductive PlainStep : Shared -> Pc -> Shared -> Pc -> Prop
  | next (s : Shared) (inside : s.taskIdx < tasks.length) :
    PlainStep s .claim { s with taskIdx := s.taskIdx + 1 } (.mining s.taskIdx)
  | exit (s : Shared) (past : tasks.length ≤ s.taskIdx) : PlainStep s .claim s .done
  | body {s t : Shared} {pc next : Pc} (inBody : pc.InBody)
      (moves : WorkerStep toLowercase tasks 0 s pc t next) : PlainStep s pc t next

def LoopStep (n backend : Nat) : Shared -> Pc -> Shared -> Pc -> Prop :=
  if n = 1 then PlainStep toLowercase tasks else WorkerStep toLowercase tasks backend

variable {n : Nat}

inductive MineStep : Sys n -> Sys n -> Prop
  | worker (sys : Sys n) (i : Fin n) (s : Shared) (pc : Pc) (alive : sys.aborted = false)
      (moves : LoopStep toLowercase tasks n i.val sys.shared (sys.pcs i) s pc) :
    MineStep sys (sys.after i s pc)
  | panic (sys : Sys n) (i : Fin n) (alive : sys.aborted = false) (panics : Panics (sys.pcs i)) :
    MineStep sys { sys with aborted := true }
  | interrupt (sys : Sys n) (alive : sys.aborted = false) (quiet : sys.shared.shutdown = false) :
    MineStep sys { sys with shared := { sys.shared with shutdown := true } }

-- What `mine_tasks` has returned; `none` is a panic.
def Sys.Outcome (sys : Sys n) (found : Option Nat) (after : Session) : Prop :=
  after = sys.shared.session ∧
    (sys.Joined ∧ found = some sys.shared.found ∨ sys.aborted = true ∧ found = none)

theorem mineStep_iff_step (many : n ≠ 1) (sys u : Sys n) :
    MineStep toLowercase tasks sys u ↔ Step toLowercase tasks sys u := by
  constructor
  · intro step
    cases step with
    | worker i s pc alive moves =>
      rw [LoopStep, if_neg many] at moves
      exact .worker sys i s pc alive moves
    | panic i alive panics => exact .panic sys i alive panics
    | interrupt alive quiet => exact .interrupt sys alive quiet
  · intro step
    cases step with
    | worker i s pc alive moves =>
      refine .worker sys i s pc alive ?_
      rwa [LoopStep, if_neg many]
    | panic i alive panics => exact .panic sys i alive panics
    | interrupt alive quiet => exact .interrupt sys alive quiet

def resume (s : Shared) : Pc -> Proc Session Nat
  | .claim => plainLoop toLowercase s.taskIdx s.found (tasks.drop s.taskIdx)
  | .mining idx => plainLoop toLowercase idx s.found (tasks.drop idx)
  | .announce sol => do
    let _ ← Proc.ofOption (hashHead sol.hash)
    submitSolution toLowercase sol
    plainLoop toLowercase s.taskIdx (s.found + 1) (tasks.drop s.taskIdx)
  | .submit sol => do
    submitSolution toLowercase sol
    plainLoop toLowercase s.taskIdx (s.found + 1) (tasks.drop s.taskIdx)
  | .tally due => do
    Proc.modify fun session => session.record due
    plainLoop toLowercase s.taskIdx (s.found + 1) (tasks.drop s.taskIdx)
  | .count => plainLoop toLowercase s.taskIdx (s.found + 1) (tasks.drop s.taskIdx)
  | .check _ => pure s.found
  | .done => pure s.found

theorem resume_interrupt (s : Shared) (pc : Pc) :
    resume toLowercase tasks { s with shutdown := true } pc = resume toLowercase tasks s pc := by
  cases pc <;> rfl

-- The iterator has moved past the task in hand.
def Positioned (s : Shared) (pc : Pc) : Prop :=
  ∀ idx, pc = .mining idx -> s.taskIdx = idx + 1

variable {toLowercase tasks}

theorem PlainStep.positioned {s t : Shared} {pc next : Pc}
    (step : PlainStep toLowercase tasks s pc t next) : Positioned t next := by
  intro idx mining
  cases step with
  | next inside =>
    cases mining
    rfl
  | exit past => cases mining
  | body inBody moves =>
    cases moves with
    | take _ _ _ => exact inBody.elim
    | _ => cases mining

theorem PlainStep.shutdown {s t : Shared} {pc next : Pc}
    (step : PlainStep toLowercase tasks s pc t next) : t.shutdown = s.shutdown := by
  cases step with
  | next inside => rfl
  | exit past => rfl
  | body inBody moves => exact moves.shutdown

theorem drop_at {idx : Nat} {task : Task} (here : tasks[idx]? = some task) :
    tasks.drop idx = task :: tasks.drop (idx + 1) := by
  obtain ⟨inside, rfl⟩ := List.getElem?_eq_some_iff.mp here
  exact List.drop_eq_getElem_cons inside

theorem PlainStep.resume {s t : Shared} {pc next : Pc}
    (step : PlainStep toLowercase tasks s pc t next) (positioned : Positioned s pc)
    (found : Option Nat) (after : Session)
    (rest : resume toLowercase tasks t next t.session found after) :
    resume toLowercase tasks s pc s.session found after := by
  cases step with
  | next inside => exact rest
  | exit past =>
    rw [Orchestrator.resume, List.drop_eq_nil_of_le past]
    exact rest
  | body inBody moves =>
    cases moves with
    | exhausted idx task here =>
      have position := positioned idx rfl
      rw [Orchestrator.resume, drop_at here, plainLoop]
      simp only [Orchestrator.resume, position] at rest
      exact .inr ⟨none, _, ⟨none, by simp, rfl, rfl⟩, rest⟩
    | solved idx task sol here hex =>
      have position := positioned idx rfl
      rw [Orchestrator.resume, drop_at here, plainLoop]
      simp only [Orchestrator.resume, position] at rest
      refine .inr ⟨some sol, _, ⟨some sol, ?_, rfl, rfl⟩, rest⟩
      rintro _ ⟨⟩
      exact hex
    | announce sol text head => exact .inr ⟨text, _, ⟨head.symm, rfl⟩, rest⟩
    | submit sol reply =>
      rcases rest with ⟨-, impossible, -⟩ | ⟨_, u, recorded, rest⟩
      · cases impossible
      · exact .inr ⟨(), u, .inr ⟨reply, _, ⟨reply, rfl, rfl⟩, recorded⟩, rest⟩
    | tally due => exact .inr ⟨(), _, ⟨rfl, rfl⟩, rest⟩
    | count => exact rest
    | _ => exact inBody.elim

structure PlainOk (tasks : List Task) (s : Shared) (pc : Pc) : Prop where
  ok : PcOk tasks pc
  unchecked : ∀ idx, pc ≠ .check idx
  positioned : Positioned s pc

theorem PlainStep.kept {s t : Shared} {pc next : Pc}
    (step : PlainStep toLowercase tasks s pc t next) : PlainOk tasks t next where
  positioned := step.positioned
  ok := by
    cases step with
    | next inside => exact inside
    | exit past => trivial
    | body inBody moves => exact moves.ok
  unchecked := by
    intro idx
    cases step with
    | next inside => simp
    | exit past => simp
    | body inBody moves =>
      cases moves with
      | claim => exact inBody.elim
      | _ => simp

-- Every outcome of what is left of the loop comes by one of its next steps.
theorem resume_progress {s : Shared} {pc : Pc} (kept : PlainOk tasks s pc) (active : pc ≠ .done)
    (found : Option Nat) (after : Session)
    (outcome : resume toLowercase tasks s pc s.session found after) :
    (∃ t next, PlainStep toLowercase tasks s pc t next ∧
      resume toLowercase tasks t next t.session found after) ∨
    Panics pc ∧ found = none ∧ after = s.session := by
  cases pc with
  | claim =>
    left
    by_cases inside : s.taskIdx < tasks.length
    · exact ⟨_, _, .next s inside, outcome⟩
    · refine ⟨_, _, .exit s (by omega), ?_⟩
      rwa [resume, List.drop_eq_nil_of_le (by omega)] at outcome
  | check idx => exact absurd rfl (kept.unchecked idx)
  | mining idx =>
    left
    have inside : idx < tasks.length := kept.ok
    have here : tasks[idx]? = some tasks[idx] := List.getElem?_eq_getElem inside
    have position := kept.positioned idx rfl
    rw [resume, drop_at here, plainLoop] at outcome
    rcases outcome with ⟨-, result, -, impossible, -⟩ | ⟨answer, u, ⟨result, hex, same, rfl⟩, rest⟩
    · cases impossible
    · obtain rfl := Option.some.inj same
      cases answer with
      | none =>
        refine ⟨_, _, .body trivial (.exhausted s idx _ here), ?_⟩
        simpa only [resume, position] using rest
      | some sol =>
        refine ⟨_, _, .body trivial (.solved s idx _ sol here (hex sol rfl)), ?_⟩
        simpa only [resume, position] using rest
  | announce sol =>
    rcases outcome with ⟨rfl, head, rfl⟩ | ⟨text, u, ⟨head, rfl⟩, rest⟩
    · exact .inr ⟨⟨sol, rfl, head.symm⟩, rfl, rfl⟩
    · exact .inl ⟨_, _, .body trivial (.announce s sol text head.symm), rest⟩
  | submit sol =>
    left
    rcases outcome with ⟨-, ⟨-, reply, impossible, -⟩ | ⟨_, _, -, impossible, -⟩⟩ |
      ⟨_, u, ⟨impossible, -⟩ | ⟨_, v, ⟨reply, same, rfl⟩, recorded⟩, rest⟩
    · cases impossible
    · cases impossible
    · cases impossible
    · obtain rfl := Option.some.inj same
      exact ⟨_, _, .body trivial (.submit s sol _), .inr ⟨(), u, recorded, rest⟩⟩
  | tally due =>
    left
    rcases outcome with ⟨-, impossible, -⟩ | ⟨_, u, ⟨-, rfl⟩, rest⟩
    · cases impossible
    · exact ⟨_, _, .body trivial (.tally s due), rest⟩
  | count => exact .inl ⟨_, _, .body trivial (.count s), outcome⟩
  | done => exact absurd rfl active

def loopSize (tasks : List Task) (s : Shared) (pc : Pc) : Nat :=
  10 * (tasks.length - s.taskIdx) + pc.potential

theorem PlainStep.decreases {s t : Shared} {pc next : Pc}
    (step : PlainStep toLowercase tasks s pc t next) : loopSize tasks t next < loopSize tasks s pc := by
  cases step with
  | next inside =>
    simp only [loopSize, Pc.potential]
    omega
  | exit past => simp [loopSize, Pc.potential]
  | body inBody moves =>
    rcases moves.potential with ⟨same, less⟩ | ⟨-, -, rfl⟩
    · simp only [loopSize, same]
      omega
    · exact inBody.elim

def Sys.Leads (toLowercase : String -> String) (tasks : List Task) (sys : Sys 1)
    (found : Option Nat) (after : Session) : Prop :=
  if sys.aborted = true then found = none ∧ after = sys.shared.session
  else resume toLowercase tasks sys.shared (sys.pcs 0) sys.shared.session found after

variable {sys u : Sys 1} {found : Option Nat} {after : Session}

theorem Sys.leads_alive (alive : sys.aborted = false) : sys.Leads toLowercase tasks found after ↔
    resume toLowercase tasks sys.shared (sys.pcs 0) sys.shared.session found after := by
  simp [Sys.Leads, alive]

theorem MineStep.plain {i : Fin 1} {s : Shared} {pc : Pc}
    (moves : LoopStep toLowercase tasks 1 i.val sys.shared (sys.pcs i) s pc) :
    i = 0 ∧ PlainStep toLowercase tasks sys.shared (sys.pcs 0) s pc := by
  obtain rfl : i = 0 := Subsingleton.elim i 0
  rw [LoopStep, if_pos rfl] at moves
  exact ⟨rfl, moves⟩

theorem MineStep.kept (step : MineStep toLowercase tasks sys u)
    (before : PlainOk tasks sys.shared (sys.pcs 0)) : PlainOk tasks u.shared (u.pcs 0) := by
  cases step with
  | worker i s pc alive moves =>
    obtain ⟨rfl, plain⟩ := MineStep.plain moves
    simpa only [Sys.after, Function.update_self] using plain.kept
  | panic i alive panics => exact before
  | interrupt alive quiet => exact { before with positioned := before.positioned }

theorem MineStep.leads (step : MineStep toLowercase tasks sys u)
    (before : PlainOk tasks sys.shared (sys.pcs 0)) (rest : u.Leads toLowercase tasks found after) :
    sys.Leads toLowercase tasks found after := by
  cases step with
  | worker i s pc alive moves =>
    obtain ⟨rfl, plain⟩ := MineStep.plain moves
    rw [Sys.leads_alive (by exact alive)] at rest
    rw [Sys.leads_alive alive]
    simp only [Sys.after, Function.update_self] at rest
    exact plain.resume before.positioned found after rest
  | panic i alive panics =>
    obtain rfl : i = 0 := Subsingleton.elim i 0
    obtain ⟨sol, pc, head⟩ := panics
    obtain ⟨rfl, rfl⟩ : found = none ∧ after = sys.shared.session := by
      simpa [Sys.Leads] using rest
    rw [Sys.leads_alive alive, pc]
    exact .inl ⟨rfl, head.symm, rfl⟩
  | interrupt alive quiet =>
    rw [Sys.leads_alive (by exact alive)] at rest
    rw [Sys.leads_alive alive]
    simpa only [resume_interrupt] using rest

theorem run_leads {k : Nat} (run : Run (MineStep toLowercase tasks) k sys u)
    (before : PlainOk tasks sys.shared (sys.pcs 0)) (rest : u.Leads toLowercase tasks found after) :
    sys.Leads toLowercase tasks found after := by
  induction run with
  | refl => exact rest
  | @tail k sys v u run last ih =>
    have kept : PlainOk tasks v.shared (v.pcs 0) :=
      run.invariant (fun _ _ kept step => step.kept kept) before
    exact ih before (last.leads kept rest)

theorem Sys.Outcome.leads (ends : u.Outcome found after) :
    u.Leads toLowercase tasks found after := by
  obtain ⟨rfl, ⟨joined, rfl⟩ | ⟨aborted, rfl⟩⟩ := ends
  · rw [Sys.leads_alive joined.1, joined.2 0]
    exact ⟨rfl, rfl⟩
  · simp [Sys.Leads, aborted]

theorem leads_run (sys : Sys 1) (alive : sys.aborted = false) (kept : PlainOk tasks sys.shared (sys.pcs 0))
    (outcome : resume toLowercase tasks sys.shared (sys.pcs 0) sys.shared.session found after) :
    ∃ k u, Run (MineStep toLowercase tasks) k sys u ∧ u.shared.shutdown = sys.shared.shutdown ∧
      u.Outcome found after := by
  by_cases active : sys.pcs 0 = .done
  · rw [active] at outcome
    obtain ⟨rfl, rfl⟩ := outcome
    have joined : sys.Joined := by
      refine ⟨alive, fun i => ?_⟩
      rwa [Subsingleton.elim i 0]
    exact ⟨0, sys, .refl sys, rfl, rfl, .inl ⟨joined, rfl⟩⟩
  · rcases resume_progress kept active found after outcome with
      ⟨t, next, step, rest⟩ | ⟨panics, rfl, rfl⟩
    · have smaller := step.decreases
      have first : MineStep toLowercase tasks sys (sys.after 0 t next) := by
        refine .worker sys 0 t next alive ?_
        rwa [LoopStep, if_pos rfl]
      have here : (sys.after 0 t next).pcs 0 = next := by simp [Sys.after]
      have same : t.shutdown = sys.shared.shutdown := step.shutdown
      obtain ⟨k, u, run, quiet, ends⟩ := leads_run (sys.after 0 t next) alive
        (by rw [here]; exact step.kept) (by rw [here]; exact rest)
      exact ⟨_, u, (Run.tail (.refl sys) first).append run, quiet.trans same, ends⟩
    · exact ⟨1, _, .tail (.refl sys) (.panic sys 0 alive panics), rfl, rfl, .inr ⟨rfl, rfl⟩⟩
termination_by loopSize tasks sys.shared (sys.pcs 0)
decreasing_by
  rw [here]
  exact smaller

theorem start_plain (before : Session) :
    PlainOk tasks (Sys.start 1 before).shared ((Sys.start 1 before).pcs 0) where
  ok := trivial
  unchecked := fun idx same => by cases same
  positioned := fun idx same => by cases same

/-- The outcomes of `mine_tasks` are those of its quiet runs, on both paths. -/
theorem mineTasks_iff_runs (n : Nat) (before : Session) (found : Option Nat) (after : Session) :
    mineTasks toLowercase tasks n before found after ↔
      ∃ k, ∃ sys : Sys n, Run (MineStep toLowercase tasks) k (Sys.start n before) sys ∧
        sys.shared.shutdown = false ∧ sys.Outcome found after := by
  by_cases single : n = 1
  · subst single
    rw [mineTasks, if_pos rfl]
    constructor
    · intro outcome
      exact leads_run _ rfl (start_plain before) outcome
    · rintro ⟨k, sys, run, -, ends⟩
      exact (Sys.leads_alive rfl).mp (run_leads run (start_plain before) ends.leads)
  · rw [mineTasks, if_neg single]
    constructor
    · rintro ⟨k, sys, run, quiet, ends⟩
      exact ⟨k, sys, run.mono fun _ _ step => (mineStep_iff_step _ _ single _ _).mpr step, quiet, ends⟩
    · rintro ⟨k, sys, run, quiet, ends⟩
      exact ⟨k, sys, run.mono fun _ _ step => (mineStep_iff_step _ _ single _ _).mp step, quiet, ends⟩

theorem PlainStep.answering (toLowercase : String -> String) {s : Shared} {pc : Pc}
    (replies : Replies) (kept : PlainOk tasks s pc) (active : pc ≠ .done) :
    ∃ t next, PlainStep toLowercase tasks s pc t next ∧ Answering replies 0 s t := by
  by_cases inBody : pc.InBody
  · obtain ⟨t, next, moves, calls⟩ := WorkerStep.answering toLowercase 0 s replies kept.ok active
    exact ⟨t, next, .body inBody moves, calls⟩
  · cases pc with
    | claim =>
      by_cases inside : s.taskIdx < tasks.length
      · exact ⟨_, _, .next s inside, .same rfl rfl⟩
      · exact ⟨_, _, .exit s (by omega), .same rfl rfl⟩
    | check idx => exact absurd rfl (kept.unchecked idx)
    | done => exact absurd rfl active
    | _ => exact absurd trivial inBody

structure PlaceOk (tasks : List Task) (sys : Sys n) (i : Fin n) : Prop where
  ok : PcOk tasks (sys.pcs i)
  plain : n = 1 -> PlainOk tasks sys.shared (sys.pcs i)

theorem LoopStep.answering (toLowercase : String -> String) {sys : Sys n} {i : Fin n}
    (replies : Replies) (place : PlaceOk tasks sys i) (active : sys.pcs i ≠ .done) :
    ∃ t next, LoopStep toLowercase tasks n i.val sys.shared (sys.pcs i) t next ∧
      Answering replies i.val sys.shared t := by
  by_cases single : n = 1
  · subst single
    obtain rfl : i = 0 := Subsingleton.elim i 0
    simp only [LoopStep, if_pos]
    exact PlainStep.answering toLowercase replies (place.plain rfl) active
  · simp only [LoopStep, if_neg single]
    exact WorkerStep.answering toLowercase i.val sys.shared replies place.ok active

theorem LoopStep.exists (toLowercase : String -> String) {sys : Sys n} {i : Fin n}
    (place : PlaceOk tasks sys i) (active : sys.pcs i ≠ .done) :
    ∃ t next, LoopStep toLowercase tasks n i.val sys.shared (sys.pcs i) t next := by
  obtain ⟨t, next, moves, -⟩ := LoopStep.answering toLowercase .silent place active
  exact ⟨t, next, moves⟩

theorem LoopStep.shutdown {i : Fin n} {s t : Shared} {pc next : Pc}
    (step : LoopStep toLowercase tasks n i.val s pc t next) : t.shutdown = s.shutdown := by
  rw [LoopStep] at step
  split_ifs at step with single
  · exact step.shutdown
  · exact WorkerStep.shutdown step

end

end ScamMiner.Orchestrator
