import ScamMiner.Orchestrator.Shutdown

set_option autoImplicit false

namespace ScamMiner.Orchestrator

open Transition (Run Final total total_update)

section
variable (toLowercase : String -> String) (tasks : List Task)

/-- What one step of a loop does to what its worker owes. -/
structure Balanced (s : Shared) (pc : Pc) (t : Shared) (next : Pc) : Prop where
  ok : PcOk tasks next
  shutdown : t.shutdown = s.shutdown
  own : (∀ call ∈ s.session.calls, tasks[call.index]? = some call.task) ->
    ∀ call ∈ t.session.calls, tasks[call.index]? = some call.task
  once : ∀ k, k < tasks.length ->
    (t.session.calls.map Call.index).count k + next.holds k + taken s.taskIdx k ≤
      (s.session.calls.map Call.index).count k + pc.holds k + taken t.taskIdx k
  carried : ∀ sol, (t.session.submits.map Prod.fst).count sol + next.carries sol +
      (s.session.calls.filterMap Call.result).count sol =
    (s.session.submits.map Prod.fst).count sol + pc.carries sol +
      (t.session.calls.filterMap Call.result).count sol
  counted : t.found + next.owes + (s.session.calls.filterMap Call.result).length =
    s.found + pc.owes + (t.session.calls.filterMap Call.result).length
  credited : (t.session.tasksCompleted.toNat + next.pendingAccepted +
      acceptedSum s.session.submits) % 2 ^ 64 =
    (s.session.tasksCompleted.toNat + pc.pendingAccepted + acceptedSum t.session.submits) % 2 ^ 64
  raced : (t.session.racesLost.toNat + next.pendingLost +
      lostCount toLowercase s.session.submits) % 2 ^ 64 =
    (s.session.racesLost.toNat + pc.pendingLost + lostCount toLowercase t.session.submits) % 2 ^ 64
  -- a worker that claims has not left, and at most one claim past the end is for it
  potential : t.taskIdx = s.taskIdx ∧ next.potential < pc.potential ∧
      pc.left tasks ≤ next.left tasks ∨
    t.taskIdx = s.taskIdx + 1 ∧ next.potential ≤ pc.potential + 6 ∧ pc.left tasks = 0 ∧
      next.left tasks = if tasks.length ≤ s.taskIdx then 1 else 0

variable {toLowercase tasks} {backend : Nat} {s t : Shared} {pc next : Pc}

theorem WorkerStep.balanced (step : WorkerStep toLowercase tasks backend s pc t next) :
    Balanced toLowercase tasks s pc t next where
  ok := step.ok
  shutdown := step.shutdown
  own := step.own
  once k inside := by
    cases down : t.shutdown with
    | false => exact (step.once down k inside).le
    | true =>
      -- a worker that sees the flag drops the task it has claimed
      cases step with
      | interrupted idx _ _ =>
        simp only [Pc.holds]
        omega
      | claim =>
        simp only [Pc.holds, taken]
        split_ifs <;> omega
      | beyond idx past =>
        have other : idx ≠ k := by omega
        simp [Pc.holds, other]
      | take idx _ quiet => simp [quiet] at down
      | exhausted idx task here => simp [Session.called, Pc.holds, List.count_singleton]
      | solved idx task sol here hex => simp [Session.called, Pc.holds, List.count_singleton]
      | tally due => cases due <;> simp [Session.record, Pc.holds]
      | _ => simp [Session.submitted, Pc.holds]
  carried := step.carried
  counted := step.counted
  credited := step.credited
  raced := step.raced
  potential := by
    rcases step.within with ⟨same, stays⟩ | ⟨more, staying, leaves⟩
    · rcases step.potential with ⟨-, less⟩ | ⟨more, -, -⟩
      · exact .inl ⟨same, less, stays⟩
      · omega
    · rcases step.potential with ⟨same, -⟩ | ⟨-, grows, -⟩
      · omega
      · exact .inr ⟨more, grows.le, staying, leaves⟩

theorem PlainStep.balanced (step : PlainStep toLowercase tasks s pc t next) :
    Balanced toLowercase tasks s pc t next := by
  cases step with
  | next inside =>
    exact {
      ok := inside
      shutdown := rfl
      own := id
      once := fun k _ => by
        simp only [Pc.holds, taken]
        split_ifs <;> omega
      carried := fun _ => rfl
      counted := rfl
      credited := rfl
      raced := rfl
      potential := by
        have within : ¬ tasks.length ≤ s.taskIdx := by omega
        exact .inr ⟨rfl, by simp [Pc.potential], rfl, by simp [Pc.left, within]⟩ }
  | exit past =>
    exact {
      ok := trivial
      shutdown := rfl
      own := id
      once := fun _ _ => Nat.le_refl _
      carried := fun _ => rfl
      counted := rfl
      credited := rfl
      raced := rfl
      potential := .inl ⟨rfl, Nat.zero_lt_one, Nat.zero_le _⟩ }
  | body inBody moves => exact moves.balanced

theorem LoopStep.balanced {n : Nat} (step : LoopStep toLowercase tasks n backend s pc t next) :
    Balanced toLowercase tasks s pc t next := by
  by_cases single : n = 1
  · rw [LoopStep, if_pos single] at step
    exact step.balanced
  · rw [LoopStep, if_neg single] at step
    exact step.balanced

end

section
variable {n : Nat}

/-- The accounts of a batch in any state, after a shutdown too. -/
structure Books (toLowercase : String -> String) (tasks : List Task) (completed lost : UInt64)
    (sys : Sys n) : Prop where
  pcs : ∀ i, PcOk tasks (sys.pcs i)
  within : sys.shared.taskIdx ≤ tasks.length + total (Pc.left tasks) sys.pcs
  own : ∀ call ∈ sys.shared.session.calls, tasks[call.index]? = some call.task
  once : ∀ k, k < tasks.length ->
    (sys.shared.session.calls.map Call.index).count k + total (Pc.holds k) sys.pcs ≤
      taken sys.shared.taskIdx k
  carried : ∀ sol, (sys.shared.session.submits.map Prod.fst).count sol +
    total (Pc.carries sol) sys.pcs = (sys.shared.session.calls.filterMap Call.result).count sol
  counted : sys.shared.found + total Pc.owes sys.pcs =
    (sys.shared.session.calls.filterMap Call.result).length
  credited : (sys.shared.session.tasksCompleted.toNat + total Pc.pendingAccepted sys.pcs) % 2 ^ 64 =
    (completed.toNat + acceptedSum sys.shared.session.submits) % 2 ^ 64
  raced : (sys.shared.session.racesLost.toNat + total Pc.pendingLost sys.pcs) % 2 ^ 64 =
    (lost.toNat + lostCount toLowercase sys.shared.session.submits) % 2 ^ 64

variable {toLowercase : String -> String} {tasks : List Task} {completed lost : UInt64}
  {sys u : Sys n}

theorem start_books (toLowercase : String -> String) (tasks : List Task) (completed lost : UInt64) :
    Books toLowercase tasks completed lost (Sys.start n (.start completed lost)) :=
  have inv := Sys.start_inv toLowercase tasks completed lost
  { pcs := inv.pcs
    within := inv.within
    own := inv.own
    once := fun k inside => (inv.once rfl k inside).le
    carried := inv.carried
    counted := inv.counted
    credited := inv.credited
    raced := inv.raced }

theorem Books.after {i : Fin n} {t : Shared} {next : Pc}
    (books : Books toLowercase tasks completed lost sys)
    (step : Balanced toLowercase tasks sys.shared (sys.pcs i) t next) :
    Books toLowercase tasks completed lost (sys.after i t next) where
  pcs j := by
    by_cases same : j = i
    · subst same
      simpa only [Sys.after, Function.update_self] using step.ok
    · simpa only [Sys.after, Function.update_of_ne same] using books.pcs j
  within := by
    have change := total_update (Pc.left tasks) sys.pcs i next
    have before := books.within
    simp only [Sys.after]
    rcases step.potential with ⟨same, -, stays⟩ | ⟨more, -, staying, leaves⟩
    · omega
    · split_ifs at leaves <;> omega
  own := step.own books.own
  once k inside := by
    have change := total_update (Pc.holds k) sys.pcs i next
    have before := books.once k inside
    have moved := step.once k inside
    simp only [Sys.after]
    omega
  carried sol := by
    have change := total_update (Pc.carries sol) sys.pcs i next
    have before := books.carried sol
    have moved := step.carried sol
    simp only [Sys.after]
    omega
  counted := by
    have change := total_update Pc.owes sys.pcs i next
    have before := books.counted
    have moved := step.counted
    simp only [Sys.after]
    omega
  credited := by
    have change := total_update Pc.pendingAccepted sys.pcs i next
    have before := books.credited
    have moved := step.credited
    simp only [Sys.after]
    omega
  raced := by
    have change := total_update Pc.pendingLost sys.pcs i next
    have before := books.raced
    have moved := step.raced
    simp only [Sys.after]
    omega

theorem Books.firm (books : Books toLowercase tasks completed lost sys) (i : Fin n) :
    ¬ Panics (sys.pcs i) :=
  PcOk.firm tasks (books.pcs i)

theorem Books.step (s u : Sys n) (books : Books toLowercase tasks completed lost s)
    (step : MineStep toLowercase tasks s u) : Books toLowercase tasks completed lost u := by
  cases step with
  | worker i t next alive moves => exact books.after moves.balanced
  | panic i alive panics => exact absurd panics (books.firm i)
  | interrupt alive quiet => exact { books with once := books.once }

theorem Books.decreases (s u : Sys n) (books : Books toLowercase tasks completed lost s)
    (step : MineStep toLowercase tasks s u) : u.size tasks < s.size tasks := by
  cases step with
  | worker i t next alive moves =>
    have balanced := moves.balanced
    have change := total_update Pc.potential s.pcs i next
    simp only [Sys.size, Sys.after, balanced.shutdown]
    rcases balanced.potential with ⟨same, less, -⟩ | ⟨more, grows, staying, -⟩
    · omega
    · have within := books.within
      have left := Transition.total_lt (Pc.left tasks) s.pcs 1 (fun j => Pc.left_le _) i
        (by rw [staying]; exact Nat.zero_lt_one)
      omega
  | panic i alive panics => exact absurd panics (books.firm i)
  | interrupt alive quiet => simp [Sys.size, quiet]

theorem Books.run {k : Nat} (run : Run (MineStep toLowercase tasks) k
    (Sys.start n (.start completed lost)) sys) :
    Books toLowercase tasks completed lost sys ∧ sys.aborted = false := by
  have preserved (s u : Sys n)
      (kept : Books toLowercase tasks completed lost s ∧ s.aborted = false)
      (step : MineStep toLowercase tasks s u) :
      Books toLowercase tasks completed lost u ∧ u.aborted = false := by
    refine ⟨kept.1.step s u step, ?_⟩
    cases step with
    | worker i t next alive moves => exact alive
    | panic i alive panics => exact absurd panics (kept.1.firm i)
    | interrupt alive quiet => exact alive
  exact run.invariant preserved ⟨start_books toLowercase tasks completed lost, rfl⟩

theorem Books.answered (books : Books toLowercase tasks completed lost sys) :
    ∀ s ∈ sys.shared.session.submits, ∃ call ∈ sys.shared.session.calls, call.result = some s.1 := by
  intro s submitted
  have carried := books.carried s.1
  have once := List.count_pos_iff.mpr (List.mem_map_of_mem (f := Prod.fst) submitted)
  exact List.mem_filterMap.mp (List.count_pos_iff.mp (by omega))

/-- No solution is lost or submitted twice, and no task is mined twice. -/
structure Settled (tasks : List Task) (session : Session) (found : Nat) : Prop where
  own : ∀ call ∈ session.calls, tasks[call.index]? = some call.task
  once : (session.calls.map Call.index).Nodup
  submitted : (session.submits.map Prod.fst).Perm (session.calls.filterMap Call.result)
  counted : found = (session.calls.filterMap Call.result).length

theorem Books.settled (books : Books toLowercase tasks completed lost sys) (joined : sys.Joined) :
    Settled tasks sys.shared.session sys.shared.found where
  own := books.own
  once := by
    rw [List.nodup_iff_count_le_one]
    intro k
    by_cases inside : k < tasks.length
    · have once := books.once k inside
      have few : taken sys.shared.taskIdx k ≤ 1 := by
        unfold taken
        split <;> omega
      omega
    · rw [List.count_eq_zero.mpr]
      · exact Nat.zero_le 1
      · intro member
        obtain ⟨call, called, rfl⟩ := List.mem_map.mp member
        have here := books.own call called
        rw [List.getElem?_eq_none (by omega)] at here
        cases here
  submitted := by
    rw [List.perm_iff_count]
    intro sol
    have carried := books.carried sol
    rwa [joined.total_zero _ rfl] at carried
  counted := by
    have counted := books.counted
    rwa [joined.total_zero _ rfl] at counted

theorem Books.statistics (books : Books toLowercase tasks completed lost sys)
    (joined : sys.Joined) :
    sys.shared.session.tasksCompleted =
        completed + UInt64.ofNat (acceptedSum sys.shared.session.submits) ∧
      sys.shared.session.racesLost =
        lost + UInt64.ofNat (lostCount toLowercase sys.shared.session.submits) := by
  have credited := books.credited
  have raced := books.raced
  rw [joined.total_zero _ rfl, Nat.add_zero] at credited raced
  exact ⟨Transition.counter_settled _ _ _ credited, Transition.counter_settled _ _ _ raced⟩

theorem Books.place {k : Nat} (run : Run (MineStep toLowercase tasks) k
    (Sys.start n (.start completed lost)) sys) (i : Fin n) : PlaceOk tasks sys i := by
  refine ⟨(Books.run run).1.pcs i, fun single => ?_⟩
  subst single
  obtain rfl : i = 0 := Subsingleton.elim i 0
  exact run.invariant (fun _ _ kept step => step.kept kept) (start_plain _)

variable (toLowercase tasks) in
def QuietStep (sys u : Sys n) : Prop :=
  MineStep toLowercase tasks sys u ∧ u.shared.shutdown = false

theorem quiet_run {k : Nat} {before : Session}
    (run : Run (QuietStep toLowercase tasks) k (Sys.start n before) sys) :
    Run (MineStep toLowercase tasks) k (Sys.start n before) sys ∧ sys.shared.shutdown = false := by
  refine ⟨run.mono fun _ _ step => step.1, ?_⟩
  cases run with
  | refl => rfl
  | tail _ last => exact last.2

theorem quiet_progress {k : Nat} (replies : Fin n -> Replies)
    (run : Run (QuietStep toLowercase tasks) k (Sys.start n (.start completed lost)) sys) :
    sys.Joined ∨ ∃ u i, QuietStep toLowercase tasks sys u ∧
      Answering (replies i) i.val sys.shared u.shared := by
  obtain ⟨run, quiet⟩ := quiet_run run
  have alive := (Books.run run).2
  by_cases done : ∀ i, sys.pcs i = .done
  · exact .inl ⟨alive, done⟩
  · obtain ⟨i, active⟩ := not_forall.mp done
    obtain ⟨t, next, moves, said⟩ :=
      LoopStep.answering toLowercase (replies i) (Books.place run i) active
    exact .inr ⟨_, i, ⟨.worker sys i t next alive moves, moves.shutdown.trans quiet⟩, said⟩

theorem Sys.Joined.returned {k : Nat}
    (run : Run (QuietStep toLowercase tasks) k (Sys.start n (.start completed lost)) sys)
    (joined : sys.Joined) : mineTasks toLowercase tasks n (.start completed lost)
      (some sys.shared.found) sys.shared.session := by
  obtain ⟨run, quiet⟩ := quiet_run run
  exact (mineTasks_iff_runs n _ _ _).mpr ⟨k, sys, run, quiet, rfl, .inl ⟨joined, rfl⟩⟩

/-- No interleaving of a batch goes on forever, and where one ends `mine_tasks` has returned. -/
theorem mineTasks_returns (toLowercase : String -> String) (tasks : List Task) (n : Nat)
    (completed lost : UInt64) : ∃ bound, ∀ k, ∀ sys : Sys n,
      Run (QuietStep toLowercase tasks) k (Sys.start n (.start completed lost)) sys ->
      k ≤ bound ∧ (Final (QuietStep toLowercase tasks) sys -> sys.Joined ∧
        mineTasks toLowercase tasks n (.start completed lost) (some sys.shared.found)
          sys.shared.session) := by
  refine ⟨(Sys.start n (.start completed lost)).size tasks, fun k sys run => ⟨?_, fun final => ?_⟩⟩
  · have bound := (quiet_run run).1.bounded Books.step Books.decreases
      (start_books toLowercase tasks completed lost)
    omega
  · rcases quiet_progress (fun _ => .silent) run with joined | ⟨u, -, step, -⟩
    · exact ⟨joined, joined.returned run⟩
    · exact (final u step).elim

/-- The backends may answer whatever has a hash text, and the server whatever it likes. -/
theorem mineTasks_answering (toLowercase : String -> String) (tasks : List Task)
    (completed lost : UInt64) (replies : Fin n -> Replies) :
    ∃ found after, mineTasks toLowercase tasks n (.start completed lost) (some found) after ∧
      (∀ call ∈ after.calls, ∃ i : Fin n, call.backend = i.val ∧
        call.result = (replies i).answer call.task) ∧
      ∀ sub ∈ after.submits, ∃ i, sub.2 = (replies i).reply sub.1 := by
  let step (s u : Sys n) : Prop := QuietStep toLowercase tasks s u ∧
    ∃ i, Answering (replies i) i.val s.shared u.shared
  have plain {k : Nat} {sys : Sys n} (run : Run step k (Sys.start n (.start completed lost)) sys) :
      Run (QuietStep toLowercase tasks) k (Sys.start n (.start completed lost)) sys :=
    run.mono fun _ _ step => step.1
  obtain ⟨bound, bounded⟩ := mineTasks_returns toLowercase tasks n completed lost
  obtain ⟨k, sys, run, final⟩ :=
    Transition.finishes_of_bounded fun k sys (run : Run step k _ sys) => (bounded k sys (plain run)).1
  let answered (s : Sys n) : Prop := (∀ call ∈ s.shared.session.calls,
    ∃ i : Fin n, call.backend = i.val ∧ call.result = (replies i).answer call.task) ∧
      ∀ sub ∈ s.shared.session.submits, ∃ i, sub.2 = (replies i).reply sub.1
  have preserved (s u : Sys n) (kept : answered s) (step : step s u) : answered u := by
    obtain ⟨-, i, said⟩ := step
    refine ⟨fun call member => ?_, fun sub member => ?_⟩
    · rcases said.calls call member with old | own
      · exact kept.1 call old
      · exact ⟨i, own⟩
    · rcases said.submits sub member with old | own
      · exact kept.2 sub old
      · exact ⟨i, own⟩
  have first : answered (Sys.start n (.start completed lost)) :=
    ⟨fun call member => (List.not_mem_nil member).elim,
      fun sub member => (List.not_mem_nil member).elim⟩
  have answers := run.invariant preserved first
  rcases quiet_progress replies (plain run) with joined | ⟨u, i, step, said⟩
  · exact ⟨_, _, joined.returned (plain run), answers⟩
  · exact (final u ⟨step, i, said⟩).elim

/-- Every interleaving of a batch comes to an end with its workers joined; the tasks are distributed
then, and the number found does not depend on the backends. -/
theorem mineTasks_distributed (toLowercase : String -> String) (tasks : List Task) (n : Nat)
    (positive : 1 ≤ n) (completed lost : UInt64) :
    (∃ bound, ∀ k, ∀ sys : Sys n,
      Run (QuietStep toLowercase tasks) k (Sys.start n (.start completed lost)) sys ->
      k ≤ bound ∧ (Final (QuietStep toLowercase tasks) sys -> sys.Joined ∧
        mineTasks toLowercase tasks n (.start completed lost) (some sys.shared.found)
          sys.shared.session)) ∧
    ∀ outcome after, mineTasks toLowercase tasks n (.start completed lost) outcome after ->
      ∃ count, outcome = some count ∧ Distributed toLowercase tasks completed lost after count ∧
        ∀ outcome' after', mineTasks toLowercase tasks 1 (.start completed lost) outcome' after' ->
          (∀ c ∈ after.calls, ∀ c' ∈ after'.calls, c.index = c'.index ->
            c.result.isSome = c'.result.isSome) ->
          outcome' = some count := by
  refine ⟨mineTasks_returns toLowercase tasks n completed lost, fun outcome after ran => ?_⟩
  obtain ⟨count, returned, distributed⟩ := mineTasks_returns_distributed positive ran
  refine ⟨count, returned, distributed, fun outcome' after' single agree => ?_⟩
  obtain ⟨count', returned', distributed'⟩ :=
    mineTasks_returns_distributed (Nat.le_refl 1) single
  rw [returned', distributed.agree distributed' agree]

theorem mineTasks_distributed_example : ∃ k, ∃ sys : Sys 2,
    Run (QuietStep String.toLower [⟨.num 1, "a", 1, 5, 9⟩, ⟨.num 2, "b", 1, 0, 3⟩]) k
      (Sys.start 2 (.start 3 0)) sys ∧ sys.Joined ∧
    Distributed String.toLower [⟨.num 1, "a", 1, 5, 9⟩, ⟨.num 2, "b", 1, 0, 3⟩] 3 0
      sys.shared.session sys.shared.found := by
  obtain ⟨⟨bound, bounded⟩, distributed⟩ := mineTasks_distributed String.toLower
    [⟨.num 1, "a", 1, 5, 9⟩, ⟨.num 2, "b", 1, 0, 3⟩] 2 (by decide) 3 0
  obtain ⟨k, sys, run, final⟩ := Transition.finishes_of_bounded fun k sys run => (bounded k sys run).1
  obtain ⟨joined, returned⟩ := (bounded k sys run).2 final
  obtain ⟨count, same, kept, -⟩ := distributed _ _ returned
  exact ⟨k, sys, run, joined, Option.some.inj same ▸ kept⟩

end

end ScamMiner.Orchestrator
