import ScamMiner.Orchestrator.Workers

set_option autoImplicit false

namespace ScamMiner.Orchestrator

open Transition (Run Final total total_update)

section
variable {toLowercase : String -> String} {tasks : List Task} {completed lost : UInt64} {n : Nat}
  {sys : Sys n} {i : Fin n} {t : Shared} {next : Pc}

theorem Inv.after (inv : Inv toLowercase tasks completed lost sys)
    (step : WorkerStep toLowercase tasks i.val sys.shared (sys.pcs i) t next) :
    Inv toLowercase tasks completed lost (sys.after i t next) where
  pcs j := by
    by_cases same : j = i
    · subst same
      simpa only [Sys.after, Function.update_self] using step.ok
    · simpa only [Sys.after, Function.update_of_ne same] using inv.pcs j
  claimed j idx pc := by
    by_cases same : j = i
    · subst same
      simp only [Sys.after, Function.update_self] at pc
      exact step.claimed.2 idx pc
    · simp only [Sys.after, Function.update_of_ne same] at pc
      exact Nat.lt_of_lt_of_le (inv.claimed j idx pc) step.claimed.1
  within := by
    have change := total_update (Pc.left tasks) sys.pcs i next
    have before := inv.within
    simp only [Sys.after]
    rcases step.within with ⟨same, grows⟩ | ⟨more, staying, leaves⟩
    · omega
    · split_ifs at leaves <;> omega
  excused j pc := by
    by_cases same : j = i
    · subst same
      simp only [Sys.after, Function.update_self] at pc
      exact step.excused (inv.claimed j) pc
    · simp only [Sys.after, Function.update_of_ne same] at pc
      rcases inv.excused j pc with down | enough
      · exact .inl (step.shutdown ▸ down)
      · exact .inr (enough.trans step.claimed.1)
  own := step.own inv.own
  once quiet k inside := by
    have change := total_update (Pc.holds k) sys.pcs i next
    have before := inv.once (step.shutdown ▸ quiet) k inside
    have moved := step.once quiet k inside
    simp only [Sys.after]
    omega
  carried sol := by
    have change := total_update (Pc.carries sol) sys.pcs i next
    have before := inv.carried sol
    have moved := step.carried sol
    simp only [Sys.after]
    omega
  counted := by
    have change := total_update Pc.owes sys.pcs i next
    have before := inv.counted
    have moved := step.counted
    simp only [Sys.after]
    omega
  credited := by
    have change := total_update Pc.pendingAccepted sys.pcs i next
    have before := inv.credited
    have moved := step.credited
    simp only [Sys.after]
    omega
  raced := by
    have change := total_update Pc.pendingLost sys.pcs i next
    have before := inv.raced
    have moved := step.raced
    simp only [Sys.after]
    omega

theorem Inv.firm (inv : Inv toLowercase tasks completed lost sys) (i : Fin n) :
    ¬ Panics (sys.pcs i) :=
  PcOk.firm tasks (inv.pcs i)

theorem Inv.step (s u : Sys n) (inv : Inv toLowercase tasks completed lost s)
    (step : Step toLowercase tasks s u) : Inv toLowercase tasks completed lost u := by
  cases step with
  | worker i t next alive moves => exact inv.after moves
  | panic i alive panics => exact absurd panics (inv.firm i)
  | interrupt alive quiet =>
    exact { inv with excused := fun _ _ => .inl rfl, once := fun quiet => by simp at quiet }

theorem Inv.run {k : Nat} (run : Run (Step toLowercase tasks) k
    (Sys.start n (.start completed lost)) sys) : Inv toLowercase tasks completed lost sys :=
  run.invariant Inv.step (Sys.start_inv toLowercase tasks completed lost)

theorem run_alive {k : Nat} (run : Run (Step toLowercase tasks) k
    (Sys.start n (.start completed lost)) sys) : sys.aborted = false := by
  have preserved (s u : Sys n) (kept : Inv toLowercase tasks completed lost s ∧ s.aborted = false)
      (step : Step toLowercase tasks s u) :
      Inv toLowercase tasks completed lost u ∧ u.aborted = false := by
    refine ⟨kept.1.step s u step, ?_⟩
    cases step with
    | worker i t next alive moves => exact alive
    | panic i alive panics => exact absurd panics (kept.1.firm i)
    | interrupt alive quiet => exact alive
  exact (run.invariant preserved ⟨Sys.start_inv toLowercase tasks completed lost, rfl⟩).2

def Sys.size (tasks : List Task) (sys : Sys n) : Nat :=
  10 * (tasks.length + n - sys.shared.taskIdx) + total Pc.potential sys.pcs +
    (!sys.shared.shutdown).toNat

theorem Pc.left_le (pc : Pc) : pc.left tasks ≤ 1 := by
  cases pc with
  | check idx =>
    simp only [Pc.left]
    split <;> omega
  | done => exact Nat.le_refl _
  | _ => exact Nat.zero_le _

theorem Sys.Joined.total_zero (joined : sys.Joined) (weight : Pc -> Nat)
    (zero : weight .done = 0) : total weight sys.pcs = 0 := by
  have each := Transition.total_const weight sys.pcs 0 fun i => by rw [joined.2 i, zero]
  simpa using each

-- A worker that has left without a shutdown saw that no task is left.
theorem Inv.calls_once (inv : Inv toLowercase tasks completed lost sys) (positive : 1 ≤ n)
    (joined : sys.Joined) (quiet : sys.shared.shutdown = false) :
    (sys.shared.session.calls.map Call.index).Perm (List.range tasks.length) := by
  have enough : tasks.length ≤ sys.shared.taskIdx := by
    rcases inv.excused ⟨0, positive⟩ (joined.2 _) with down | enough
    · simp [quiet] at down
    · exact enough
  rw [List.perm_iff_count]
  intro k
  by_cases inside : k < tasks.length
  · have one := inv.once quiet k inside
    rw [joined.total_zero _ rfl, taken, if_pos (by omega)] at one
    rw [List.count_eq_one_of_mem List.nodup_range (List.mem_range.mpr inside)]
    exact one
  · rw [List.count_eq_zero.mpr, List.count_eq_zero.mpr]
    · simpa using inside
    · intro member
      obtain ⟨call, called, rfl⟩ := List.mem_map.mp member
      have here := inv.own call called
      rw [List.getElem?_eq_none (by omega)] at here
      cases here

theorem distributed_of_joined (inv : Inv toLowercase tasks completed lost sys) (positive : 1 ≤ n)
    (joined : sys.Joined) (quiet : sys.shared.shutdown = false) :
    Distributed toLowercase tasks completed lost sys.shared.session sys.shared.found where
  once := inv.calls_once positive joined quiet
  own := inv.own
  submitted := by
    rw [List.perm_iff_count]
    intro sol
    have carried := inv.carried sol
    rwa [joined.total_zero _ rfl] at carried
  counted := by
    have counted := inv.counted
    rwa [joined.total_zero _ rfl] at counted
  credited := by
    have credited := inv.credited
    rw [joined.total_zero _ rfl, Nat.add_zero] at credited
    exact Transition.counter_settled _ _ _ credited
  raced := by
    have raced := inv.raced
    rw [joined.total_zero _ rfl, Nat.add_zero] at raced
    exact Transition.counter_settled _ _ _ raced

structure LoopInv (toLowercase : String -> String) (tasks : List Task) (completed lost : UInt64)
    (index found : Nat) (s : Session) : Prop where
  once : s.calls.map Call.index = List.range index
  own : ∀ call ∈ s.calls, tasks[call.index]? = some call.task
  submitted : s.submits.map Prod.fst = s.calls.filterMap Call.result
  counted : found = (s.calls.filterMap Call.result).length
  credited : s.tasksCompleted = completed + UInt64.ofNat (acceptedSum s.submits)
  raced : s.racesLost = lost + UInt64.ofNat (lostCount toLowercase s.submits)

theorem LoopInv.initial : LoopInv toLowercase tasks completed lost 0 0 (.start completed lost) := by
  constructor <;> simp [Session.start, acceptedSum, lostCount]

variable {index found : Nat} {s : Session} {task : Task}

theorem own_called (own : ∀ call ∈ s.calls, tasks[call.index]? = some call.task)
    (here : tasks[index]? = some task) (result : Option Solution) :
    ∀ call ∈ (s.called ⟨0, index, task, result⟩).calls, tasks[call.index]? = some call.task := by
  intro call member
  rcases List.mem_append.mp member with old | new
  · exact own call old
  · rw [List.mem_singleton.mp new]
    exact here

theorem LoopInv.exhausted (inv : LoopInv toLowercase tasks completed lost index found s)
    (here : tasks[index]? = some task) :
    LoopInv toLowercase tasks completed lost (index + 1) found
      (s.called ⟨0, index, task, none⟩) where
  once := by simp [Session.called, inv.once, List.range_succ]
  own := own_called inv.own here none
  submitted := by simp [Session.called, inv.submitted]
  counted := by simp [Session.called, inv.counted]
  credited := inv.credited
  raced := inv.raced

theorem record_credited (reply : Option SubmitResponse) (sol : Solution)
    (credited : s.tasksCompleted = completed + UInt64.ofNat (acceptedSum s.submits)) :
    ((s.submitted sol reply).record (tally toLowercase reply)).tasksCompleted =
      completed + UInt64.ofNat (acceptedSum (s.submits ++ [(sol, reply)])) := by
  have due := tally_accepted toLowercase reply
  rw [acceptedSum_append, ← due, UInt64.ofNat_add, ← UInt64.add_assoc, ← credited]
  cases tally toLowercase reply with
  | claimed accepted => simp [Session.record, Session.submitted, Tally.accepted]
  | lostRace => simp [Session.record, Session.submitted, Tally.accepted]
  | unchanged => simp [Session.record, Session.submitted, Tally.accepted]

theorem record_raced (reply : Option SubmitResponse) (sol : Solution)
    (raced : s.racesLost = lost + UInt64.ofNat (lostCount toLowercase s.submits)) :
    ((s.submitted sol reply).record (tally toLowercase reply)).racesLost =
      lost + UInt64.ofNat (lostCount toLowercase (s.submits ++ [(sol, reply)])) := by
  have due := tally_lost toLowercase reply
  rw [lostCount_append, ← due, UInt64.ofNat_add, ← UInt64.add_assoc, ← raced]
  cases tally toLowercase reply with
  | claimed accepted => simp [Session.record, Session.submitted, Tally.lost]
  | lostRace => simp [Session.record, Session.submitted, Tally.lost]
  | unchanged => simp [Session.record, Session.submitted, Tally.lost]

theorem LoopInv.solved (inv : LoopInv toLowercase tasks completed lost index found s)
    (here : tasks[index]? = some task) (sol : Solution) (reply : Option SubmitResponse) :
    LoopInv toLowercase tasks completed lost (index + 1) (found + 1)
      (((s.called ⟨0, index, task, some sol⟩).submitted sol reply).record
        (tally toLowercase reply)) := by
  obtain ⟨calls, submits⟩ := ((s.called ⟨0, index, task, some sol⟩).submitted sol
    reply).record_histories (tally toLowercase reply)
  constructor
  · rw [calls]
    simp [Session.called, Session.submitted, inv.once, List.range_succ]
  · rw [calls]
    exact own_called inv.own here (some sol)
  · rw [calls, submits]
    simp [Session.called, Session.submitted, inv.submitted]
  · rw [calls]
    simp [Session.called, Session.submitted, inv.counted]
  · rw [submits]
    exact record_credited reply sol inv.credited
  · rw [submits]
    exact record_raced reply sol inv.raced

theorem plainLoop_ensures (seen rest : List Task) (split : tasks = seen ++ rest)
    (here : seen.length = index) (inv : LoopInv toLowercase tasks completed lost index found s) :
    Proc.Ensures (plainLoop toLowercase index found rest) (Proc.Then
      (fun count t => LoopInv toLowercase tasks completed lost tasks.length count t)
      (fun _ => False)) s := by
  induction rest generalizing seen index found s with
  | nil =>
    have last : tasks.length = index := by simp [split, here]
    rw [plainLoop, Proc.ensures_pure, last]
    exact inv
  | cons task rest ih =>
    have found_ : tasks[index]? = some task := by simp [split, ← here]
    have next : tasks = (seen ++ [task]) ++ rest := by simp [split]
    rw [plainLoop, Proc.ensures_bind]
    rintro o t ⟨result, hex, rfl, rfl⟩
    cases result with
    | none => exact ih (seen ++ [task]) next (by simp [here]) (inv.exhausted found_)
    | some sol =>
      obtain ⟨text, head⟩ := Option.isSome_iff_exists.mp (hashHead_hex sol.hash (hex sol rfl))
      simp only [Proc.Then]
      rw [Proc.ensures_bind, Proc.ensures_ofOption, head]
      simp only [Proc.Then]
      rw [Proc.ensures_bind, submitSolution, Proc.ensures_bind]
      rintro o u ⟨reply, rfl, rfl⟩
      simp only [Proc.Then, Proc.ensures_modify]
      exact ih (seen ++ [task]) next (by simp [here]) (inv.solved found_ sol reply)

theorem LoopInv.distributed
    (inv : LoopInv toLowercase tasks completed lost tasks.length found s) :
    Distributed toLowercase tasks completed lost s found where
  once := inv.once ▸ List.Perm.refl _
  own := inv.own
  submitted := inv.submitted ▸ List.Perm.refl _
  counted := inv.counted
  credited := inv.credited
  raced := inv.raced

/-- The outcomes of `mine_tasks` with `n` backends while `SHUTDOWN` stays false. -/
def mineTasks (toLowercase : String -> String) (tasks : List Task) (n : Nat) (before : Session)
    (found : Option Nat) (after : Session) : Prop :=
  if n = 1 then plainLoop toLowercase 0 0 tasks before found after
  else ∃ k, ∃ sys : Sys n, Run (Step toLowercase tasks) k (Sys.start n before) sys ∧
    sys.shared.shutdown = false ∧ after = sys.shared.session ∧
    (sys.Joined ∧ found = some sys.shared.found ∨ sys.aborted = true ∧ found = none)

theorem mineTasks_returns_distributed {after : Session} {outcome : Option Nat} (positive : 1 ≤ n)
    (ran : mineTasks toLowercase tasks n (.start completed lost) outcome after) :
    ∃ count, outcome = some count ∧ Distributed toLowercase tasks completed lost after count := by
  unfold mineTasks at ran
  by_cases single : n = 1
  · rw [if_pos single] at ran
    have ended := plainLoop_ensures [] tasks rfl rfl .initial outcome after ran
    cases outcome with
    | none => exact ended.elim
    | some count => exact ⟨count, rfl, ended.distributed⟩
  · rw [if_neg single] at ran
    obtain ⟨k, sys, run, quiet, rfl, ⟨joined, rfl⟩ | ⟨aborted, -⟩⟩ := ran
    · exact ⟨_, rfl, distributed_of_joined (Inv.run run) positive joined quiet⟩
    · simp [run_alive run] at aborted

theorem Distributed.agree {left right : Session} {few many : Nat} {completed' lost' : UInt64}
    (first : Distributed toLowercase tasks completed lost left few)
    (second : Distributed toLowercase tasks completed' lost' right many)
    (agree : ∀ c ∈ left.calls, ∀ c' ∈ right.calls, c.index = c'.index ->
      c.result.isSome = c'.result.isSome) : few = many := by
  let solved (k : Nat) : Bool := decide (∃ c ∈ right.calls, c.index = k ∧ c.result.isSome = true)
  have met : ∀ c ∈ left.calls, ∃ c' ∈ right.calls, c'.index = c.index := by
    intro c member
    have inside := first.once.mem_iff.mp (List.mem_map_of_mem member)
    exact List.mem_map.mp (second.once.mem_iff.mpr inside)
  have back : ∀ c' ∈ right.calls, ∃ c ∈ left.calls, c.index = c'.index := by
    intro c' member
    have inside := second.once.mem_iff.mp (List.mem_map_of_mem member)
    exact List.mem_map.mp (first.once.mem_iff.mpr inside)
  have left_ : ∀ c ∈ left.calls, (Option.isSome ∘ Call.result) c = true ↔
      (solved ∘ Call.index) c = true := by
    intro c member
    simp only [Function.comp_apply, solved, decide_eq_true_eq]
    constructor
    · intro hit
      obtain ⟨c', there, same⟩ := met c member
      exact ⟨c', there, same, agree c member c' there same.symm ▸ hit⟩
    · rintro ⟨c', there, same, hit⟩
      rw [agree c member c' there same.symm, hit]
  have right_ : ∀ c' ∈ right.calls, (Option.isSome ∘ Call.result) c' = true ↔
      (solved ∘ Call.index) c' = true := by
    intro c' member
    simp only [Function.comp_apply, solved, decide_eq_true_eq]
    constructor
    · exact fun hit => ⟨c', member, rfl, hit⟩
    · rintro ⟨twin, there, same, hit⟩
      obtain ⟨c, here, index⟩ := back c' member
      rw [← agree c here c' member index, agree c here twin there (index.trans same.symm), hit]
  rw [first.counted, second.counted, List.length_filterMap_eq_countP,
    List.length_filterMap_eq_countP]
  calc left.calls.countP (Option.isSome ∘ Call.result)
      = (left.calls.map Call.index).countP solved := by
        rw [List.countP_map, List.countP_congr left_]
    _ = (right.calls.map Call.index).countP solved :=
        (first.once.trans second.once.symm).countP_eq solved
    _ = right.calls.countP (Option.isSome ∘ Call.result) := by
        rw [List.countP_map, List.countP_congr right_]

end

end ScamMiner.Orchestrator
