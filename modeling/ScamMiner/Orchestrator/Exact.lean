import ScamMiner.Backend.Calls
import ScamMiner.Orchestrator.Stop

set_option autoImplicit false

namespace ScamMiner.Orchestrator

open Transition (Run)

section
variable {toLowercase : String -> String} {n : Nat} {tasks : List Task} {completed lost : UInt64}
  {session : Session} {found : Nat} {m : Miner n}

open Classical in
noncomputable def solvable (tasks : List Task) : List Task :=
  tasks.filter fun task => decide task.Solvable

/-- Exactly one valid solution of each solvable task is submitted, and nothing else. -/
structure Exhaustive (tasks : List Task) (session : Session) (found : Nat) : Prop where
  found : found = (solvable tasks).length
  submitted : ∃ sols, List.Forall₂ Task.Valid (solvable tasks) sols ∧
    (session.submits.map Prod.fst).Perm sols

theorem solvable_answered {calls : List Call}
    (answered : List.Forall₂ (fun task (call : Call) => task.Answers call.result) tasks calls) :
    List.Forall₂ Task.Valid (solvable tasks) (calls.filterMap Call.result) := by
  induction answered with
  | nil => exact .nil
  | @cons task call tasks calls answers _ ih =>
    cases result : call.result with
    | none =>
      rw [result] at answers
      simpa [solvable, answers.unsolvable, result] using ih
    | some sol =>
      rw [result] at answers
      simpa [solvable, answers.valid.solvable, result] using ⟨answers.valid, ih⟩

theorem perm_of_map {A B : Type} (f : A -> B) {items : List A} {image : List B}
    (same : (items.map f).Perm image) : ∃ ordered : List A, ordered.Perm items ∧
      image = ordered.map f := by
  have composed : Relation.Comp (fun image ordered => image = List.map f ordered) List.Perm
      image items := by
    rw [List.eq_map_comp_perm]
    exact same.symm
  obtain ⟨ordered, mapped, order⟩ := composed
  exact ⟨ordered, order, mapped⟩

theorem Distributed.inOrder
    (distributed : Distributed toLowercase tasks completed lost session found) :
    ∃ calls : List Call, calls.Perm session.calls ∧ tasks = calls.map Call.task := by
  obtain ⟨calls, order, indices⟩ := perm_of_map Call.index distributed.once
  refine ⟨calls, order, List.ext_getElem? fun k => ?_⟩
  have place := congrArg (·[k]?) indices
  simp only [List.getElem?_map] at place ⊢
  cases here : calls[k]? with
  | none =>
    rw [here, Option.map_none, List.getElem?_eq_none_iff, List.length_range] at place
    exact List.getElem?_eq_none place
  | some call =>
    obtain ⟨inside, same⟩ := List.getElem?_eq_some_iff.mp (here ▸ place)
    rw [List.getElem_range] at same
    have own := distributed.own call (order.subset (List.mem_of_getElem? here))
    rw [same]
    exact own

theorem Distributed.exhaustive
    (distributed : Distributed toLowercase tasks completed lost session found)
    (answers : ∀ call ∈ session.calls, call.task.Answers call.result) :
    Exhaustive tasks session found := by
  obtain ⟨calls, order, same⟩ := distributed.inOrder
  have answered : List.Forall₂ (fun task (call : Call) => task.Answers call.result) tasks calls := by
    rw [same, List.forall₂_map_left_iff, List.forall₂_same]
    exact fun call member => answers call (order.subset member)
  have valid := solvable_answered answered
  have results := order.filterMap Call.result
  refine ⟨?_, _, valid, distributed.submitted.trans results.symm⟩
  rw [distributed.counted, valid.length_eq, results.length_eq]

def Phase.inHand : Phase n -> List (Batch n)
  | .mining tasks w => [w.batch tasks]
  | _ => []

def Miner.work (m : Miner n) : List (Batch n) :=
  m.batches ++ m.phase.inHand

theorem Miner.work_idle {m : Miner n} (idle : m.phase.inHand = []) : m.work = m.batches := by
  rw [Miner.work, idle, List.append_nil]

/-- The calls of a session are runs of its backends, and one was interrupted only where Ctrl-C has
been pressed. -/
def Miner.MinedBy (m : Miner n) (backends : Fin n -> Backend) : Prop :=
  ∀ b ∈ m.work, ∀ call ∈ b.session.calls, ∃ i : Fin n, call.backend = i.val ∧
    ∃ interrupted, (backends i).Mined call.task interrupted call.result ∧
      (interrupted = true -> m.shutdown = true)

structure Miner.Served (m : Miner n) (backends : Fin n -> Backend) (cores : Nat) : Prop where
  within : ∀ i, (backends i).Within cores
  inRange : ∀ b ∈ m.work, ∀ task ∈ b.tasks, task.InRange cores
  mined : m.MinedBy backends

theorem Batch.Ran.distributed {b : Batch n} (ran : b.Ran toLowercase completed lost false)
    (positive : 1 ≤ n) : Distributed toLowercase b.tasks completed lost b.session b.found := by
  obtain ⟨k, w, run, joined, quiet, same⟩ := ran
  have outcome : mineTasks toLowercase b.tasks n (.start completed lost) (some b.found) b.session := by
    rw [mineTasks_iff_watched, same]
    exact ⟨k, w, run, quiet, rfl, .inl ⟨joined, rfl⟩⟩
  obtain ⟨count, returned, distributed⟩ := mineTasks_returns_distributed positive outcome
  rwa [Option.some.inj returned]

theorem Ledger.books (ledger : Ledger toLowercase m) : ∀ b ∈ m.work, ∃ completed lost, ∃ sys : Sys n,
    Books toLowercase b.tasks completed lost sys ∧ b.session = sys.shared.session := by
  intro b member
  rcases List.mem_append.mp member with old | current
  · obtain ⟨completed, lost, _, ⟨k, w, run, -, -, same⟩, -⟩ := ledger.ran b old
    exact ⟨completed, lost, w.sys, (watch_books run).1, by rw [same]; rfl⟩
  · cases place : m.phase with
    | mining tasks w =>
      rw [place, Phase.inHand, List.mem_singleton] at current
      subst current
      obtain ⟨-, k, run⟩ := ledger.mined tasks w place
      exact ⟨_, _, w.sys, (watch_books run).1, rfl⟩
    | _ =>
      rw [place] at current
      cases current

theorem submitted_valid {backends : Fin n -> Backend} {cores k : Nat}
    (run : Run (MinerStep toLowercase) k (Miner.start n) m) (served : m.Served backends cores) :
    ∀ b ∈ m.work, ∀ s ∈ b.session.submits, ∃ task ∈ b.tasks, task.Valid s.1 := by
  intro b member s submitted
  obtain ⟨_, _, sys, books, same⟩ := (ledger_run run).books b member
  rw [same] at submitted
  obtain ⟨call, called, result⟩ := books.answered s submitted
  have own := List.mem_of_getElem? (books.own call called)
  obtain ⟨i, -, interrupted, mined, -⟩ := served.mined b member call (same ▸ called)
  have replies := mined.replies (served.within i) (served.inRange b member _ own)
  exact ⟨call.task, own, replies.valid s.1 result⟩

theorem quiet_exhaustive {backends : Fin n -> Backend} {cores k : Nat}
    (run : Run (MinerStep toLowercase) k (Miner.start n) m) (positive : 1 ≤ n)
    (served : m.Served backends cores) (quiet : m.shutdown = false) :
    ∀ b ∈ m.batches, Exhaustive b.tasks b.session b.found := by
  intro b member
  have work : b ∈ m.work := List.mem_append_left _ member
  obtain ⟨_, _, shutdown, ran, down⟩ := (ledger_run run).ran b member
  obtain rfl : shutdown = false := by
    cases shutdown with
    | false => rfl
    | true => exact absurd (down rfl) (by simp [quiet])
  refine (ran.distributed positive).exhaustive fun call called => ?_
  have own := List.mem_of_getElem? (ran.settled.own call called)
  obtain ⟨i, -, interrupted, mined, late⟩ := served.mined b work call called
  cases interrupted with
  | false => exact (mined.replies (served.within i) (served.inRange b work _ own)).answers
  | true => exact absurd (late rfl) (by simp [quiet])

theorem valid_hex {task : Task} {sol : Solution} (valid : task.Valid sol) : HexText sol.hash := by
  rw [valid.hash]
  exact hexLower_hex _ (stateToBytes_length _)

theorem short_served (toLowercase : String -> String) (reply : Solution -> Option SubmitResponse)
    {backends : Fin n -> Backend} {cores : Nat} (within : ∀ i, (backends i).Within cores) (some_ : tasks ≠ [])
    (range : ∀ task ∈ tasks, task.InRange cores)
    (short : ∀ task ∈ tasks, task.prefixBytes.length ≤ 35) :
    ∃ k, ∃ m : Miner n, Run (MinerStep toLowercase) k (Miner.start n) m ∧ m.phase = .head ∧
      m.shutdown = false ∧ m.batches.map Batch.tasks = [tasks] ∧
      m.Served backends cores ∧ ∀ b ∈ m.work, ∀ sub ∈ b.session.submits, sub.2 = reply sub.1 := by
  classical
  have mined (i : Fin n) (task : Task) : ∃ result : Option Solution,
      (task ∈ tasks -> (backends i).Mined task false result) ∧
        ∀ sol, result = some sol -> HexText sol.hash := by
    by_cases member : task ∈ tasks
    · obtain ⟨result, mined⟩ := (backends i).short_mined (within i) (range task member)
        (short task member)
      have replies := mined.replies (within i) (range task member)
      exact ⟨result, fun _ => mined, fun sol answered => valid_hex (replies.valid sol answered)⟩
    · exact ⟨none, fun own => absurd own member, by simp⟩
  choose answer answers hex using mined
  obtain ⟨found, after, outcome, calls, submits⟩ := mineTasks_answering toLowercase tasks 0 0
    fun i => { answer := answer i, reply := reply, hex := hex i }
  obtain ⟨k, m, run, place, quiet, -, -, b, batches, same, session, -⟩ := first_batch some_ outcome
  have work (b' : Batch n) (member : b' ∈ m.work) : b' = b := by
    rw [m.work_idle (by rw [place]; rfl), batches] at member
    exact List.mem_singleton.mp member
  have here : b ∈ m.batches := by rw [batches]; exact List.mem_singleton_self b
  refine ⟨k, m, run, place, quiet, by rw [batches, ← same]; rfl, ⟨within, fun b' member task own => ?_,
    fun b' member call called => ?_⟩, fun b' member sub submitted => ?_⟩
  · obtain rfl := work b' member
    exact range task (same ▸ own)
  · obtain rfl := work b' member
    obtain ⟨_, _, _, ran, -⟩ := (ledger_run run).ran b' here
    have own := List.mem_of_getElem? (ran.settled.own call called)
    rw [session] at called
    obtain ⟨i, backend, result⟩ := calls call called
    exact ⟨i, backend, false, result ▸ answers i call.task (same ▸ own), Bool.noConfusion⟩
  · obtain rfl := work b' member
    rw [session] at submitted
    obtain ⟨_, own⟩ := submits sub submitted
    exact own

/-- In every session the solutions submitted are valid ones of the tasks served, and as long as
nobody has pressed Ctrl-C each finished batch has submitted exactly one for each solvable task. -/
theorem session_exact {backends : Fin n -> Backend} {cores k : Nat}
    (run : Run (MinerStep toLowercase) k (Miner.start n) m) (positive : 1 ≤ n)
    (served : m.Served backends cores) :
    (∀ b ∈ m.work, ∀ s ∈ b.session.submits, ∃ task ∈ b.tasks, task.Valid s.1) ∧
      (m.shutdown = false -> ∀ b ∈ m.batches, Exhaustive b.tasks b.session b.found) :=
  ⟨submitted_valid run served, quiet_exhaustive run positive served⟩

-- A task of difficulty 0 is solved by any nonce.
theorem solvable_free (tasks : List Task)
    (free : ∀ task ∈ tasks, task.nonceStart ≤ task.nonceEnd ∧ task.difficulty = 0) :
    solvable tasks = tasks := by
  classical
  refine List.filter_eq_self.mpr fun task member => ?_
  obtain ⟨ordered, zero⟩ := free task member
  refine decide_eq_true ⟨task.nonceStart, UInt64.le_refl _, ordered, ?_⟩
  rw [Task.Solves, zero]
  exact List.nil_prefix

theorem session_exact_example : ∃ m : Miner 3,
    m.batches.map Batch.tasks = [[⟨.num 1, "", 0, 5, 900⟩, ⟨.num 2, "", 0, 0, 70000000⟩]] ∧
    (∀ b ∈ m.work, ∀ s ∈ b.session.submits, ∃ task ∈ b.tasks, task.Valid s.1) ∧
    ∀ b ∈ m.batches, b.found = 2 ∧ Exhaustive b.tasks b.session b.found := by
  let tasks : List Task := [⟨.num 1, "", 0, 5, 900⟩, ⟨.num 2, "", 0, 0, 70000000⟩]
  let backends : Fin 3 -> Backend := ![.cpu (.new 2), .gpu .wgsl "Arc A770", .gpu .hip "gfx90a"]
  have within : ∀ i, (backends i).Within 2 :=
    Fin.forall_fin_succ.mpr ⟨Nat.le_refl 2, Fin.forall_fin_two.mpr ⟨trivial, trivial⟩⟩
  have range : ∀ task ∈ tasks, task.InRange 2 :=
    List.forall_mem_cons.mpr ⟨⟨by decide, by decide⟩,
      List.forall_mem_singleton.mpr ⟨by decide, by decide⟩⟩
  have short : ∀ task ∈ tasks, task.prefixBytes.length ≤ 35 := by decide +kernel
  obtain ⟨k, m, run, -, quiet, served, own, -⟩ :=
    short_served String.toLower (fun _ => none) within (List.cons_ne_nil _ _) range short
  obtain ⟨valid, exhaustive⟩ := session_exact run (by decide) own
  refine ⟨m, served, valid, fun b member => ⟨?_, exhaustive quiet b member⟩⟩
  have same : b.tasks = tasks := by
    have here := List.mem_map_of_mem (f := Batch.tasks) member
    rw [served] at here
    exact List.mem_singleton.mp here
  rw [(exhaustive quiet b member).found, same, solvable_free tasks (by decide)]
  rfl

def Batch.ids (b : Batch n) : List Id :=
  b.session.submits.map fun s => s.1.taskId

theorem Exhaustive.ids {b : Batch n} (exhaustive : Exhaustive b.tasks b.session b.found) :
    b.ids.Perm ((solvable b.tasks).map Task.id) := by
  obtain ⟨sols, valid, order⟩ := exhaustive.submitted
  have same : sols.map Solution.taskId = (solvable b.tasks).map Task.id := by
    rw [← List.forall₂_eq_eq_eq, List.forall₂_map_left_iff, List.forall₂_map_right_iff]
    exact (valid.imp fun task sol own => own.taskId).flip
  have own := order.map Solution.taskId
  rwa [same, List.map_map] at own

/-- Two sessions over the same batches, with any numbers of backends of any kinds, find the same
and submit solutions for the same ids. -/
theorem sessions_agree {n' cores cores' k k' : Nat} {u : Miner n'} {backends : Fin n -> Backend}
    {backends' : Fin n' -> Backend} (run : Run (MinerStep toLowercase) k (Miner.start n) m)
    (run' : Run (MinerStep toLowercase) k' (Miner.start n') u) (positive : 1 ≤ n)
    (positive' : 1 ≤ n') (served : m.Served backends cores) (served' : u.Served backends' cores')
    (quiet : m.shutdown = false) (quiet' : u.shutdown = false)
    (same : m.batches.map Batch.tasks = u.batches.map Batch.tasks) :
    List.Forall₂ (fun b c => b.found = c.found ∧ b.ids.Perm c.ids) m.batches u.batches := by
  have paired : List.Forall₂ (fun b c => b.tasks = c.tasks) m.batches u.batches := by
    rw [← List.forall₂_eq_eq_eq, List.forall₂_map_left_iff, List.forall₂_map_right_iff] at same
    exact same
  have left := quiet_exhaustive run positive served quiet
  have right := quiet_exhaustive run' positive' served' quiet'
  generalize m.batches = bs, u.batches = cs at paired left right
  induction paired with
  | nil => exact .nil
  | @cons b c bs cs tasks _ ih =>
    have own := left b List.mem_cons_self
    have other := right c List.mem_cons_self
    refine .cons ⟨?_, ?_⟩ (ih (fun b member => left b (List.mem_cons_of_mem _ member))
      fun c member => right c (List.mem_cons_of_mem _ member))
    · rw [own.found, other.found, tasks]
    · have ids := own.ids
      rw [tasks] at ids
      exact ids.trans other.ids.symm

theorem sessions_agree_example : ∃ (m : Miner 1) (u : Miner 3),
    m.batches.map Batch.tasks = [[⟨.num 1, "", 1, 5, 900⟩, ⟨.num 2, "", 0, 0, 70000000⟩]] ∧
      List.Forall₂ (fun b c => b.found = c.found ∧ b.ids.Perm c.ids) m.batches u.batches := by
  let tasks : List Task := [⟨.num 1, "", 1, 5, 900⟩, ⟨.num 2, "", 0, 0, 70000000⟩]
  let many : Fin 3 -> Backend := ![.gpu .wgsl "Arc A770", .gpu .opencl "gfx1100", .gpu .hip "gfx90a"]
  have alone : ∀ i, ((![.cpu (.new 64)] : Fin 1 -> Backend) i).Within 64 :=
    Fin.forall_fin_one.mpr (Nat.le_refl 64)
  have within : ∀ i, (many i).Within 1 :=
    Fin.forall_fin_succ.mpr ⟨trivial, Fin.forall_fin_two.mpr ⟨trivial, trivial⟩⟩
  have range : ∀ task ∈ tasks, task.InRange 64 :=
    List.forall_mem_cons.mpr ⟨⟨by decide, by decide⟩,
      List.forall_mem_singleton.mpr ⟨by decide, by decide⟩⟩
  have short : ∀ task ∈ tasks, task.prefixBytes.length ≤ 35 := by decide +kernel
  obtain ⟨k, m, run, -, quiet, one, served, -⟩ :=
    short_served String.toLower (fun _ => none) alone (List.cons_ne_nil _ _) range short
  obtain ⟨k', u, run', -, quiet', one', served', -⟩ :=
    short_served String.toLower (fun _ => some ⟨1, []⟩) within (List.cons_ne_nil _ _)
      (fun task member => (range task member).few (by decide)) short
  exact ⟨m, u, one, sessions_agree run run' (by decide) (by decide) served served' quiet quiet'
    (one.trans one'.symm)⟩

end

end ScamMiner.Orchestrator
