import ScamMiner.Orchestrator.Run

set_option autoImplicit false

namespace ScamMiner.Orchestrator

open Transition (Run Final Terminates total total_update)

section
variable {toLowercase : String -> String} {n : Nat} {tasks : List Task} {completed lost : UInt64}
  {m u v : Miner n} {w w' : Watch n}

def Phase.begun : Phase n -> List (Fin n × Nat)
  | .mining _ w => w.begun
  | _ => []

-- The calls of `Backend::mine` that have begun in the session, oldest first.
def Miner.begun (m : Miner n) : List (Fin n × Nat) :=
  m.batches.flatMap Batch.begun ++ m.phase.begun

-- The backend has passed the check of `SHUTDOWN`, and its call has not begun yet.
def Phase.due (i : Fin n) : Phase n -> Nat
  | .mining _ w => (w.sys.pcs i).due (w.busy i)
  | _ => 0

def Phase.occupied : Phase n -> Nat
  | .requesting => 1
  | .mining _ _ => 1
  | _ => 0

structure Halts (m u : Miner n) : Prop where
  down : u.shutdown = true
  requests : u.requests = m.requests
  batches : u.batches.length + u.phase.occupied ≤ m.batches.length + m.phase.occupied
  grown : m.begun.length ≤ u.begun.length
  calls : n ≠ 1 -> ∀ i,
    ((u.begun.drop m.begun.length).map Prod.fst).count i + u.phase.due i ≤ m.phase.due i

theorem launch_idle (session : Session) (shutdown : Bool) :
    (Watch.launch (n := n) session shutdown).begun = [] ∧
      ∀ i, ((Watch.launch (n := n) session shutdown).sys.pcs i).due
        ((Watch.launch (n := n) session shutdown).busy i) = 0 := by
  cases shutdown <;> exact ⟨rfl, fun _ => rfl⟩

theorem received_idle (m : Miner n) (result : Except ApiError (List Task)) :
    (m.received result).begun = [] ∧ (m.received result).occupied ≤ 1 ∧
      ∀ i, (m.received result).due i = 0 := by
  cases result with
  | error e => cases e <;> exact ⟨rfl, Nat.zero_le _, fun _ => rfl⟩
  | ok served =>
    cases served with
    | nil => exact ⟨rfl, Nat.zero_le _, fun _ => rfl⟩
    | cons task rest =>
      have idle := launch_idle (n := n) (.start m.tasksCompleted m.racesLost) m.shutdown
      exact ⟨idle.1, Nat.le_refl 1, idle.2⟩

theorem late_append {A : Type} (before after more : List A) (grown : before.length ≤ after.length) :
    (after ++ more).drop before.length = after.drop before.length ++ more :=
  List.drop_append_of_le_length grown

-- With the flag set a step of the batch begins only a call that was due.
theorem WatchStep.calls (step : WatchStep toLowercase tasks w w') (many : n ≠ 1)
    (down : w.sys.shared.shutdown = true) :
    ∃ more, w'.begun = w.begun ++ more ∧ ∀ j, (more.map Prod.fst).count j +
      (w'.sys.pcs j).due (w'.busy j) ≤ (w.sys.pcs j).due (w.busy j) := by
  cases step with
  | call i idx alive entering idle =>
    refine ⟨[(i, idx)], rfl, fun j => ?_⟩
    by_cases same : j = i
    · subst same
      simp [Watch.enter, entering, idle, Pc.due]
    · simp [Watch.enter, Function.update_of_ne same, Ne.symm same]
  | worker i s pc alive returned moves =>
    rw [LoopStep, if_neg many] at moves
    refine ⟨[], (List.append_nil _).symm, fun j => ?_⟩
    by_cases same : j = i
    · subst same
      simp [Watch.after, Sys.after, moves.stopped down false]
    · simp [Watch.after, Sys.after, Function.update_of_ne same]
  | panic i alive panics => exact ⟨[], (List.append_nil _).symm, fun _ => by simp⟩
  | interrupt alive quiet => exact absurd down (by simp [quiet])

theorem Miner.begun_returned (place : m.phase = .mining tasks w) :
    (m.returned tasks w).begun = m.begun := by
  simp [Miner.begun, Miner.returned, Watch.batch, place, Phase.begun]

theorem Halts.moved (halts : Halts m u) (phase : Phase n) (before : u.phase.begun = [])
    (begun : phase.begun = []) (due : ∀ i, phase.due i = 0)
    (occupied : phase.occupied ≤ u.phase.occupied) : Halts m { u with phase := phase } := by
  have same : Miner.begun { u with phase := phase } = u.begun := by
    rw [Miner.begun, Miner.begun, begun, before]
  refine ⟨halts.down, halts.requests, ?_, same ▸ halts.grown, fun many i => ?_⟩
  · exact (Nat.add_le_add_left occupied _).trans halts.batches
  · rw [same, due]
    exact Nat.le_of_add_right_le (halts.calls many i)

theorem Halts.mine (halts : Halts m u) (place : u.phase = .mining tasks w)
    (down : w.sys.shared.shutdown = true) (moves : WatchStep toLowercase tasks w w') :
    Halts m { u with shutdown := w'.sys.shared.shutdown, phase := .mining tasks w' } := by
  have longer : w.begun.length ≤ w'.begun.length := by
    cases moves <;> simp [Watch.enter, Watch.after, Watch.interrupted]
  have here : u.begun = u.batches.flatMap Batch.begun ++ w.begun := by
    rw [Miner.begun, place, Phase.begun]
  refine ⟨moves.shutdown down, halts.requests, ?_, ?_, fun many i => ?_⟩
  · have batches := halts.batches
    rwa [place] at batches
  · have grown := halts.grown
    rw [here] at grown
    simp only [Miner.begun, Phase.begun, List.length_append] at grown ⊢
    omega
  · obtain ⟨more, begun, few⟩ := moves.calls many down
    have late := halts.calls many i
    have own := few i
    have next : Miner.begun { u with shutdown := w'.sys.shared.shutdown
                                     phase := .mining tasks w' } = u.begun ++ more := by
      rw [here, Miner.begun, Phase.begun, begun, List.append_assoc]
    rw [place] at late
    rw [next, late_append _ _ _ halts.grown, List.map_append, List.count_append]
    simp only [Phase.due] at late ⊢
    omega

theorem Halts.step (halts : Halts m u) (ledger : Ledger toLowercase u)
    (step : MinerStep toLowercase u v) : Halts m v := by
  have down := halts.down
  cases step with
  | request place quiet => simp [down] at quiet
  | retry place quiet => simp [down] at quiet
  | pause place short quiet => simp [down] at quiet
  | interrupt quiet alive => simp [down] at quiet
  | reply place result =>
    obtain ⟨begun, occupied, due⟩ := received_idle u result
    exact halts.moved _ (by rw [place]; rfl) begun due (by rw [place]; exact occupied)
  | mine place moves => exact halts.mine place ((ledger.mined _ _ place).1.trans down) moves
  | @finish tasks w place joined =>
    refine ⟨down, halts.requests, ?_, Miner.begun_returned place ▸ halts.grown, fun many i => ?_⟩
    · have batches := halts.batches
      rw [place] at batches
      simpa [Miner.returned, Phase.occupied] using batches
    · rw [Miner.begun_returned place]
      exact Nat.le_of_add_right_le (halts.calls many i)
  | _ place => exact halts.moved _ (by rw [place]; rfl) rfl (fun _ => rfl) (Nat.zero_le _)

/-- After Ctrl-C a session asks for no more tasks and begins no batch but the one that was asked
for. With several backends a call begins only if its backend had passed the check of the flag. -/
theorem session_halts {k j : Nat} (run : Run (MinerStep toLowercase) k (Miner.start n) m)
    (down : m.shutdown = true) (late : Run (MinerStep toLowercase) j m u) : Halts m u := by
  have preserved (s t : Miner n) (kept : Ledger toLowercase s ∧ Halts m s)
      (step : MinerStep toLowercase s t) : Ledger toLowercase t ∧ Halts m t :=
    ⟨kept.1.step s t step, kept.2.step kept.1 step⟩
  have first : Halts m m := by
    refine ⟨down, rfl, Nat.le_refl _, Nat.le_refl _, fun _ i => ?_⟩
    rw [List.drop_length, List.map_nil, List.count_nil, Nat.zero_add]
  exact (late.invariant preserved ⟨ledger_run run, first⟩).2

-- A batch that arrives after Ctrl-C is handed to the workers, and none of them begins a call.
theorem session_halts_example : ∃ m : Miner 2, m.phase = .requesting ∧
    Halts m { m with phase := m.received (.ok [⟨.num 1, "a", 1, 5, 9⟩]) } := by
  have run : Run (MinerStep String.toLower) 2 (Miner.start 2) _ :=
    .tail (.tail (.refl _) (.request rfl rfl)) (.interrupt rfl id)
  exact ⟨_, rfl, session_halts run rfl (.tail (.refl _) (.reply rfl (.ok [⟨.num 1, "a", 1, 5, 9⟩])))⟩

def Watch.rest (tasks : List Task) (w : Watch n) : Nat :=
  2 * w.sys.size tasks + total (fun busy => (!busy).toNat) w.busy

theorem WatchStep.decreases (books : Books toLowercase tasks completed lost w.sys)
    (step : WatchStep toLowercase tasks w w') : w'.rest tasks < w.rest tasks := by
  cases step with
  | call i idx alive entering idle =>
    have change := total_update (fun busy => (!busy).toNat) w.busy i true
    have same : (w.enter i idx).sys.size tasks = w.sys.size tasks := rfl
    simp only [idle, Bool.not_false, Bool.not_true, Bool.toNat_true, Bool.toNat_false] at change
    simp only [Watch.rest, Watch.enter] at same ⊢
    omega
  | worker i s pc alive returned moves =>
    have smaller := books.decreases _ _ (.worker w.sys i s pc alive moves)
    have change := total_update (fun busy => (!busy).toNat) w.busy i false
    simp only [Bool.not_false, Bool.toNat_true] at change
    simp only [Watch.rest, Watch.after]
    omega
  | panic i alive panics => exact absurd panics (books.firm i)
  | interrupt alive quiet =>
    have smaller : w.interrupted.sys.size tasks < w.sys.size tasks :=
      books.decreases _ _ (.interrupt w.sys alive quiet)
    have idle : w.interrupted.busy = w.busy := rfl
    rw [Watch.rest, Watch.rest, idle]
    omega

theorem watch_progress {k : Nat} (run : Run (WatchStep toLowercase tasks) k
    (Watch.start n (.start completed lost)) w) :
    w.sys.Joined ∨ ∃ w', WatchStep toLowercase tasks w w' := by
  obtain ⟨books, alive⟩ := watch_books run
  by_cases done : ∀ i, w.sys.pcs i = .done
  · exact .inl ⟨alive, done⟩
  · right
    obtain ⟨i, active⟩ := not_forall.mp done
    rcases entering_or_returned (w.sys.pcs i) (w.busy i) with ⟨idx, mining, idle⟩ | returned
    · exact ⟨_, .call w i idx alive mining idle⟩
    · obtain ⟨m, projected⟩ := watch_projects run
      obtain ⟨t, next, moves⟩ := LoopStep.exists toLowercase (Books.place projected i) active
      exact ⟨_, .worker w i t next alive returned moves⟩

theorem session_final (ledger : Ledger toLowercase m) (final : Final (MinerStep toLowercase) m) :
    m.phase.Over := by
  cases place : m.phase with
  | head =>
    cases flag : m.shutdown with
    | true => exact (final _ (.leave place flag)).elim
    | false => exact (final _ (.request place flag)).elim
  | requesting => exact (final _ (.reply place (.ok []))).elim
  | mining tasks w =>
    obtain ⟨-, k, run⟩ := ledger.mined tasks w place
    rcases watch_progress run with joined | ⟨w', moves⟩
    · exact (final _ (.finish place joined)).elim
    · exact (final _ (.mine place moves)).elim
  | failed =>
    cases flag : m.shutdown with
    | true => exact (final _ (.giveUp place flag)).elim
    | false => exact (final _ (.retry place flag)).elim
  | sleeping slept =>
    by_cases enough : retryMillis ≤ slept ∨ m.shutdown = true
    · exact (final _ (.awake place enough)).elim
    · obtain ⟨short, up⟩ := not_or.mp enough
      exact (final _ (.pause place (Nat.lt_of_not_le short) (Bool.eq_false_iff.mpr up))).elim
  | ended => trivial
  | exited => trivial

def Phase.distance : Phase n -> Nat × Nat
  | .requesting => (2, 0)
  | .mining tasks w => (1, w.rest tasks)
  | .failed => (0, 2)
  | .sleeping _ => (0, 2)
  | .head => (0, 1)
  | .ended => (0, 0)
  | .exited => (0, 0)

theorem received_distance (m : Miner n) (result : Except ApiError (List Task)) :
    (m.received result).distance.1 < 2 := by
  cases result with
  | error e => cases e <;> exact Nat.zero_lt_two
  | ok served => cases served <;> simp [Miner.received, Phase.distance]

theorem MinerStep.approaches (step : MinerStep toLowercase m v) (down : m.shutdown = true)
    (ledger : Ledger toLowercase m) :
    v.shutdown = true ∧ Prod.Lex (· < ·) (· < ·) v.phase.distance m.phase.distance := by
  cases step with
  | request place quiet => simp [down] at quiet
  | retry place quiet => simp [down] at quiet
  | pause place short quiet => simp [down] at quiet
  | interrupt quiet alive => simp [down] at quiet
  | leave place => exact ⟨down, place ▸ .right 0 Nat.zero_lt_one⟩
  | reply place result => exact ⟨down, place ▸ .left _ _ (received_distance m result)⟩
  | giveUp place => exact ⟨down, place ▸ .right 0 Nat.zero_lt_two⟩
  | awake place => exact ⟨down, place ▸ .right 0 (Nat.lt_succ_self 1)⟩
  | @mine tasks w w' place moves =>
    obtain ⟨flag, k, run⟩ := ledger.mined tasks w place
    exact ⟨moves.shutdown (flag.trans down),
      place ▸ .right 1 (moves.decreases (watch_books run).1)⟩
  | finish place joined => exact ⟨down, place ▸ .left _ _ Nat.zero_lt_one⟩

theorem MinerStep.left (step : MinerStep toLowercase m v) (ended : v.phase = .ended) :
    v.shutdown = true := by
  cases step with
  | leave place down => exact down
  | giveUp place down => exact down
  | reply place result =>
    cases result with
    | error e => cases e <;> cases ended
    | ok served => cases served <;> cases ended
  | interrupt quiet alive => rfl
  | _ => cases ended

/-- The loop is left only after Ctrl-C, nothing but its end or an exit stops it, and once the
flag is set no run of the session goes on forever. -/
theorem session_ends {k : Nat} (run : Run (MinerStep toLowercase) k (Miner.start n) m) :
    (m.phase = .ended -> m.shutdown = true) ∧
      (Final (MinerStep toLowercase) m -> m.phase.Over) ∧
      (m.shutdown = true -> ¬ ∃ states : Nat -> Miner n, states 0 = m ∧
        ∀ k, MinerStep toLowercase (states k) (states (k + 1))) := by
  have ledger := ledger_run run
  refine ⟨?_, session_final ledger, fun down => ?_⟩
  · exact run.invariant (fun _ _ _ step ended => step.left ended) fun ended => by cases ended
  · have preserved (s t : Miner n) (kept : Ledger toLowercase s ∧ s.shutdown = true)
        (step : MinerStep toLowercase s t) : Ledger toLowercase t ∧ t.shutdown = true :=
      ⟨kept.1.step s t step, (step.approaches kept.2 kept.1).1⟩
    have founded := (Prod.lex Nat.lt_wfRel Nat.lt_wfRel).wf
    have terminates := Transition.terminates_of_measure founded (fun s : Miner n => s.phase.distance)
      preserved (fun s t kept step => (step.approaches kept.2 kept.1).2) m ⟨ledger, down⟩
    exact terminates.no_endless

theorem session_ends_example : ∃ m : Miner 2, m.phase = .requesting ∧
    ¬ ∃ states : Nat -> Miner 2, states 0 = m ∧
      ∀ k, MinerStep String.toLower (states k) (states (k + 1)) := by
  have run : Run (MinerStep String.toLower) 2 (Miner.start 2) _ :=
    .tail (.tail (.refl _) (.request rfl rfl)) (.interrupt rfl id)
  exact ⟨_, rfl, (session_ends run).2.2 rfl⟩

def Phase.unpaid (shutdown : Bool) : Phase n -> Nat
  | .head => if shutdown then retryMillis else 0
  | .sleeping slept => retryMillis - slept
  | _ => retryMillis

def Paced (m : Miner n) : Prop :=
  retryMillis * m.requests ≤
    pauseMillis * m.pauses + retryMillis * m.batches.length + m.phase.unpaid m.shutdown

theorem Phase.unpaid_le (shutdown : Bool) (phase : Phase n) :
    phase.unpaid shutdown ≤ retryMillis := by
  cases phase with
  | head => cases shutdown <;> simp [Phase.unpaid]
  | sleeping slept => exact Nat.sub_le _ _
  | _ => exact Nat.le_refl _

theorem unpaid_interrupted (shutdown : Bool) (phase : Phase n) :
    phase.unpaid shutdown ≤ phase.interrupted.unpaid true := by
  cases phase with
  | head => exact Phase.unpaid_le shutdown .head
  | _ => exact Nat.le_refl _

theorem Paced.step (m v : Miner n) (paced : Paced m) (step : MinerStep toLowercase m v) :
    Paced v := by
  unfold Paced at paced ⊢
  cases step with
  | leave place down => rwa [place, Phase.unpaid, if_pos down] at paced
  | request place quiet =>
    have free : Phase.unpaid m.shutdown (Phase.head (n := n)) = 0 := by simp [Phase.unpaid, quiet]
    rw [place, free] at paced
    simp only [Phase.unpaid, Nat.mul_add_one]
    omega
  | reply place result =>
    have whole : (m.received result).unpaid m.shutdown = retryMillis := by
      cases result with
      | error e => cases e <;> rfl
      | ok served => cases served <;> rfl
    rw [place] at paced
    rwa [whole]
  | giveUp place down => rwa [place] at paced
  | retry place quiet => rwa [place] at paced
  | pause place short quiet =>
    rw [place] at paced
    simp only [Phase.unpaid, pauseMillis] at paced ⊢
    omega
  | awake place enough =>
    rw [place] at paced
    rcases enough with long | down
    · simp only [Phase.unpaid] at paced ⊢
      omega
    · simp only [Phase.unpaid, if_pos down] at paced ⊢
      omega
  | mine place moves => rwa [place] at paced
  | finish place joined =>
    rw [place] at paced
    simp only [Miner.returned, List.length_append, List.length_singleton, Phase.unpaid,
      Nat.mul_add_one] at paced ⊢
    omega
  | interrupt quiet alive =>
    have grows := unpaid_interrupted m.shutdown m.phase
    simp only [Miner.interrupted]
    omega

/-- Between two requests a session has mined a batch or slept through the whole pause. -/
theorem session_paced {k : Nat} (run : Run (MinerStep toLowercase) k (Miner.start n) m) :
    retryMillis * m.requests ≤ pauseMillis * m.pauses + retryMillis * (m.batches.length + 1) := by
  have paced : Paced m := run.invariant Paced.step (Nat.zero_le _)
  have unpaid := m.phase.unpaid_le m.shutdown
  unfold Paced at paced
  rw [Nat.mul_add_one]
  omega

theorem pauses_run (m : Miner n) (place : m.phase = .sleeping 0) (quiet : m.shutdown = false)
    {pauses : Nat} (few : pauseMillis * pauses ≤ retryMillis) :
    Run (MinerStep toLowercase) pauses m
      { m with phase := .sleeping (pauseMillis * pauses), pauses := m.pauses + pauses } := by
  induction pauses with
  | zero =>
    rw [Nat.mul_zero, ← place]
    exact .refl m
  | succ pauses ih =>
    rw [Nat.mul_add_one] at few
    have short : pauseMillis * pauses < retryMillis := by
      unfold pauseMillis at few ⊢
      omega
    exact .tail (ih (Nat.le_of_lt short)) (.pause rfl short quiet)

theorem retry_run (m : Miner n) (place : m.phase = .head) (quiet : m.shutdown = false) :
    ∃ k v, Run (MinerStep toLowercase) k m v ∧ v.requests = m.requests + 2 ∧
      v.pauses = m.pauses + 30 ∧ v.batches = m.batches := by
  let failed : Miner n := { m with phase := .failed, requests := m.requests + 1 }
  let sleeping : Miner n := { failed with phase := .sleeping 0 }
  let slept : Miner n := { sleeping with phase := .sleeping retryMillis, pauses := m.pauses + 30 }
  have asked : Run (MinerStep toLowercase) 2 m failed :=
    .tail (.tail (.refl m) (.request place quiet)) (.reply rfl (.error (.other "Request failed")))
  have paused : Run (MinerStep toLowercase) 30 sleeping slept :=
    pauses_run sleeping rfl quiet (Nat.le_refl _)
  have again : Run (MinerStep toLowercase) 2 slept _ :=
    .tail (.tail (.refl slept) (.awake rfl (.inl (Nat.le_refl _)))) (.request rfl quiet)
  exact ⟨_, _, ((asked.tail (.retry rfl quiet)).append paused).append again, rfl, rfl, rfl⟩

-- A batch, a failed request and a third one: the bound is met exactly.
theorem session_paced_example : ∃ m : Miner 2, m.requests = 3 ∧ m.pauses = 30 ∧
    m.batches.length = 1 ∧
    retryMillis * m.requests ≤ pauseMillis * m.pauses + retryMillis * (m.batches.length + 1) := by
  obtain ⟨found, after, ran, -⟩ := mineTasks_answering String.toLower
    [⟨.num 1, "a", 1, 5, 9⟩, ⟨.num 2, "b", 1, 0, 3⟩] 0 0 fun _ => .silent
  obtain ⟨k, m, run, place, quiet, requests, pauses, b, batches, -⟩ :=
    first_batch (List.cons_ne_nil _ _) ran
  obtain ⟨j, v, more, asked, slept, same⟩ := retry_run m place quiet
  refine ⟨v, by rw [asked, requests], by rw [slept, pauses], by rw [same, batches]; rfl, ?_⟩
  exact session_paced (run.append more)

end

end ScamMiner.Orchestrator
