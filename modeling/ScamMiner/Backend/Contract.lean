import ScamMiner.Cpu.Backend
import ScamMiner.Gpu.Session
import ScamMiner.Gpu.Steps

set_option autoImplicit false

namespace ScamMiner

open Fips180 (State Block)
open Transition (Run Final)
open Cpu (Job Sys Step CpuBackend)
open Gpu

/-- `finish_raw` returns the FIPS 180-4 digest: the tail fills no block, and no gap is stale. -/
def Aligned (message : List UInt8) (nonce : UInt64) : Prop :=
  (message ++ Decimal.text nonce.toNat).length % 64 ≠ 0 ∧
    ¬ Midstate.StaleGap message (Decimal.text nonce.toNat)

theorem finishRaw_aligned (message : List UInt8) (nonce : UInt64) (aligned : Aligned message nonce) :
    (Midstate.absorbed Fips180.compress IV message).finishRaw Fips180.compress
        (Decimal.text nonce.toNat) =
      some (Fips180.digestState Fips180.compress Fips180.initialState
        (message ++ Decimal.text nonce.toNat)) := by
  rw [Midstate.finishRaw_absorbed, if_neg fun both => aligned.1 both.2,
    (Midstate.finishBlocks_correct _ _).mpr aligned.2]
  rfl

def Task.hashText (task : Task) (nonce : UInt64) : String :=
  hexLower (Fips180.sha256 (task.prefixBytes ++ Decimal.text nonce.toNat))

def Task.Solves (task : Task) (nonce : UInt64) : Prop :=
  ZeroHex (task.hashText nonce) task.difficulty.toNat

structure Task.Answers (task : Task) (result : Option Solution) : Prop where
  sound : ∀ solution, result = some solution -> solution.taskId = task.id ∧
    task.nonceStart ≤ solution.nonce ∧ solution.nonce ≤ task.nonceEnd ∧
    solution.hash = task.hashText solution.nonce ∧ ZeroHex solution.hash task.difficulty.toNat
  complete : result = none -> ∀ nonce, task.nonceStart ≤ nonce -> nonce ≤ task.nonceEnd ->
    ¬ task.Solves nonce

def Task.Solvable (task : Task) : Prop :=
  ∃ nonce, task.nonceStart ≤ nonce ∧ nonce ≤ task.nonceEnd ∧ task.Solves nonce

structure Task.Valid (task : Task) (sol : Solution) : Prop where
  taskId : sol.taskId = task.id
  above : task.nonceStart ≤ sol.nonce
  below : sol.nonce ≤ task.nonceEnd
  hash : sol.hash = task.hashText sol.nonce
  leading : ZeroHex sol.hash task.difficulty.toNat

theorem Task.Answers.valid {task : Task} {sol : Solution} (answers : task.Answers (some sol)) :
    task.Valid sol := by
  obtain ⟨taskId, above, below, hash, leading⟩ := answers.sound sol rfl
  exact ⟨taskId, above, below, hash, leading⟩

theorem Task.Valid.answers {task : Task} {sol : Solution} (valid : task.Valid sol) :
    task.Answers (some sol) := by
  refine ⟨?_, by simp⟩
  rintro _ ⟨⟩
  exact ⟨valid.taskId, valid.above, valid.below, valid.hash, valid.leading⟩

theorem Task.Valid.solvable {task : Task} {sol : Solution} (valid : task.Valid sol) :
    task.Solvable :=
  ⟨sol.nonce, valid.above, valid.below, by
    rw [Task.Solves, ← valid.hash]
    exact valid.leading⟩

theorem Task.Answers.unsolvable {task : Task} (answers : task.Answers none) : ¬ task.Solvable := by
  rintro ⟨nonce, above, below, solves⟩
  exact answers.complete rfl nonce above below solves

theorem Task.answers_unsolvable {task : Task} (unsolvable : ¬ task.Solvable) : task.Answers none :=
  ⟨by simp, fun _ nonce above below solves => unsolvable ⟨nonce, above, below, solves⟩⟩

def Cpu.Hashes {cores : Nat} (job : Job) (s t : Sys cores) (nonce : UInt64) : Prop :=
  ∃ i base hi, (s.workers i).pc = .scan base hi nonce ∧
    ((∃ e, Cpu.workerStep job s.shared (s.workers i) = some e ∧ t = s.after i e) ∨
      Cpu.workerStep job s.shared (s.workers i) = none ∧ t = s.abort)

def Cpu.AlignedStep {cores : Nat} (message : List UInt8) (job : Job) (s t : Sys cores) : Prop :=
  Step job s t ∧ ∀ nonce, Cpu.Hashes job s t nonce -> Aligned message nonce

-- The host hashes one message, that of the nonce it has read back.
def Gpu.AlignedStep (dialect : Dialect) (task : Task) : GpuCall -> GpuCall -> Prop :=
  FitStep Fips180.compress false dialect task (Aligned task.prefixBytes)

structure CpuContract (task : Task) (backend : CpuBackend) (counter : UInt64) (job : Job)
    (step : Sys backend.cores -> Sys backend.cores -> Prop) : Prop where
  finishes : ∃ bound, ∀ n sys, Run step n (Sys.enter job backend.cores counter false) sys ->
    n ≤ bound ∧ (Final (Cpu.QuietStep job) sys -> sys.Joined)
  alive : ∀ n sys, Run step n (Sys.enter job backend.cores counter false) sys ->
    sys.aborted = false
  answers : ∀ n sys, Run step n (Sys.enter job backend.cores counter false) sys -> sys.Joined ->
    sys.shared.shutdown = false -> task.Answers (sys.solution task)

structure GpuContract (dialect : Dialect) (task : Task) (s : Device)
    (step : GpuCall -> GpuCall -> Prop) : Prop where
  outcomes : ∀ o t, gpuMine Fips180.compress .none false dialect task s o t ↔
    ∃ n, Run (CallStep Fips180.compress false dialect task) n ⟨.enter, s⟩ ⟨.done o, t⟩
  finishes : ∃ bound, ∀ n x, Run step n ⟨.enter, s⟩ x -> n ≤ bound ∧
    (Final (CallStep Fips180.compress false dialect task) x -> ∃ o, x.pc = .done o)
  alive : ∀ n x, Run step n ⟨.enter, s⟩ x -> x.pc ≠ .done none
  answers : ∀ n x result, Run step n ⟨.enter, s⟩ x -> x.pc = .done (some result) ->
    task.Answers result

structure Task.InRange (task : Task) (cores : Nat) : Prop where
  fits : task.nonceEnd.toNat + 256 * (cores + 1) ≤ 2 ^ 64 - 1
  small : task.difficulty.toNat ≤ 32

theorem Task.InRange.few {task : Task} {cores few : Nat} (range : task.InRange cores)
    (less : few ≤ cores) : task.InRange few :=
  ⟨(Nat.add_le_add_left (Nat.mul_le_mul_left 256 (Nat.add_le_add_right less 1)) _).trans range.fits,
    range.small⟩

section
variable (task : Task)

def Cpu.Job.ideal : Job :=
  Job.total task.nonceStart task.nonceEnd task.difficulty fun digits =>
    Fips180.digestState Fips180.compress Fips180.initialState (task.prefixBytes ++ digits)

def Cpu.Job.real : Job :=
  { Job.ideal task with
    hash := (Midstate.absorbed Fips180.compress IV task.prefixBytes).finishRaw Fips180.compress }

theorem Cpu.Job.ofTask_real : Job.ofTask Fips180.compress task = some (Job.real task) :=
  Job.ofTask_correct Fips180.compress task

variable {task} {cores : Nat} {dialect : Dialect} {counter : UInt64} {early : Bool} {n : Nat}
  {sys : Sys cores}

theorem Cpu.AlignedStep.ideal {plan : Cpu.ClaimPlan (Job.ideal task) cores} {s t : Sys cores}
    (inv : Cpu.Inv (Job.ideal task) plan s)
    (step : Cpu.AlignedStep task.prefixBytes (Job.real task) s t) : Step (Job.ideal task) s t := by
  obtain ⟨step, aligned⟩ := step
  -- a worker that scans is the one the step hashes with
  have agree (i : Fin cores) (hashes : ∀ base hi nonce, (s.workers i).pc = .scan base hi nonce ->
      Cpu.Hashes (Job.real task) s t nonce) :
      Cpu.workerStep (Job.real task) s.shared (s.workers i) =
        Cpu.workerStep (Job.ideal task) s.shared (s.workers i) := by
    refine Cpu.workerStep_hash (inv.workers i) _ s.shared fun base hi nonce pc => ?_
    exact finishRaw_aligned _ nonce (aligned nonce (hashes base hi nonce pc))
  cases step with
  | worker i e alive active moves =>
    refine .worker s i e alive active ?_
    rw [← agree i fun base hi nonce pc => ⟨i, base, hi, pc, .inl ⟨e, moves, rfl⟩⟩]
    exact moves
  | panic i alive active panics =>
    refine .panic s i alive active ?_
    rw [← agree i fun base hi nonce pc => ⟨i, base, hi, pc, .inr ⟨panics, rfl⟩⟩]
    exact panics
  | interrupt alive quiet => exact .interrupt s alive quiet

theorem Cpu.aligned_run (plan : Cpu.ClaimPlan (Job.ideal task) cores)
    (run : Run (Cpu.AlignedStep task.prefixBytes (Job.real task)) n
      (Sys.start (Job.real task) cores counter early) sys) :
    Run (Step (Job.ideal task)) n (Sys.start (Job.ideal task) cores counter early) sys := by
  generalize first : Sys.start (Job.real task) cores counter early = start at run
  induction run with
  | refl =>
    subst first
    exact .refl _
  | tail _ last ih =>
    have ideal := ih first
    exact .tail ideal (last.ideal (Cpu.run_inv plan ideal))

structure Task.Replies (task : Task) (interrupted : Bool) (result : Option Solution) : Prop where
  valid : ∀ sol, result = some sol -> task.Valid sol
  vain : interrupted = false -> result = none -> ¬ task.Solvable

theorem Task.Replies.answers {result : Option Solution} (replies : task.Replies false result) :
    task.Answers result := by
  cases result with
  | none => exact Task.answers_unsolvable (replies.vain rfl rfl)
  | some sol => exact (replies.valid sol rfl).answers

theorem Task.Answers.replies {result : Option Solution} (answers : task.Answers result)
    (interrupted : Bool) : task.Replies interrupted result := by
  cases result with
  | none => exact ⟨by simp, fun _ _ => answers.unsolvable⟩
  | some sol => exact ⟨fun _ same => Option.some.inj same ▸ answers.valid, by simp⟩

theorem Cpu.straight_range (positive : 1 ≤ cores) (range : task.InRange cores)
    (ordered : task.nonceStart ≤ task.nonceEnd) :
    task.nonceStart.toNat + 256 * (Cpu.batches (Job.ideal task) + cores - 1) < 2 ^ 64 :=
  Cpu.straight_fits task.nonceStart task.nonceEnd task.difficulty _ cores positive ordered range.fits

theorem Cpu.aligned_scanned (positive : 1 ≤ cores) (range : task.InRange cores)
    (ordered : task.nonceStart ≤ task.nonceEnd)
    (run : Run (Cpu.AlignedStep task.prefixBytes (Job.real task)) n
      (Sys.start (Job.real task) cores counter early) sys) :
    Cpu.ScanKept task.nonceStart task.nonceEnd sys ∧
      (sys.Joined -> Cpu.ScanResult task.nonceStart task.nonceEnd task.difficulty
        (fun digits => Fips180.digestState Fips180.compress Fips180.initialState
          (task.prefixBytes ++ digits)) counter sys) := by
  have straight := Cpu.straight_range positive range ordered
  let plan : Cpu.ClaimPlan (Job.ideal task) cores :=
    .straight _ _ (UInt64.le_iff_toNat_le.mp ordered) straight
  exact Cpu.run_scanned _ _ _ _ positive ordered straight range.small counter early n sys
    (Cpu.aligned_run plan run)

theorem Cpu.aligned_bounded (positive : 1 ≤ cores) (range : task.InRange cores)
    (ordered : task.nonceStart ≤ task.nonceEnd) (counter : UInt64) (early : Bool) :
    ∃ bound, ∀ n sys, Run (Cpu.AlignedStep task.prefixBytes (Job.real task)) n
      (Sys.start (Job.real task) cores counter early) sys -> n ≤ bound := by
  let plan : Cpu.ClaimPlan (Job.ideal task) cores :=
    .straight _ _ (UInt64.le_iff_toNat_le.mp ordered) (Cpu.straight_range positive range ordered)
  exact ⟨_, fun n sys run => Cpu.run_bounded plan (Cpu.aligned_run plan run)⟩

theorem Cpu.aligned_cases (positive : 1 ≤ cores) (range : task.InRange cores)
    (run : Run (Cpu.AlignedStep task.prefixBytes (Job.real task)) n
      (Sys.enter (Job.real task) cores counter early) sys) :
    (task.nonceEnd < task.nonceStart ∧ sys.Idle counter) ∨
      task.nonceStart ≤ task.nonceEnd ∧ Cpu.ScanKept task.nonceStart task.nonceEnd sys ∧
        (sys.Joined -> Cpu.ScanResult task.nonceStart task.nonceEnd task.difficulty
          (fun digits => Fips180.digestState Fips180.compress Fips180.initialState
            (task.prefixBytes ++ digits)) counter sys) := by
  by_cases reversed : task.nonceEnd < task.nonceStart
  · have plain := run.mono fun s t (step : Cpu.AlignedStep task.prefixBytes _ s t) => step.1
    exact .inl ⟨reversed, ((Sys.enter_reversed reversed).run plain).2⟩
  · have ordered := UInt64.not_lt.mp reversed
    rw [Sys.enter_ordered ordered] at run
    exact .inr ⟨ordered, Cpu.aligned_scanned positive range ordered run⟩

theorem Cpu.aligned_replies (positive : 1 ≤ cores) (range : task.InRange cores)
    (run : Run (Cpu.AlignedStep task.prefixBytes (Job.real task)) n
      (Sys.enter (Job.real task) cores counter early) sys) (joined : sys.Joined) :
    task.Replies sys.shared.shutdown (sys.solution task) := by
  rcases Cpu.aligned_cases positive range run with ⟨reversed, idle⟩ | ⟨-, -, finished⟩
  · refine ⟨fun sol solved => ?_, fun _ _ => ?_⟩
    · simp [Sys.solution, idle.found] at solved
    · rintro ⟨nonce, above, below, -⟩
      exact absurd reversed (UInt64.not_lt.mpr (UInt64.le_trans above below))
  · have scanned := finished joined
    refine ⟨fun sol solved => ?_, fun quiet unsolved => ?_⟩
    · obtain ⟨⟨nonce, hash⟩, found, rfl⟩ := Option.map_eq_some_iff.mp solved
      obtain ⟨above, below, rfl, wins⟩ := scanned.sound nonce hash found
      exact ⟨rfl, above, below, rfl, wins⟩
    · rintro ⟨nonce, above, below, solves⟩
      have all := (scanned.complete quiet (Option.map_eq_none_iff.mp unsolved)).1
      exact (all nonce above below).2 solves

theorem cpu_contract (task : Task) (backend : CpuBackend) (range : task.InRange backend.cores)
    (counter : UInt64) : CpuContract task backend counter (Job.real task)
      (Cpu.AlignedStep task.prefixBytes (Job.real task)) := by
  have alive (n : Nat) (sys : Sys backend.cores)
      (run : Run (Cpu.AlignedStep task.prefixBytes (Job.real task)) n
        (Sys.enter (Job.real task) backend.cores counter false) sys) : sys.aborted = false := by
    rcases Cpu.aligned_cases backend.positive range run with ⟨-, idle⟩ | ⟨-, kept, -⟩
    · exact idle.joined.1
    · exact kept.alive
  have joins (n : Nat) (sys : Sys backend.cores)
      (run : Run (Cpu.AlignedStep task.prefixBytes (Job.real task)) n
        (Sys.enter (Job.real task) backend.cores counter false) sys)
      (final : Final (Cpu.QuietStep (Job.real task)) sys) : sys.Joined :=
    (Cpu.joined_of_final final).resolve_left (by simp [alive n sys run])
  refine ⟨?_, alive, fun n sys run joined quiet => ?_⟩
  · by_cases reversed : task.nonceEnd < task.nonceStart
    · refine ⟨1, fun n sys run => ⟨?_, joins n sys run⟩⟩
      exact ((Sys.enter_reversed reversed).run (run.mono fun _ _ step => step.1)).1
    · have ordered := UInt64.not_lt.mp reversed
      have entered : Sys.enter (Job.real task) backend.cores counter false = .start _ _ _ _ :=
        Sys.enter_ordered ordered
      obtain ⟨bound, bounded⟩ := Cpu.aligned_bounded backend.positive range ordered counter false
      refine ⟨bound, fun n sys run => ⟨?_, joins n sys run⟩⟩
      exact bounded n sys (entered ▸ run)
  · have replies := Cpu.aligned_replies backend.positive range run joined
    exact (quiet ▸ replies).answers

theorem Gpu.ThreadRuns.matched_iff {nonce : UInt64} {numBlocks : UInt32} {v : Verdict}
    (runs : ThreadRuns Fips180.compress task.prefixBytes nonce task.difficulty numBlocks v)
    (small : task.difficulty.toNat ≤ 32) : v.matched = true ↔ task.Solves nonce := by
  rw [runs.refines.matched (by omega), Task.Solves, Task.hashText, Fips180.sha256,
    digest_bits _ _ (by omega)]
  exact (zeroHex_state _ _ (by omega)).symm

theorem Gpu.Justified.solves {spurious : Bool} {ls : List Launch} {nonce : UInt64}
    (justified : Justified dialect spurious Fips180.compress task ls nonce)
    (small : task.difficulty.toNat ≤ 32) : task.Solves nonce := by
  obtain ⟨l, -, d, idx, launched, inside, ⟨uninit, v, ran, matched, -⟩, own⟩ := justified
  rcases threads_run launched.ok launched.data dialect uninit idx with
    ⟨-, early⟩ | ⟨-, v', done, runs⟩
  · simp [early] at ran
  · obtain rfl : v' = v := by simpa [done] using ran
    rw [own]
    exact (runs.matched_iff small).mp matched

theorem Gpu.Called.unsolvable {s t : Device} {ls : List Launch}
    (called : Called dialect .none false Fips180.compress task s t ls none)
    (range : task.InRange cores) : ¬ task.Solvable := by
  rintro ⟨nonce, above, below, solves⟩
  have fits := range.fits
  have low := UInt64.le_iff_toNat_le.mp above
  have high := UInt64.le_iff_toNat_le.mp below
  have ordered : task.nonceStart ≤ task.nonceEnd := UInt64.le_trans above below
  have counted : task.nonceEnd - task.nonceStart + 1 ≠ 0 := by
    intro zero
    have size := congrArg UInt64.toNat zero
    rw [UInt64.toNat_add, UInt64.toNat_sub_of_le _ _ ordered] at size
    simp only [UInt64.reduceToNat] at size
    omega
  have vain := called.exhausted rfl counted rfl nonce.toNat low high
  obtain ⟨numBlocks, v, runs, poor⟩ := vain.poor (called.clean rfl) nonce rfl
  simp [(runs.matched_iff range.small).mpr solves] at poor

theorem Gpu.Called.valid {spurious : Bool} {s t : Device} {ls : List Launch} {nonce : UInt64}
    (called : Called dialect .none spurious Fips180.compress task s t ls (some nonce))
    (aligned : Aligned task.prefixBytes nonce) (small : task.difficulty.toNat ≤ 32) :
    ∃ sol, makeSolution Fips180.compress task nonce = some sol ∧ task.Valid sol := by
  have justified := called.justified nonce rfl
  refine ⟨_, by rw [makeSolution_correct, finishRaw_aligned _ _ aligned]; rfl, ?_⟩
  exact ⟨rfl, justified.inside.1, justified.inside.2, rfl, justified.solves small⟩

theorem Gpu.aligned_mined {s t : Device} {o : Option (Option Solution)}
    (run : Run (Gpu.AlignedStep dialect task) n ⟨.enter, s⟩ ⟨.done o, t⟩) :
    gpuMine Fips180.compress .none false dialect task s o t :=
  (gpuMine_iff_steps s).mpr ⟨n, run.mono fun _ _ step => step.1⟩

theorem Gpu.aligned_answers (range : task.InRange cores) {s t : Device}
    {o : Option (Option Solution)}
    (run : Run (Gpu.AlignedStep dialect task) n ⟨.enter, s⟩ ⟨.done o, t⟩) :
    ∃ result, o = some result ∧ task.Answers result := by
  obtain ⟨found, u, searched, rfl, closes⟩ := (fitStep_outcomes s).mp ⟨n, run⟩
  have ensured := gpuSearch_ensures (by simp) s found t searched
  rcases found with _ | _ | nonce
  · exact ensured.elim
  · obtain ⟨ls, called⟩ := ensured
    exact ⟨none, closes, Task.answers_unsolvable (called.unsolvable range)⟩
  · obtain ⟨ls, called⟩ := ensured
    obtain ⟨sol, made, valid⟩ := called.valid closes.1 range.small
    exact ⟨some sol, by rw [closes.2, made]; rfl, valid.answers⟩

theorem gpu_contract (dialect : Dialect) (task : Task) (range : task.InRange cores) (s : Device) :
    GpuContract dialect task s (Gpu.AlignedStep dialect task) where
  outcomes _ _ := gpuMine_iff_steps s
  finishes := ⟨_, fun _ _ run =>
    ⟨call_bounded (run.mono fun _ _ step => step.1), CallStep.progress⟩⟩
  alive n x run panicked := by
    obtain ⟨pc, t⟩ := x
    obtain rfl : pc = .done none := panicked
    obtain ⟨result, impossible, -⟩ := Gpu.aligned_answers range run
    cases impossible
  answers n x result run returned := by
    obtain ⟨pc, t⟩ := x
    obtain rfl : pc = .done (some result) := returned
    obtain ⟨own, same, answers⟩ := Gpu.aligned_answers range run
    exact Option.some.inj same ▸ answers

end

/-- Every backend keeps the contract in every run that finishes only aligned messages. -/
theorem mine_contract (task : Task) (backend : CpuBackend)
    (fits : task.nonceEnd.toNat + 256 * (backend.cores + 1) ≤ 2 ^ 64 - 1)
    (small : task.difficulty.toNat ≤ 32) :
    (∃ job, Job.ofTask Fips180.compress task = some job ∧ ∀ counter,
      CpuContract task backend counter job (Cpu.AlignedStep task.prefixBytes job)) ∧
      ∀ dialect s, GpuContract dialect task s (Gpu.AlignedStep dialect task) :=
  ⟨⟨_, Cpu.Job.ofTask_real task, cpu_contract task backend ⟨fits, small⟩⟩,
    fun dialect s => gpu_contract dialect task ⟨fits, small⟩ s⟩

-- A prefix of 63 bytes: the first one-digit nonce fills a block and aborts the process.
theorem mine_aborts : ¬ ∀ (task : Task) (backend : CpuBackend), task.nonceStart ≤ task.nonceEnd ->
    task.nonceEnd.toNat + 256 * (backend.cores + 1) ≤ 2 ^ 64 - 1 -> task.difficulty.toNat ≤ 32 ->
    ∀ job, Job.ofTask Fips180.compress task = some job ->
      ∀ counter, CpuContract task backend counter job (Step job) := by
  intro all
  let task : Task := ⟨.num 1, "abcdefghijklmnopqrstuvwxyzabcdefghijklmnopqrstuv", 0, 0, 0⟩
  have contract := all task ⟨1, Nat.le_refl _⟩ (by decide) (by decide) (by decide) _
    (Cpu.Job.ofTask_real task) 0
  have full : (task.prefixBytes ++ Decimal.text 0).length % 64 = 0 := by decide +kernel
  obtain ⟨n, sys, run, aborted⟩ := Cpu.first_nonce_panics (Job.real task) (by decide) (by decide) (by
    simp only [Cpu.Job.real, Midstate.finishRaw_absorbed]
    exact if_pos ⟨Decimal.text_ne_nil 0, full⟩) 0
  have entered : Sys.enter (Job.real task) 1 0 false = .start _ _ _ _ :=
    Sys.enter_ordered (by decide)
  have alive := contract.alive n sys (entered ▸ run)
  simp [aborted] at alive

theorem mine_contract_example : (∃ job,
    Job.ofTask Fips180.compress ⟨.num 1, "", 1, 5, 900⟩ = some job ∧ ∀ counter,
      CpuContract ⟨.num 1, "", 1, 5, 900⟩ (.new 2) counter job
        (Cpu.AlignedStep (Task.prefixBytes ⟨.num 1, "", 1, 5, 900⟩) job)) ∧
      ∀ dialect s, GpuContract dialect ⟨.num 1, "", 1, 5, 900⟩ s
        (Gpu.AlignedStep dialect ⟨.num 1, "", 1, 5, 900⟩) :=
  mine_contract ⟨.num 1, "", 1, 5, 900⟩ (.new 2) (by decide) (by decide)

end ScamMiner
