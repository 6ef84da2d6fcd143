import ScamMiner.Cpu.Backend
import ScamMiner.Cpu.Wrap
import ScamMiner.Gpu.Session

set_option autoImplicit false

namespace ScamMiner

open Fips180 (State Block)
open Transition (Run Final)
open Cpu (Job Sys Step RangeSafe)
open Gpu

structure CpuRangeKept (job : Job) (cores : Nat) (counter : UInt64) (shutdown : Bool) : Prop where
  inside : ∀ n sys, Run (Step job) n (Sys.start job cores counter shutdown) sys ->
    (∀ entry ∈ sys.hashed, job.start ≤ entry.1 ∧ entry.1 ≤ job.end_) ∧
      ∀ nonce hash, sys.shared.found = some (nonce, hash) -> job.start ≤ nonce ∧ nonce ≤ job.end_
  ends : ∃ bound, ∀ n sys, Run (Step job) n (Sys.start job cores counter shutdown) sys ->
    n ≤ bound ∧ sys.claims ≤ bound ∧
      (Final (Cpu.QuietStep job) sys -> sys.aborted = true ∨ sys.Joined)
  tested : ∀ n sys, Run (Step job) n (Sys.start job cores counter shutdown) sys -> sys.Joined ->
    sys.shared.shutdown = false -> sys.shared.found = none ->
    ∀ nonce, job.start ≤ nonce -> nonce ≤ job.end_ -> ∃ entry ∈ sys.hashed, entry.1 = nonce

-- The device has run all threads of the launch to their end, and one of them hashed the nonce.
def Gpu.Launch.Tests (l : Launch) (dialect : Dialect) (nonce : UInt64) : Prop :=
  ∃ (uninit : Fin l.size -> TailWords) (fails : Fin l.size -> Bool) (k : Nat) (last : Race l.size),
    Run (RaceStep dialect) k (raceStart dialect l.words l.params uninit fails l.before) last ∧
      last.Complete ∧ l.after = last.slot ∧
      ∃ i v, kernelThread dialect (uninit i) l.words l.params (UInt32.ofNat i.val) =
        some (some v) ∧ v.nonce = nonce

def GpuRangeKept (host : State -> Block -> State) (spurious : Bool) (dialect : Dialect)
    (task : Task) (s : Device) : Prop :=
  Proc.Ensures (gpuMine host .none spurious dialect task)
    (fun o t => ∃ ls, t.launches = s.launches ++ ls ∧
      (∀ l ∈ ls, ∀ uninit idx v, kernelThread dialect uninit l.words l.params idx = some (some v) ->
        task.nonceStart ≤ v.nonce ∧ v.nonce ≤ task.nonceEnd) ∧
      (∀ solution, o = some (some solution) ->
        task.nonceStart ≤ solution.nonce ∧ solution.nonce ≤ task.nonceEnd) ∧
      (o = some none -> ∀ nonce, task.nonceStart ≤ nonce -> nonce ≤ task.nonceEnd ->
        ∃ l ∈ ls, l.Tests dialect nonce)) s

theorem cpuRange_kept (job : Job) (cores : Nat) (positive : 1 ≤ cores)
    (ordered : job.start ≤ job.end_) (safe : RangeSafe job.start job.end_ cores) (counter : UInt64)
    (shutdown : Bool) : CpuRangeKept job cores counter shutdown := by
  obtain ⟨plan⟩ := safe.plan (UInt64.le_iff_toNat_le.mp ordered)
  refine ⟨fun n sys run => ?_, ?_, fun n sys run joined quiet nothing nonce above below => ?_⟩
  · have inv := Cpu.run_inv plan run
    refine ⟨fun entry member => ?_, fun nonce hash found => ?_⟩
    · obtain ⟨above, below, -⟩ := inv.logged entry member
      exact ⟨UInt64.le_iff_toNat_le.mpr above, UInt64.le_iff_toNat_le.mpr below⟩
    · obtain ⟨above, below, -⟩ := inv.found nonce hash found
      exact ⟨UInt64.le_iff_toNat_le.mpr above, UInt64.le_iff_toNat_le.mpr below⟩
  · refine ⟨(Sys.start job cores counter shutdown).size plan + plan.limit cores,
      fun n sys run => ?_⟩
    have inv := Cpu.run_inv plan run
    have short := Cpu.run_bounded plan run
    have few := inv.claims_le
    exact ⟨by omega, by omega, Cpu.joined_of_final⟩
  · obtain ⟨entry, member, same⟩ := (Cpu.run_inv plan run).exhausted positive joined quiet nothing
      nonce.toNat (UInt64.le_iff_toNat_le.mp above) (UInt64.le_iff_toNat_le.mp below)
    exact ⟨entry, member, UInt64.toNat.inj same⟩

theorem CpuRangeKept.safe {job : Job} {cores : Nat} {counter : UInt64}
    (kept : CpuRangeKept job cores counter false) (barren : job.Barren) (positive : 1 ≤ cores)
    (ordered : job.start ≤ job.end_) : RangeSafe job.start job.end_ cores := by
  have plain (n : Nat) (sys : Sys cores) (run : Run (fun s t => Step job s t ∧
      t.shared.shutdown = false) n (Sys.start job cores counter false) sys) :
      Run (Step job) n (Sys.start job cores counter false) sys := run.mono fun _ _ step => step.1
  obtain ⟨bound, ends⟩ := kept.ends
  obtain ⟨n, sys, run, final⟩ := Transition.finishes_of_bounded fun n sys run =>
    (ends n sys (plain n sys run)).1
  have adrift := run.invariant (Cpu.Adrift.step barren) (.start job cores counter)
  refine adrift.safe (adrift.joined barren final) positive (UInt64.le_iff_toNat_le.mp ordered) ?_
  rintro n ⟨entry, member, rfl⟩
  exact UInt64.le_iff_toNat_le.mp ((kept.inside _ sys (plain _ sys run)).1 entry member).1

theorem barren_ofTask (host : State -> Block -> State) (start end_ : UInt64) (job : Job)
    (made : Job.ofTask host ⟨.num 1, "", 1000, start, end_⟩ = some job) :
    job.start = start ∧ job.end_ = end_ ∧ job.Barren := by
  rw [Job.ofTask_correct] at made
  obtain rfl := Option.some.inj made
  refine ⟨rfl, rfl, fun nonce => ?_⟩
  have short : (Task.prefixBytes ⟨.num 1, "", 1000, 0, 0⟩).length = 18 := by decide +kernel
  have few := Decimal.digits_length_u64 nonce.toNat nonce.toNat_lt
  have some_digit := Decimal.digits_length_pos nonce.toNat
  simp only [Midstate.finishRaw_absorbed]
  rw [if_neg]
  · exact ⟨_, rfl, checkStateDifficulty_large _ _ (by decide) (by decide)⟩
  · rintro ⟨-, full⟩
    change ((Task.prefixBytes ⟨.num 1, "", 1000, 0, 0⟩) ++ Decimal.text nonce.toNat).length % 64 = 0
      at full
    rw [List.length_append, short, Decimal.text_length] at full
    omega

section
variable {host : State -> Block -> State} {spurious : Bool} {dialect : Dialect} {task : Task}
  {d : Dispatch} {l : Launch}

theorem Gpu.LaunchOf.inside (launched : LaunchOf dialect spurious host task d l) (uninit : TailWords)
    (idx : UInt32) (v : Verdict)
    (ran : kernelThread dialect uninit l.words l.params idx = some (some v)) :
    task.nonceStart ≤ v.nonce ∧ v.nonce ≤ task.nonceEnd := by
  have low := launched.low
  have high := launched.high
  rcases threads_run launched.ok launched.data dialect uninit idx with
    ⟨-, early⟩ | ⟨inside, v', done, runs⟩
  · simp [early] at ran
  · obtain rfl : v' = v := by simpa [done] using ran
    have less := UInt32.lt_iff_toNat_lt.mp inside
    rw [runs.own, UInt64.le_iff_toNat_le, UInt64.le_iff_toNat_le,
      launched.ok.nonce_toNat idx inside]
    omega

theorem Gpu.SearchedInVain.tests {ls : List Launch} (nonce : UInt64)
    (searched : SearchedInVain dialect spurious host task ls nonce.toNat) :
    ∃ l ∈ ls, l.Tests dialect nonce := by
  obtain ⟨l, member, d, launched, low, high, -⟩ := searched
  obtain ⟨idx, inside, own⟩ := launched.ok.index nonce low high
  obtain ⟨uninit, fails, k, last, -, run, complete, after⟩ := launched.ran.race launched.ok launched.data
  have below := UInt32.lt_iff_toNat_lt.mp inside
  -- the grid is rounded up, so the thread of this index was started
  let i : Fin l.size := ⟨idx.toNat, by rw [launched.size, globalSize]; omega⟩
  have index : UInt32.ofNat i.val = idx := UInt32.ofNat_toNat
  refine ⟨l, member, uninit, fails, k, last, run, complete, after, i, ?_⟩
  rw [index]
  rcases threads_run launched.ok launched.data dialect (uninit i) idx with
    ⟨beyond, -⟩ | ⟨-, v, done, runs⟩
  · rw [UInt32.le_iff_toNat_le] at beyond
    omega
  · exact ⟨v, done, runs.own.trans own⟩

end

theorem gpuRange_kept_iff (host : State -> Block -> State) (spurious : Bool) (dialect : Dialect)
    (task : Task) (ordered : task.nonceStart ≤ task.nonceEnd) (s : Device) :
    GpuRangeKept host spurious dialect task s ↔ task.nonceEnd - task.nonceStart + 1 ≠ 0 := by
  constructor
  · intro kept zero
    have idle : gpuMine host .none spurious dialect task s (some none) s := by
      rw [gpuMine_eq]
      unfold mineWith
      by_cases reversed : task.nonceEnd < task.nonceStart
      · simp only [if_pos reversed]
        exact ⟨rfl, rfl⟩
      · simp only [if_neg reversed, if_pos zero]
        exact ⟨rfl, rfl⟩
    obtain ⟨ls, history, -, -, tested⟩ := kept _ s idle
    obtain rfl : ls = [] := by simpa using history
    obtain ⟨l, member, -⟩ := tested rfl task.nonceStart (UInt64.le_refl _) ordered
    simp at member
  · intro counted
    refine (gpuMine_ensures (by simp) s).mono ?_
    rintro o t ⟨ls, found, called, same⟩
    refine ⟨ls, called.history, fun l member uninit idx v ran => ?_, ?_, ?_⟩
    · obtain ⟨d, launched⟩ := called.launched l member
      exact launched.inside uninit idx v ran
    · rintro solution rfl
      obtain ⟨nonce, rfl, rfl⟩ := found_of_solution same
      exact (called.justified _ rfl).inside
    · rintro rfl nonce above below
      cases found with
      | none =>
        exact (called.exhausted rfl counted rfl nonce.toNat (UInt64.le_iff_toNat_le.mp above)
          (UInt64.le_iff_toNat_le.mp below)).tests nonce
      | some wrong => simp at same

/-- The ranges the backends keep for every task: those the wrapping arithmetic does not reach. -/
theorem mine_range_kept (host : State -> Block -> State) (start end_ : UInt64)
    (ordered : start ≤ end_) (cores : Nat) (positive : 1 ≤ cores) :
    ((∀ id data difficulty, ∃ job,
        Job.ofTask host ⟨id, data, difficulty, start, end_⟩ = some job ∧
          ∀ counter shutdown, CpuRangeKept job cores counter shutdown) ↔
      RangeSafe start end_ cores) ∧
    ∀ id data difficulty spurious dialect s,
      GpuRangeKept host spurious dialect ⟨id, data, difficulty, start, end_⟩ s ↔
        ¬ (start = 0 ∧ end_ = 0xffffffffffffffff) := by
  refine ⟨⟨fun all => ?_, fun safe id data difficulty => ?_⟩,
    fun id data difficulty spurious dialect s => ?_⟩
  · obtain ⟨job, made, kept⟩ := all (.num 1) "" 1000
    obtain ⟨rfl, rfl, barren⟩ := barren_ofTask host start end_ job made
    exact (kept 0 false).safe barren positive ordered
  · exact ⟨_, Job.ofTask_correct host _, fun counter shutdown =>
      cpuRange_kept _ cores positive ordered safe counter shutdown⟩
  · have low := UInt64.le_iff_toNat_le.mp ordered
    have bound := end_.toNat_lt
    rw [gpuRange_kept_iff host spurious dialect _ ordered s, ne_eq, not_iff_not,
      ← UInt64.toNat_inj, ← UInt64.toNat_inj, ← UInt64.toNat_inj, UInt64.toNat_add,
      UInt64.toNat_sub_of_le _ _ ordered]
    simp only [UInt64.reduceToNat]
    omega

-- The last nonce of all on one CPU worker, and the full range on a GPU.
theorem mine_range_lost :
    (¬ ∀ job, Job.ofTask Fips180.compress
      ⟨.num 1, "", 1, 0xffffffffffffffff, 0xffffffffffffffff⟩ = some job ->
        CpuRangeKept job 1 0 false) ∧
    ¬ GpuRangeKept Fips180.compress false .opencl ⟨.num 1, "", 1, 0, 0xffffffffffffffff⟩ .blank := by
  constructor
  · intro all
    let task : Task := ⟨.num 1, "", 1, 0xffffffffffffffff, 0xffffffffffffffff⟩
    let job : Job :=
      { start := task.nonceStart, end_ := task.nonceEnd, diff := task.difficulty
        hash := (Midstate.absorbed Fips180.compress IV task.prefixBytes).finishRaw Fips180.compress }
    have kept : CpuRangeKept job 1 0 false := all job (Job.ofTask_correct _ task)
    have clear : (task.prefixBytes ++ Decimal.text 255).length % 64 ≠ 0 := by decide +kernel
    have defined : (job.hash (Decimal.text 255)).isSome = true := by
      simp only [job]
      rw [Midstate.finishRaw_absorbed, if_neg fun both => clear both.2]
      rfl
    obtain ⟨n, sys, run, entry, member, outside⟩ := Cpu.last_nonce_skipped job rfl rfl defined 0
    have inside := ((kept.inside n sys run).1 entry member).1
    rw [outside] at inside
    exact absurd inside (by decide : ¬ (0xffffffffffffffff : UInt64) ≤ 255)
  · rw [gpuRange_kept_iff _ _ _ _ (by decide)]
    decide

theorem mine_range_kept_example : ∃ job,
    Job.ofTask Fips180.compress ⟨.num 1, "", 1, 5, 900⟩ = some job ∧ CpuRangeKept job 2 0 false ∧
      GpuRangeKept Fips180.compress false .hip ⟨.num 1, "", 1, 5, 900⟩ .blank := by
  obtain ⟨cpu, gpu⟩ := mine_range_kept Fips180.compress 5 900 (by decide) 2 (by decide)
  obtain ⟨job, made, kept⟩ := cpu.mpr (.inl (by decide)) (.num 1) "" 1
  exact ⟨job, made, kept 0 false, (gpu (.num 1) "" 1 false .hip .blank).mpr (by decide)⟩

end ScamMiner
