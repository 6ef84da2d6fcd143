import ScamMiner.Backend.Counts

set_option autoImplicit false

namespace ScamMiner

open Transition (Run)
open Cpu (Job)
open Gpu (Device gpuMine)

-- With ten million nonces, which are meant not to be solvable.
def benchTask : Task :=
  { id := .num 0
    data := "benchmark_payload"
    difficulty := 20
    nonceStart := 0
    nonceEnd := 10000000 - 1 }

/-- A call takes the counter from `c` to `c'`. Nobody sets `SHUTDOWN`, and no device call fails. -/
def Backend.Benches (spurious : Bool) (b : Backend) (c : UInt64) (result : Option Solution)
    (c' : UInt64) : Prop :=
  match b with
  | .cpu backend => ∃ job k sys, Job.ofTask Fips180.compress benchTask = some job ∧
      Run (Cpu.Step job) k (.enter job backend.cores c false) sys ∧ sys.Joined ∧
      sys.shared.shutdown = false ∧ result = sys.solution benchTask ∧ c' = sys.shared.counter
  | .gpu dialect _ => ∃ s t : Device, s.counter = c ∧ t.counter = c' ∧
      gpuMine Fips180.compress .none spurious dialect benchTask s (some result) t

-- The loop; the deadline may pass before any call.
inductive Benched (spurious : Bool) (b : Backend) :
    List (Option Solution) -> UInt64 -> UInt64 -> Prop
  | deadline (c : UInt64) : Benched spurious b [] c c
  | call {result : Option Solution} {results : List (Option Solution)} {c c' c'' : UInt64}
      (first : b.Benches spurious c result c') (rest : Benched spurious b results c' c'') :
    Benched spurious b (result :: results) c c''

theorem benchTask_size : benchTask.size = 10000000 := by
  decide

theorem benchTask_short : benchTask.prefixBytes.length ≤ 35 := by
  decide +kernel

theorem benchTask_inRange {cores : Nat} (few : 9999999 + 256 * (cores + 1) ≤ 2 ^ 64 - 1) :
    benchTask.InRange cores where
  fits := few
  small := by decide

section
variable {spurious : Bool} {b : Backend} {c c' : UInt64} {cores : Nat}

theorem benches_counts {result : Option Solution} (within : b.Within cores)
    (few : 9999999 + 256 * (cores + 1) ≤ 2 ^ 64 - 1) (mined : b.Benches spurious c result c') :
    ∃ count, benchTask.Counts false result count ∧ c' = c + UInt64.ofNat count := by
  cases b with
  | cpu backend =>
    obtain ⟨job, k, sys, made, run, joined, quiet, rfl, rfl⟩ := mined
    obtain rfl : job = Job.real benchTask := by
      rw [Cpu.Job.ofTask_real] at made
      exact (Option.some.inj made).symm
    -- 33 bytes of prefix leave no digest to `finish_raw` that it gets wrong
    have aligned : Run (Cpu.AlignedStep benchTask.prefixBytes (Job.real benchTask)) k _ sys :=
      run.mono fun _ _ step => ⟨step, fun nonce _ => aligned_short _ benchTask_short nonce⟩
    have range := (benchTask_inRange few).few within
    have counted := cpu_counts backend.positive range aligned joined
    rwa [quiet] at counted
  | gpu dialect deviceName =>
    obtain ⟨s, t, rfl, rfl, ran⟩ := mined
    exact gpu_counts dialect (benchTask_inRange few) ran

theorem counts_vain {results : List (Option Solution)} {counts : List Nat}
    (all : List.Forall₂ (benchTask.Counts false) results counts)
    (vain : ∀ result ∈ results, result = none) : counts.sum = 10000000 * results.length := by
  induction all with
  | nil => rfl
  | cons own _ ih =>
    have first := own.vain rfl (vain _ List.mem_cons_self)
    have rest := ih fun result member => vain result (List.mem_cons_of_mem _ member)
    rw [List.sum_cons, List.length_cons, rest, first, benchTask_size]
    omega

/-- The counter that the benchmark reports has grown by one count for each call, of ten million for
every call that came back in vain. -/
theorem benchmark_counts {results : List (Option Solution)} (within : b.Within cores)
    (few : 9999999 + 256 * (cores + 1) ≤ 2 ^ 64 - 1) (run : Benched spurious b results c c') :
    (∃ counts, List.Forall₂ (benchTask.Counts false) results counts ∧
        c' = c + UInt64.ofNat counts.sum) ∧
      ((∀ result ∈ results, result = none) ->
        c' = c + UInt64.ofNat (10000000 * results.length)) := by
  have counted : ∃ counts, List.Forall₂ (benchTask.Counts false) results counts ∧
      c' = c + UInt64.ofNat counts.sum := by
    induction run with
    | deadline c => exact ⟨[], .nil, by simp⟩
    | call first _ ih =>
      obtain ⟨count, one, own⟩ := benches_counts within few first
      obtain ⟨counts, all, later⟩ := ih
      refine ⟨count :: counts, .cons one all, ?_⟩
      rw [later, own, List.sum_cons, UInt64.ofNat_add, UInt64.add_assoc]
  obtain ⟨counts, all, sum⟩ := counted
  refine ⟨⟨counts, all, sum⟩, fun vain => ?_⟩
  rw [sum, counts_vain all vain]

theorem benches_returns (b : Backend) (within : b.Within cores)
    (few : 9999999 + 256 * (cores + 1) ≤ 2 ^ 64 - 1) (c : UInt64) :
    ∃ result c', b.Benches false c result c' := by
  have range := benchTask_inRange few
  cases b with
  | cpu backend =>
    obtain ⟨k, sys, run, joined, quiet⟩ :=
      Cpu.short_returns backend (range.few within) benchTask_short c
    exact ⟨_, _, _, k, sys, Cpu.Job.ofTask_real benchTask, run.mono fun _ _ step => step.1, joined,
      quiet, rfl, rfl⟩
  | gpu dialect deviceName =>
    let s : Device := { Device.blank with counter := c }
    obtain ⟨k, t, result, run⟩ := Gpu.short_returns dialect range benchTask_short s
    exact ⟨result, t.counter, s, t, rfl, rfl, Gpu.aligned_mined run⟩

theorem benched_returns (b : Backend) (within : b.Within cores)
    (few : 9999999 + 256 * (cores + 1) ≤ 2 ^ 64 - 1) (calls : Nat) (c : UInt64) :
    ∃ results c', results.length = calls ∧ Benched false b results c c' := by
  induction calls generalizing c with
  | zero => exact ⟨[], c, rfl, .deadline c⟩
  | succ calls ih =>
    obtain ⟨result, c', first⟩ := benches_returns b within few c
    obtain ⟨results, c'', length, rest⟩ := ih c'
    exact ⟨result :: results, c'', congrArg Nat.succ length, .call first rest⟩

end

theorem benchmark_counts_example : ∃ (results : List (Option Solution)) (c' : UInt64),
    results.length = 3 ∧
    (∃ counts, List.Forall₂ (benchTask.Counts false) results counts ∧
      c' = 0 + UInt64.ofNat counts.sum) ∧
    ((∀ own ∈ results, own = none) -> c' = 0 + UInt64.ofNat (10000000 * results.length)) := by
  have few : 9999999 + 256 * (2 + 1) ≤ 2 ^ 64 - 1 := by decide
  have within : (Backend.cpu (.new 2)).Within 2 := Nat.le_refl 2
  obtain ⟨results, c', three, run⟩ := benched_returns _ within few 3 0
  exact ⟨results, c', three, benchmark_counts within few run⟩

end ScamMiner
