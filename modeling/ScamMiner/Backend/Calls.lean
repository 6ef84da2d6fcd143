import ScamMiner.Backend.Contract

set_option autoImplicit false

namespace ScamMiner

open Transition (Run)
open Cpu (CpuBackend)
open Gpu (Dialect GpuCall)

inductive Backend where
  | cpu (backend : CpuBackend)
  | gpu (dialect : Dialect) (deviceName : String)

def Backend.Within (cores : Nat) : Backend -> Prop
  | .cpu backend => backend.cores ≤ cores
  | .gpu _ _ => True

theorem Backend.Within.mono {b : Backend} {cores most : Nat} (few : cores ≤ most)
    (within : b.Within cores) : b.Within most := by
  cases b with
  | cpu backend => exact Nat.le_trans within few
  | gpu dialect deviceName => trivial

def Backend.State : Backend -> Type
  | .cpu backend => Cpu.Sys backend.cores
  | .gpu _ _ => GpuCall

section
variable (task : Task)

-- No device call fails, no exchange fails spuriously, and `finish_raw` is handed aligned messages.
def Backend.Step : (b : Backend) -> b.State -> b.State -> Prop
  | .cpu _ => Cpu.AlignedStep task.prefixBytes (.real task)
  | .gpu dialect _ => Gpu.AlignedStep dialect task

def Backend.Begins : (b : Backend) -> b.State -> Prop
  | .cpu backend => fun sys => ∃ counter early, sys = .enter (.real task) backend.cores counter early
  | .gpu _ _ => fun call => call.pc = .enter

-- A GPU call never looks at `SHUTDOWN`.
def Backend.Ends (interrupted : Bool) (result : Option Solution) : (b : Backend) -> b.State -> Prop
  | .cpu _ => fun sys => sys.Joined ∧ sys.shared.shutdown = interrupted ∧ sys.solution task = result
  | .gpu _ _ => fun call => interrupted = false ∧ call.pc = .done (some result)

def Backend.Mined (interrupted : Bool) (b : Backend) (result : Option Solution) : Prop :=
  ∃ k s t, b.Begins task s ∧ Run (b.Step task) k s t ∧ b.Ends task interrupted result t

end

section
variable {task : Task} {b : Backend} {cores : Nat} {interrupted : Bool} {result : Option Solution}

theorem Backend.Mined.replies (mined : b.Mined task interrupted result) (within : b.Within cores)
    (range : task.InRange cores) : task.Replies interrupted result := by
  obtain ⟨k, s, t, begins, run, ends⟩ := mined
  cases b with
  | cpu backend =>
    obtain ⟨counter, early, rfl⟩ := begins
    obtain ⟨joined, rfl, rfl⟩ := ends
    exact Cpu.aligned_replies backend.positive (range.few within) run joined
  | gpu dialect deviceName =>
    obtain ⟨pc, device⟩ := s
    obtain rfl : pc = .enter := begins
    have answers := (gpu_contract dialect task range device).answers k t result run ends.2
    exact answers.replies interrupted

theorem aligned_short (message : List UInt8) (short : message.length ≤ 35) (nonce : UInt64) :
    Aligned message nonce := by
  have positive := List.length_pos_iff.mpr (Decimal.text_ne_nil nonce.toNat)
  have digits := Decimal.digits_length_u64 nonce.toNat nonce.toNat_lt
  rw [← Decimal.text_length] at digits
  rw [Aligned, Midstate.StaleGap, List.length_append]
  omega

theorem Cpu.short_returns (backend : CpuBackend) (range : task.InRange backend.cores)
    (short : task.prefixBytes.length ≤ 35) (counter : UInt64) : ∃ k sys,
      Run (Cpu.AlignedStep task.prefixBytes (.real task)) k
        (.enter (.real task) backend.cores counter false) sys ∧
      sys.Joined ∧ sys.shared.shutdown = false := by
  have contract := cpu_contract task backend range counter
  obtain ⟨bound, bounded⟩ := contract.finishes
  let step (s t : Cpu.Sys backend.cores) : Prop :=
    Cpu.AlignedStep task.prefixBytes (.real task) s t ∧ t.shared.shutdown = s.shared.shutdown
  have plain {k : Nat} {sys : Cpu.Sys backend.cores}
      (run : Run step k (.enter (.real task) backend.cores counter false) sys) :
      Run (Cpu.AlignedStep task.prefixBytes (.real task)) k _ sys := run.mono fun _ _ step => step.1
  obtain ⟨k, sys, run, final⟩ :=
    Transition.finishes_of_bounded fun k sys (run : Run step k _ sys) => (bounded k sys (plain run)).1
  have quiet : sys.shared.shutdown = false := by
    refine run.invariant (fun s t (down : s.shared.shutdown = false) step => step.2.trans down) ?_
    rw [Cpu.Sys.enter]
    split <;> rfl
  refine ⟨k, sys, plain run, (bounded k sys (plain run)).2 fun t moves => ?_, quiet⟩
  exact final t ⟨⟨moves.1, fun nonce _ => aligned_short _ short nonce⟩, moves.2⟩

theorem Gpu.short_returns (dialect : Dialect) (range : task.InRange cores)
    (short : task.prefixBytes.length ≤ 35) (s : Gpu.Device) : ∃ k t result,
      Run (Gpu.AlignedStep dialect task) k ⟨.enter, s⟩ ⟨.done (some result), t⟩ := by
  have contract := gpu_contract dialect task range s
  obtain ⟨bound, bounded⟩ := contract.finishes
  obtain ⟨k, ⟨pc, t⟩, run, final⟩ :=
    Transition.finishes_of_bounded fun k x run => (bounded k x run).1
  obtain ⟨o, rfl⟩ := (bounded k _ run).2 fun t step =>
    final t ⟨step, fun nonce _ => aligned_short _ short nonce⟩
  obtain ⟨result, rfl, -⟩ := Gpu.aligned_answers range run
  exact ⟨k, t, result, run⟩

theorem Gpu.short_solved (dialect : Dialect) (range : task.InRange cores)
    (short : task.prefixBytes.length ≤ 35) (solvable : task.Solvable) (s : Gpu.Device) : ∃ sol t,
      Gpu.gpuMine Fips180.compress .none false dialect task s (some (some sol)) t := by
  obtain ⟨k, t, result, run⟩ := Gpu.short_returns dialect range short s
  obtain ⟨own, same, answers⟩ := Gpu.aligned_answers range run
  obtain rfl := Option.some.inj same
  cases result with
  | none => exact (answers.unsolvable solvable).elim
  | some sol => exact ⟨sol, t, Gpu.aligned_mined run⟩

theorem Backend.short_mined (b : Backend) (within : b.Within cores) (range : task.InRange cores)
    (short : task.prefixBytes.length ≤ 35) : ∃ result, b.Mined task false result := by
  cases b with
  | cpu backend =>
    obtain ⟨k, sys, run, joined, quiet⟩ := Cpu.short_returns backend (range.few within) short 0
    exact ⟨_, k, _, sys, ⟨0, false, rfl⟩, run, joined, quiet, rfl⟩
  | gpu dialect deviceName =>
    obtain ⟨k, t, result, run⟩ := Gpu.short_returns dialect range short .blank
    exact ⟨result, k, ⟨.enter, .blank⟩, _, rfl, run, rfl, rfl⟩

end

end ScamMiner
