import ScamMiner.Backend.Calls
import ScamMiner.Gpu.Earliest

set_option autoImplicit false

namespace ScamMiner

open Transition (Run)
open Gpu (Device Dialect gpuMine)

def Task.size (task : Task) : Nat :=
  task.nonceEnd.toNat + 1 - task.nonceStart.toNat

/-- `count` nonces are too many for no task, and all there are when the call ends in vain. -/
structure Task.Counts (task : Task) (interrupted : Bool) (result : Option Solution)
    (count : Nat) : Prop where
  most : count ≤ task.size
  vain : interrupted = false -> result = none -> count = task.size

theorem Cpu.ScanKept.few {start end_ : UInt64} {cores : Nat} {sys : Cpu.Sys cores}
    (kept : Cpu.ScanKept start end_ sys) : sys.hashed.length ≤ end_.toNat + 1 - start.toNat := by
  let nonces := (sys.hashed.map Prod.fst).map UInt64.toNat
  have distinct : nonces.Nodup := kept.once.map fun _ _ same => UInt64.toNat.inj same
  have inside : nonces.toFinset ⊆ Finset.Icc start.toNat end_.toNat := by
    intro n member
    simp only [nonces, List.mem_toFinset, List.map_map, List.mem_map, Function.comp_apply] at member
    obtain ⟨entry, hashed, rfl⟩ := member
    obtain ⟨above, below, -⟩ := kept.canonical entry hashed
    exact Finset.mem_Icc.mpr
      ⟨UInt64.le_iff_toNat_le.mp above, UInt64.le_iff_toNat_le.mp below⟩
  have count := Finset.card_le_card inside
  rw [List.toFinset_card_of_nodup distinct, Nat.card_Icc] at count
  simpa only [nonces, List.length_map] using count

section
variable {task : Task} {cores : Nat}

theorem Task.InRange.size (range : task.InRange cores) (ordered : task.nonceStart ≤ task.nonceEnd) :
    task.nonceEnd - task.nonceStart + 1 = UInt64.ofNat task.size := by
  have low := UInt64.le_iff_toNat_le.mp ordered
  have fits := range.fits
  apply UInt64.toNat.inj
  rw [UInt64.toNat_add, UInt64.toNat_sub_of_le _ _ ordered, UInt64.toNat_ofNat', Task.size,
    Nat.sub_add_comm low]
  rfl

theorem Task.size_reversed (reversed : task.nonceEnd < task.nonceStart) : task.size = 0 :=
  Nat.sub_eq_zero_of_le (UInt64.lt_iff_toNat_lt.mp reversed)

theorem cpu_counts (positive : 1 ≤ cores) (range : task.InRange cores) {counter : UInt64}
    {early : Bool} {k : Nat} {sys : Cpu.Sys cores}
    (run : Run (Cpu.AlignedStep task.prefixBytes (.real task)) k
      (.enter (.real task) cores counter early) sys) (joined : sys.Joined) :
    ∃ count, task.Counts sys.shared.shutdown (sys.solution task) count ∧
      sys.shared.counter = counter + UInt64.ofNat count := by
  rcases Cpu.aligned_cases positive range run with ⟨reversed, idle⟩ | ⟨ordered, kept, finished⟩
  · refine ⟨0, ⟨Nat.zero_le _, fun _ _ => (Task.size_reversed reversed).symm⟩, ?_⟩
    rw [idle.counter]
    exact (UInt64.add_zero counter).symm
  have scanned := finished joined
  by_cases vain : sys.shared.shutdown = false ∧ sys.solution task = none
  · refine ⟨task.size, ⟨Nat.le_refl _, fun _ _ => rfl⟩, ?_⟩
    rw [← range.size ordered]
    exact (scanned.complete vain.1 (Option.map_eq_none_iff.mp vain.2)).2
  · exact ⟨_, ⟨kept.few, fun quiet none => absurd ⟨quiet, none⟩ vain⟩, scanned.counted⟩

theorem gpu_counts (dialect : Dialect) {spurious : Bool} (range : task.InRange cores) {s t : Device}
    {result : Option Solution}
    (ran : gpuMine Fips180.compress .none spurious dialect task s (some result) t) :
    ∃ count, task.Counts false result count ∧ t.counter = s.counter + UInt64.ofNat count := by
  by_cases reversed : task.nonceEnd < task.nonceStart
  · obtain ⟨-, rfl⟩ := Gpu.gpuMine_reversed reversed s _ _ ran
    refine ⟨0, ⟨Nat.zero_le _, fun _ _ => (Task.size_reversed reversed).symm⟩, ?_⟩
    exact (UInt64.add_zero _).symm
  have ordered := UInt64.not_lt.mp reversed
  obtain ⟨found, advanced, same⟩ := Gpu.gpuMine_advances ordered s _ _ ran
  cases found with
  | none =>
    refine ⟨task.size, ⟨Nat.le_refl _, fun _ _ => rfl⟩, ?_⟩
    rw [← range.size ordered]
    exact advanced.miss rfl
  | some nonce =>
    obtain ⟨ls, d, -, answers, counted⟩ := advanced.hit nonce rfl
    refine ⟨_, ⟨?_, fun _ nothing => ?_⟩, counted⟩
    · have inside := answers.inside
      have first := answers.above
      unfold Task.size
      omega
    · subst nothing
      simp at same

end

end ScamMiner
