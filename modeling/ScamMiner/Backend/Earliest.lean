import ScamMiner.Backend.Calls
import ScamMiner.Gpu.Earliest

set_option autoImplicit false

namespace ScamMiner

open Gpu

section
variable {dialect : Dialect} {task : Task}

theorem Gpu.Answers.earliest {ls : List Launch} {d : Dispatch} {nonce : UInt64}
    (answers : Gpu.Answers dialect false Fips180.compress task ls d nonce)
    (clean : ∀ l ∈ ls, l.before.flag = 0) (small : task.difficulty.toNat ≤ 32) {other : UInt64}
    (above : task.nonceStart ≤ other) (solves : task.Solves other) : d.1.toNat ≤ other.toNat := by
  by_contra before
  have vain := answers.vain other.toNat (UInt64.le_iff_toNat_le.mp above) (by omega)
  obtain ⟨numBlocks, v, runs, poor⟩ := vain.poor clean other rfl
  simp [(runs.matched_iff small).mpr solves] at poor

/-- No solution of the range lies a whole dispatch or more before the one that is returned, and the
nonces counted for it stop within a dispatch behind it. -/
theorem gpu_earliest (dialect : Dialect) (task : Task) (small : task.difficulty.toNat ≤ 32)
    (s : Device) :
    Proc.Ensures (gpuMine Fips180.compress .none false dialect task)
      (fun o t => ∀ sol, o = some (some sol) ->
        (∀ nonce, task.nonceStart ≤ nonce -> task.Solves nonce ->
          sol.nonce.toNat < nonce.toNat + 256 * 65535) ∧
        ∃ counted, t.counter = s.counter + UInt64.ofNat counted ∧
          sol.nonce.toNat < task.nonceStart.toNat + counted ∧
          task.nonceStart.toNat + counted ≤ sol.nonce.toNat + 256 * 65535) s := by
  by_cases reversed : task.nonceEnd < task.nonceStart
  · refine (gpuMine_reversed reversed s).mono ?_
    rintro o t ⟨rfl, -⟩ sol returned
    cases returned
  have ordered : task.nonceStart ≤ task.nonceEnd := by
    rw [UInt64.lt_iff_toNat_lt] at reversed
    rw [UInt64.le_iff_toNat_le]
    omega
  refine (gpuMine_advances ordered s).mono ?_
  rintro o t ⟨found, advanced, same⟩ sol rfl
  cases found with
  | none => cases same
  | some nonce =>
    obtain ⟨ls, d, clean, answers, counted⟩ := advanced.hit nonce rfl
    simp only [makeSolution_correct] at same
    obtain ⟨_, made, ⟨⟩⟩ := Option.map_eq_some_iff.mp same.symm
    obtain ⟨state, -, rfl⟩ := Option.map_eq_some_iff.mp made
    dsimp only
    have capped := answers.ok.capped
    have above := answers.above
    have first := answers.first
    have last := answers.last
    refine ⟨fun other low solves => ?_, _, counted, by omega, by omega⟩
    have before := answers.earliest clean small low solves
    omega

-- Ninety million nonces that all solve the task: the one that is returned is of the first dispatch.
theorem gpu_earliest_example : ∃ sol t,
    gpuMine Fips180.compress .none false .hip ⟨.num 1, "", 0, 10000000, 99999999⟩ Device.blank
      (some (some sol)) t ∧
    sol.nonce.toNat < 10000000 + 256 * 65535 ∧
    ∃ counted, t.counter = Device.blank.counter + UInt64.ofNat counted ∧
      sol.nonce.toNat < 10000000 + counted ∧ 10000000 + counted ≤ sol.nonce.toNat + 256 * 65535 := by
  have range : Task.InRange ⟨.num 1, "", 0, 10000000, 99999999⟩ 1 := ⟨by decide, by decide⟩
  have short : (Task.prefixBytes ⟨.num 1, "", 0, 10000000, 99999999⟩).length ≤ 35 := by decide +kernel
  have solves : Task.Solves ⟨.num 1, "", 0, 10000000, 99999999⟩ 10000000 := List.nil_prefix
  have start : (10000000 : UInt64).toNat = 10000000 := by decide
  obtain ⟨sol, t, ran⟩ := Gpu.short_solved .hip range short
    ⟨10000000, UInt64.le_refl _, by decide, solves⟩ Device.blank
  have earliest := gpu_earliest .hip ⟨.num 1, "", 0, 10000000, 99999999⟩ (by decide) Device.blank
  obtain ⟨before, counted⟩ := earliest _ t ran sol rfl
  have first := before 10000000 (UInt64.le_refl _) solves
  rw [start] at first counted
  exact ⟨sol, t, ran, first, counted⟩

end

end ScamMiner
