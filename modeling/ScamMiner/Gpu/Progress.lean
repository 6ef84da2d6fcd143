import ScamMiner.Gpu.Device

set_option autoImplicit false

namespace ScamMiner.Gpu

open Fips180 (State Block)
open Proc (Total Within)

section
variable (faults : Faults) (spurious : Bool)

theorem copyToDevice_total (harmless : Device -> Prop) (write : Device -> Device) :
    Total (copyToDevice faults harmless write) :=
  fun s => ⟨some true, write s, .inl ⟨rfl, rfl⟩⟩

theorem copyToDevice_within (harmless : Device -> Prop) (write : Device -> Device) :
    Within (copyToDevice .none harmless write) (copyToDevice faults harmless write) := by
  rintro s o t (succeeds | ⟨may, -⟩)
  · exact .inl succeeds
  · exact may.elim

theorem kernelRun_exists (dialect : Dialect) (words : TailWords) (params : Params) (n : Nat)
    (before : Slot) : ∃ after, KernelRun dialect spurious words params n before after := by
  obtain ⟨k, last, run, complete⟩ := race_completes dialect
    (raceStart (n := n) dialect words params (fun _ => Vector.replicate 32 0) (fun _ => false) before)
  exact ⟨last.slot, _, _, fun _ _ => rfl, .inr ⟨k, last, run, complete, rfl⟩⟩

theorem launch_total (dialect : Dialect) (n : Nat) : Total (launch dialect faults spurious n) := by
  intro s
  obtain ⟨after, ran⟩ := kernelRun_exists spurious dialect s.constantBuf s.paramsBuf n s.resultBuf
  exact ⟨some true, _, .inl ⟨rfl, after, ran, rfl⟩⟩

theorem launch_within (dialect : Dialect) (n : Nat) :
    Within (launch dialect .none spurious n) (launch dialect faults spurious n) := by
  rintro s o t (succeeds | ⟨may, -⟩)
  · exact .inl succeeds
  · exact absurd rfl may

theorem readResult_total : Total (readResult faults) :=
  fun s => ⟨some (some s.resultBuf), s, rfl, .inl rfl⟩

theorem readResult_within : Within (readResult .none) (readResult faults) := by
  rintro s o t ⟨same, succeeds | ⟨may, -⟩⟩
  · exact ⟨same, .inl succeeds⟩
  · exact absurd rfl may

theorem vulkanChunk_total (mid : Midstate State) (task : Task) (chunkStart : UInt64)
    (c nd : UInt32) : Total (vulkanChunk faults spurious mid task chunkStart c nd) := by
  refine (Proc.total_ofOption _).bind fun (words, params) => (copyToDevice_total _ _ _).bind fun _ =>
    (copyToDevice_total _ _ _).bind fun _ => (launch_total _ _ _ _).bind fun _ =>
      (readResult_total _).bind fun read => ?_
  cases read <;> exact Proc.total_pure _

theorem openclChunk_total (mid : Midstate State) (task : Task) (chunkStart : UInt64)
    (c nd : UInt32) : Total (openclChunk faults spurious mid task chunkStart c nd) := by
  refine (Proc.total_ofOption _).bind fun (words, params) =>
    (copyToDevice_total _ _ _).bind fun written => ?_
  cases written with
  | false => exact Proc.total_pure _
  | true =>
    refine (copyToDevice_total _ _ _).bind fun written => ?_
    cases written with
    | false => exact Proc.total_pure _
    | true =>
      refine (launch_total _ _ _ _).bind fun launched => ?_
      cases launched with
      | false => exact Proc.total_pure _
      | true =>
        refine (readResult_total _).bind fun read => ?_
        cases read <;> exact Proc.total_pure _

theorem hipChunk_total (mid : Midstate State) (task : Task) (chunkStart : UInt64)
    (c nd : UInt32) : Total (hipChunk faults spurious mid task chunkStart c nd) := by
  refine (Proc.total_ofOption _).bind fun (words, params) => (copyToDevice_total _ _ _).bind fun _ =>
    (copyToDevice_total _ _ _).bind fun _ => (launch_total _ _ _ _).bind fun launched => ?_
  cases launched with
  | false => exact Proc.total_pure _
  | true => exact (readResult_total _).bind fun _ => Proc.total_pure _

theorem hipChunk_within (mid : Midstate State) (task : Task) (chunkStart : UInt64)
    (c nd : UInt32) : Within (hipChunk .none spurious mid task chunkStart c nd)
      (hipChunk faults spurious mid task chunkStart c nd) := by
  refine (Within.refl _).bind fun (words, params) => (copyToDevice_within _ _ _).bind fun _ =>
    (copyToDevice_within _ _ _).bind fun _ => (launch_within _ _ _ _).bind fun launched => ?_
  cases launched with
  | false => exact Within.refl _
  | true => exact (readResult_within _).bind fun _ => Within.refl _

end

section
variable (host : State -> Block -> State) (task : Task)

theorem mineWith_total (reset : Proc Device Bool)
    (chunk : Midstate State -> Task -> UInt64 -> UInt32 -> UInt32 -> Proc Device ChunkOutcome)
    (resets : Total reset)
    (chunks : ∀ mid chunkStart c nd, Total (chunk mid task chunkStart c nd)) :
    Total (mineWith host reset chunk task) := by
  unfold mineWith
  by_cases reversed : task.nonceEnd < task.nonceStart
  · simp only [if_pos reversed]
    exact Proc.total_pure _
  by_cases zero : task.nonceEnd - task.nonceStart + 1 = 0
  · simp only [if_neg reversed, if_pos zero]
    exact Proc.total_pure _
  simp only [if_neg reversed, if_neg zero]
  refine (Proc.total_ofOption _).bind fun mid => resets.bind fun lowered => ?_
  cases lowered with
  | false => exact Proc.total_pure _
  | true =>
    refine (chunkLoop_total _ _ (fun _ => Proc.total_modify _) (chunks mid) _ _ _).bind fun found => ?_
    cases found with
    | none => exact Proc.total_pure _
    | some nonce => exact (Proc.total_ofOption _).bind fun _ => Proc.total_pure _

theorem mineWith_within (reset reset' : Proc Device Bool)
    (chunk chunk' :
      Midstate State -> Task -> UInt64 -> UInt32 -> UInt32 -> Proc Device ChunkOutcome)
    (resets : Within reset reset') (chunks : ∀ mid chunkStart c nd,
      Within (chunk mid task chunkStart c nd) (chunk' mid task chunkStart c nd)) :
    Within (mineWith host reset chunk task) (mineWith host reset' chunk' task) := by
  unfold mineWith
  by_cases reversed : task.nonceEnd < task.nonceStart
  · simp only [if_pos reversed]
    exact Within.refl _
  by_cases zero : task.nonceEnd - task.nonceStart + 1 = 0
  · simp only [if_neg reversed, if_pos zero]
    exact Within.refl _
  simp only [if_neg reversed, if_neg zero]
  refine (Within.refl _).bind fun mid => resets.bind fun lowered => ?_
  cases lowered with
  | false => exact Within.refl _
  | true => exact (chunkLoop_within _ _ _ (chunks mid) _ _ _).bind fun _ => Within.refl _

variable (faults : Faults) (spurious : Bool)

theorem ignoringErrors_total (copy : Proc Device Bool) (copies : Total copy) :
    Total (ignoringErrors copy) :=
  copies.bind fun _ => Proc.total_pure _

theorem gpuMine_total (dialect : Dialect) :
    Total (gpuMine host faults spurious dialect task) := by
  cases dialect with
  | wgsl =>
    exact mineWith_total host task _ _ (ignoringErrors_total _ (copyToDevice_total _ _ _))
      fun mid => vulkanChunk_total faults spurious mid task
  | opencl =>
    exact mineWith_total host task _ _ (copyToDevice_total _ _ _)
      fun mid => openclChunk_total faults spurious mid task
  | hip =>
    exact mineWith_total host task _ _ (ignoringErrors_total _ (copyToDevice_total _ _ _))
      fun mid => hipChunk_total faults spurious mid task

theorem hipMine_within : Within (hipMine host .none spurious task)
    (hipMine host faults spurious task) :=
  mineWith_within host task _ _ _ _
    ((copyToDevice_within _ _ _).bind fun _ => Within.refl _)
    fun mid => hipChunk_within faults spurious mid task

end

end ScamMiner.Gpu
