import ScamMiner.Gpu.Call

set_option autoImplicit false

namespace ScamMiner.Gpu

open Fips180 (State Block)

theorem copyToDevice_counter (faults : Faults) (harmless : Device -> Prop) (write : Device -> Device)
    (kept : ∀ s, (write s).counter = s.counter) :
    Proc.Keeps Device.counter (copyToDevice faults harmless write) := by
  rintro s o t (⟨-, rfl⟩ | ⟨-, -, rfl⟩)
  · exact kept s
  · rfl

theorem launch_counter (dialect : Dialect) (faults : Faults) (spurious : Bool) (n : Nat) :
    Proc.Keeps Device.counter (launch dialect faults spurious n) := by
  rintro s o t (⟨-, after, -, rfl⟩ | ⟨-, -, rfl⟩)
  · rfl
  · rfl

theorem readResult_counter (faults : Faults) : Proc.Keeps Device.counter (readResult faults) := by
  rintro s o t ⟨rfl, -⟩
  rfl

section
variable {dialect : Dialect} {faults : Faults} {spurious : Bool} {host : State -> Block -> State}
  {task : Task} {s t u : Device} {k : Nat} {ls : List Launch}

theorem gpuChunk_counter (mid : Midstate State) (chunkStart : UInt64) (c nd : UInt32) :
    Proc.Keeps Device.counter (gpuChunk faults spurious dialect mid task chunkStart c nd) := by
  have constant (faults : Faults) (words : TailWords) :
      Proc.Keeps Device.counter (writeConstant faults words) :=
    copyToDevice_counter _ _ _ fun _ => rfl
  have parameters (faults : Faults) (params : Params) :
      Proc.Keeps Device.counter (writeParams faults params) :=
    copyToDevice_counter _ _ _ fun _ => rfl
  cases dialect with
  | wgsl =>
    refine .bind (Proc.keeps_ofOption _ _) fun data => ?_
    refine .bind (constant _ _) fun _ => .bind (parameters _ _) fun _ => ?_
    refine .bind (launch_counter _ _ _ _) fun _ => .bind (readResult_counter _) fun slot => ?_
    cases slot <;> exact Proc.keeps_pure _ _
  | opencl =>
    refine .bind (Proc.keeps_ofOption _ _) fun data => ?_
    refine .bind (constant _ _) fun _ => Proc.Keeps.cond ?_ (Proc.keeps_pure _ _)
    refine .bind (parameters _ _) fun _ => Proc.Keeps.cond ?_ (Proc.keeps_pure _ _)
    refine .bind (launch_counter _ _ _ _) fun _ => Proc.Keeps.cond ?_ (Proc.keeps_pure _ _)
    refine .bind (readResult_counter _) fun slot => ?_
    cases slot <;> exact Proc.keeps_pure _ _
  | hip =>
    refine .bind (Proc.keeps_ofOption _ _) fun data => ?_
    refine .bind (constant _ _) fun _ => .bind (parameters _ _) fun _ => ?_
    refine .bind (launch_counter _ _ _ _) fun _ => Proc.Keeps.cond ?_ (Proc.keeps_pure _ _)
    exact .bind (readResult_counter _) fun _ => Proc.keeps_pure _ _

/-- The chunk `d` holds the answer, and the nonces before it were searched in vain. -/
structure Answers (dialect : Dialect) (spurious : Bool) (host : State -> Block -> State)
    (task : Task) (ls : List Launch) (d : Dispatch) (nonce : UInt64) : Prop where
  ok : DispatchOk d
  above : task.nonceStart.toNat ≤ d.1.toNat
  inside : d.1.toNat + d.2.1.toNat ≤ task.nonceEnd.toNat + 1
  first : d.1.toNat ≤ nonce.toNat
  last : nonce.toNat < d.1.toNat + d.2.1.toNat
  vain : ∀ n, task.nonceStart.toNat ≤ n -> n < d.1.toNat ->
    SearchedInVain dialect spurious host task ls n

structure Advanced (dialect : Dialect) (spurious : Bool) (host : State -> Block -> State)
    (task : Task) (counter : UInt64) (t : Device) (found : Option UInt64) : Prop where
  hit : ∀ nonce, found = some nonce -> ∃ ls d, (∀ l ∈ ls, l.before.flag = 0) ∧
    Answers dialect spurious host task ls d nonce ∧
    t.counter = counter + UInt64.ofNat (d.1.toNat + d.2.1.toNat - task.nonceStart.toNat)
  miss : found = none -> t.counter = counter + (task.nonceEnd - task.nonceStart + 1)

theorem faultless_step {mid : Midstate State} {d : Dispatch} {o : Option ChunkOutcome}
    (step : ChunkStep .none spurious dialect mid task d u o t) :
    ∃ l : Launch, l.before = u.resultBuf ∧
      dispatchData mid task.difficulty d = some (l.words, l.params) ∧
      KernelRun dialect spurious l.words l.params l.size l.before l.after ∧
      o = some (outcomeOf l.after) := by
  rcases step with ⟨-, faulty, -⟩ | ⟨l, -, before, -, data, -, ran, same | ⟨faulty, -⟩⟩
  · exact absurd rfl faulty
  · exact ⟨l, before, data, ran, same⟩
  · exact absurd rfl faulty

theorem ChunkInv.hit (inv : ChunkInv dialect .none spurious host task s k u ls) {d : Dispatch}
    (ok : DispatchOk d) (first : d.1.toNat = task.nonceStart.toNat + k)
    (inside : d.1.toNat + d.2.1.toNat ≤ task.nonceEnd.toNat + 1) {nonce : UInt64}
    (step : ChunkStep .none spurious dialect (Midstate.absorbed host IV task.prefixBytes) task d u
      (some (.found nonce)) t) : Answers dialect spurious host task ls d nonce := by
  obtain ⟨l, before, data, ran, answer⟩ := faultless_step step
  have raised : l.after.flag ≠ 0 ∧ l.after.nonce = nonce := by
    unfold outcomeOf at answer
    split at answer
    · rename_i raised
      exact ⟨raised, by cases answer; rfl⟩
    · cases answer
  have reset : l.before.flag = 0 := by
    rcases inv.slot with free | ⟨faulty, -⟩
    · rw [before]
      exact free
    · exact absurd rfl faulty
  obtain ⟨idx, within, -, own⟩ := ran.sound ok data reset raised.1
  have sum := ok.nonce_toNat idx within
  have less := UInt32.lt_iff_toNat_lt.mp within
  rw [← own, raised.2] at sum
  exact ⟨ok, by omega, inside, by omega, by omega, fun n above below =>
    inv.covered rfl n above (by omega)⟩

theorem gpuLoop_advances (ordered : task.nonceStart ≤ task.nonceEnd)
    (lowered : t.resultBuf.flag = 0) :
    Proc.Ensures (mineChunks fetchAdd
        (gpuChunk .none spurious dialect (Midstate.absorbed host IV task.prefixBytes) task)
        task.nonceStart (task.nonceEnd - task.nonceStart + 1))
      (Proc.Then (fun found u => Advanced dialect spurious host task t.counter u found)
        fun _ => False) t := by
  have fits := range_fits task.nonceStart task.nonceEnd ordered
  have low := UInt64.le_iff_toNat_le.mp ordered
  have size : (task.nonceEnd - task.nonceStart + 1).toNat =
      (task.nonceEnd.toNat - task.nonceStart.toNat + 1) % 2 ^ 64 := by
    rw [UInt64.toNat_add, UInt64.toNat_sub_of_le _ _ ordered]
    rfl
  have capped : (task.nonceEnd - task.nonceStart + 1).toNat ≤
      task.nonceEnd.toNat - task.nonceStart.toNat + 1 := size ▸ Nat.mod_le _ _
  refine mineChunks_rule fetchAdd _ _ _ fits
    (fun k u => u.counter = t.counter + UInt64.ofNat k ∧
      ∃ ls, ChunkInv dialect .none spurious host task t k u ls) _ ?_ ?_ t
    ⟨by simp, [], .initial rfl lowered⟩
  · rintro k u chunkStart c nd ⟨counted, ls, inv⟩ first within ok
    obtain ⟨words, params, data, -, -⟩ := dispatch_runs host task.prefixBytes task.difficulty
      (chunkStart, c, nd) ok
    simp only [fetchAdd, Proc.ensures_bind, Proc.ensures_modify, Proc.Then]
    intro o v ran
    have step := chunk_step dialect (by simp) chunkStart c nd data _ o v ran
    have kept := gpuChunk_counter _ _ _ _ _ _ _ ran
    have widened : UInt64.ofNat c.toNat = c.toUInt64 := UInt64.ofNat_uInt32ToNat c
    have added : v.counter = t.counter + UInt64.ofNat (k + c.toNat) := by
      rw [kept, counted, UInt64.ofNat_add, widened, UInt64.add_assoc]
    have here : ChunkInv dialect .none spurious host task t k
        { u with counter := u.counter + c.toUInt64 } ls :=
      ⟨inv.history, inv.launched, inv.slot, inv.clean, inv.covered⟩
    obtain ⟨ls', next⟩ := here.step ok first (by simp only; omega) step
    rcases o with _ | _ | nonce | _
    · exact next
    · exact ⟨added, ls', next⟩
    · refine ⟨?_, by simp⟩
      rintro _ ⟨⟩
      refine ⟨ls, _, here.clean rfl, here.hit ok first (by simp only; omega) step, ?_⟩
      simp only at first ⊢
      rw [added]
      congr 2
      omega
    · obtain ⟨l, -, -, -, answer⟩ := faultless_step step
      unfold outcomeOf at answer
      split at answer <;> cases answer
  · rintro u ⟨counted, ls, inv⟩
    exact ⟨by simp, fun _ => by rw [counted, UInt64.ofNat_toNat]⟩

theorem gpuReset_counter : Proc.Keeps Device.counter (gpuReset dialect faults) := by
  have reset (faults : Faults) : Proc.Keeps Device.counter (resetResult faults) :=
    copyToDevice_counter _ _ _ fun _ => rfl
  cases dialect with
  | wgsl => exact .bind (reset _) fun _ => Proc.keeps_pure _ _
  | opencl => exact reset _
  | hip => exact .bind (reset _) fun _ => Proc.keeps_pure _ _

theorem gpuMine_reversed (reversed : task.nonceEnd < task.nonceStart) (s : Device) :
    Proc.Ensures (gpuMine host faults spurious dialect task) (fun o t => o = some none ∧ t = s) s := by
  rw [gpuMine_eq]
  unfold mineWith
  rw [if_pos reversed, Proc.ensures_pure]
  exact ⟨rfl, rfl⟩

theorem gpuMine_advances (ordered : task.nonceStart ≤ task.nonceEnd) (s : Device) :
    Proc.Ensures (gpuMine host .none spurious dialect task)
      (fun o t => ∃ found, Advanced dialect spurious host task s.counter t found ∧
        o = match found with
          | none => some none
          | some nonce => (makeSolution host task nonce).map some) s := by
  have forwards : ¬ task.nonceEnd < task.nonceStart := by
    rw [UInt64.lt_iff_toNat_lt]
    exact Nat.not_lt.mpr (UInt64.le_iff_toNat_le.mp ordered)
  rw [gpuMine_eq]
  unfold mineWith
  by_cases zero : task.nonceEnd - task.nonceStart + 1 = 0
  · simp only [if_neg forwards, if_pos zero, Proc.ensures_pure]
    exact ⟨none, ⟨by simp, fun _ => by rw [zero, UInt64.add_zero]⟩, rfl⟩
  simp only [if_neg forwards, if_neg zero]
  rw [Proc.ensures_bind, Proc.ensures_ofOption, Midstate.new_absorbed host IV,
    Midstate.update_absorbed, List.nil_append]
  simp only [Proc.Then]
  rw [Proc.ensures_bind]
  intro o t ran
  have kept := gpuReset_counter s o t ran
  obtain ⟨-, ⟨rfl, lowered⟩ | ⟨-, faulty⟩⟩ := gpuReset_step (by simp) s o t ran
  · simp only [Proc.Then, if_true]
    rw [Proc.ensures_bind, ← kept]
    refine (gpuLoop_advances ordered lowered).mono fun o u looped => ?_
    cases o with
    | none => exact looped.elim
    | some found =>
      cases found with
      | none =>
        simp only [Proc.Then, Proc.ensures_pure]
        exact ⟨none, looped, rfl⟩
      | some nonce =>
        simp only [Proc.Then, Proc.ensures_bind, Proc.ensures_ofOption]
        cases made : makeSolution host task nonce with
        | none => exact ⟨some nonce, looped, by simp [made]⟩
        | some solution =>
          simp only [Proc.ensures_pure]
          exact ⟨some nonce, looped, by simp [made]⟩
  · exact absurd rfl faulty

end

end ScamMiner.Gpu
