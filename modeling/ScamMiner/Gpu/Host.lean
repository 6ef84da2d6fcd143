import ScamMiner.Gpu.Device

set_option autoImplicit false

namespace ScamMiner.Gpu

open Fips180 (State Block)
open Transition (Run)

def Matches (dialect : Dialect) (words : TailWords) (params : Params) (idx : UInt32)
    (nonce : UInt64) : Prop :=
  ∃ uninit v, kernelThread dialect uninit words params idx = some (some v) ∧ v.matched = true ∧
    v.nonce = nonce

theorem publisher_fresh (thread : Option (Option Verdict)) (spurious : Bool) :
    (publisher thread spurious).pc = .exchange ∨ (publisher thread spurious).pc = .done := by
  unfold publisher
  split
  · simp only
    split
    · exact .inl rfl
    · exact .inr rfl
  · exact .inr rfl

theorem publisher_matched (thread : Option (Option Verdict)) (spurious : Bool)
    (matched : (publisher thread spurious).Matched) :
    ∃ v, thread = some (some v) ∧ v.matched = true ∧ (publisher thread spurious).nlo = v.nlo ∧
      (publisher thread spurious).nhi = v.nhi := by
  unfold Publisher.Matched publisher at matched
  split at matched
  · rename_i v
    refine ⟨v, rfl, ?_, rfl, rfl⟩
    by_contra poor
    simp [poor] at matched
  · simp at matched

section
variable {host : State -> Block -> State} {message : List UInt8} {difficulty : UInt32}
  {d : Dispatch} {words : TailWords} {params : Params} {dialect : Dialect} {spurious : Bool}
  {before after : Slot}

theorem threads_run (ok : DispatchOk d)
    (data : dispatchData (Midstate.absorbed host IV message) difficulty d = some (words, params))
    (dialect : Dialect) (uninit : TailWords) (idx : UInt32) :
    (d.2.1 ≤ idx ∧ kernelThread dialect uninit words params idx = some none) ∨
      idx < d.2.1 ∧ ∃ v, kernelThread dialect uninit words params idx = some (some v) ∧
        ThreadRuns host message (d.1 + idx.toUInt64) difficulty params.numBlocks v := by
  obtain ⟨words', params', data', count, threads⟩ := dispatch_runs host message difficulty d ok
  obtain ⟨rfl, rfl⟩ : words' = words ∧ params' = params := by simpa [data] using data'.symm
  by_cases inside : idx < d.2.1
  · exact .inr ⟨inside, threads dialect uninit idx inside⟩
  · have beyond : d.2.1 ≤ idx := by
      rw [UInt32.lt_iff_toNat_lt] at inside
      rw [UInt32.le_iff_toNat_le]
      omega
    exact .inl ⟨beyond, by rw [kernelThread, count, if_pos beyond]⟩

theorem KernelRun.race (ok : DispatchOk d)
    (data : dispatchData (Midstate.absorbed host IV message) difficulty d = some (words, params))
    {n : Nat} (ran : KernelRun dialect spurious words params n before after) :
    ∃ (uninit : Fin n -> TailWords) (fails : Fin n -> Bool) (k : Nat) (last : Race n),
      (spurious = false -> ∀ i, fails i = false) ∧
      Run (RaceStep dialect) k (raceStart dialect words params uninit fails before) last ∧
      last.Complete ∧ after = last.slot := by
  obtain ⟨uninit, fails, firm, ⟨i, fault⟩ | ⟨k, last, run, complete, same⟩⟩ := ran
  · rcases threads_run ok data dialect (uninit i) (UInt32.ofNat i.val) with
      ⟨-, early⟩ | ⟨-, v, done, -⟩
    · simp [early] at fault
    · simp [done] at fault
  · exact ⟨uninit, fails, k, last, firm, run, complete, same⟩

theorem raceStart_fresh {n : Nat} (uninit : Fin n -> TailWords) (fails : Fin n -> Bool) :
    (raceStart dialect words params uninit fails before).Fresh :=
  fun _ => publisher_fresh _ _

theorem KernelRun.sound (ok : DispatchOk d)
    (data : dispatchData (Midstate.absorbed host IV message) difficulty d = some (words, params))
    {n : Nat} (ran : KernelRun dialect spurious words params n before after)
    (reset : before.flag = 0) (set : after.flag ≠ 0) :
    ∃ idx, idx < d.2.1 ∧ Matches dialect words params idx after.nonce ∧
      after.nonce = d.1 + idx.toUInt64 := by
  obtain ⟨uninit, fails, k, last, -, run, complete, rfl⟩ := ran.race ok data
  obtain ⟨w, matched, low, high⟩ := race_winner dialect _ last (raceStart_fresh uninit fails) reset k
    run complete set
  obtain ⟨v, thread, good, nlo, nhi⟩ := publisher_matched _ _ matched
  have nonce : last.slot.nonce = v.nonce := by
    unfold Slot.nonce Verdict.nonce
    rw [low, high, ← nlo, ← nhi]
    rfl
  rcases threads_run ok data dialect (uninit w) (UInt32.ofNat w.val) with
    ⟨-, early⟩ | ⟨inside, v', done, runs⟩
  · simp [early] at thread
  · obtain rfl : v' = v := by simpa [done] using thread
    exact ⟨_, inside, ⟨uninit w, v', done, good, nonce.symm⟩, nonce.trans runs.own⟩

theorem KernelRun.stale (ok : DispatchOk d)
    (data : dispatchData (Midstate.absorbed host IV message) difficulty d = some (words, params))
    {n : Nat} (ran : KernelRun dialect spurious words params n before after)
    (set : before.flag ≠ 0) : after = before := by
  obtain ⟨uninit, fails, k, last, -, run, -, rfl⟩ := ran.race ok data
  exact race_stale dialect _ last (raceStart_fresh uninit fails) set k run

theorem KernelRun.complete (ok : DispatchOk d)
    (data : dispatchData (Midstate.absorbed host IV message) difficulty d = some (words, params))
    (ran : KernelRun dialect false words params (globalSize d.2.1) before after)
    (reset : before.flag = 0) (lowered : after.flag = 0) (idx : UInt32) (inside : idx < d.2.1) :
    ∃ uninit v, kernelThread dialect uninit words params idx = some (some v) ∧
      ThreadRuns host message (d.1 + idx.toUInt64) difficulty params.numBlocks v ∧
      v.matched = false := by
  obtain ⟨uninit, fails, k, last, firm, run, complete, rfl⟩ := ran.race ok data
  have less := UInt32.lt_iff_toNat_lt.mp inside
  let i : Fin (globalSize d.2.1) := ⟨idx.toNat, by unfold globalSize; omega⟩
  have index : UInt32.ofNat i.val = idx := UInt32.ofNat_toNat
  rcases threads_run ok data dialect (uninit i) idx with ⟨beyond, -⟩ | ⟨-, v, done, runs⟩
  · have le := UInt32.le_iff_toNat_le.mp beyond
    omega
  · refine ⟨uninit i, v, done, runs, ?_⟩
    by_contra good
    have raised := (race_flag_iff dialect _ last (raceStart_fresh uninit fails) reset k run
      complete).mpr ⟨i, ?_, ?_⟩
    · simp [raised] at lowered
    · simp only [Publisher.Matched, raceStart, index, done, publisher]
      simp [good]
    · have never := firm rfl i
      have same : ((raceStart dialect words params uninit fails before).threads i).spurious =
          false := by
        simp only [raceStart, publisher, never]
        split <;> rfl
      cases dialect <;> simp [Publisher.mayFail, same]

end

section
variable (faults : Faults) (spurious : Bool)

theorem Faults.unnoticed (faults : Faults) (quiet : faults ≠ .any) {harmless : Prop}
    (fails : faults.copyMayFail harmless) : harmless := by
  cases faults with
  | none => exact fails.elim
  | harmless => exact fails
  | any => exact absurd rfl quiet

theorem ensures_copyToDevice (harmless : Device -> Prop) (write : Device -> Device)
    (post : Option Bool -> Device -> Prop) (s : Device) :
    Proc.Ensures (copyToDevice faults harmless write) post s ↔
      post (some true) (write s) ∧ (faults.copyMayFail (harmless s) -> post (some false) s) := by
  constructor
  · intro ensures
    exact ⟨ensures _ _ (.inl ⟨rfl, rfl⟩), fun fails => ensures _ _ (.inr ⟨fails, rfl, rfl⟩)⟩
  · rintro ⟨succeeds, fails⟩ o t (⟨rfl, rfl⟩ | ⟨may, rfl, rfl⟩)
    · exact succeeds
    · exact fails may

theorem ensures_readResult (post : Option (Option Slot) -> Device -> Prop) (s : Device) :
    Proc.Ensures (readResult faults) post s ↔
      post (some (some s.resultBuf)) s ∧ (faults ≠ .none -> post (some none) s) := by
  constructor
  · intro ensures
    exact ⟨ensures _ _ ⟨rfl, .inl rfl⟩, fun fails => ensures _ _ ⟨rfl, .inr ⟨fails, rfl⟩⟩⟩
  · rintro ⟨succeeds, fails⟩ o t ⟨rfl, rfl | ⟨may, rfl⟩⟩
    · exact succeeds
    · exact fails may

def gpuChunk (dialect : Dialect) :
    Midstate State -> Task -> UInt64 -> UInt32 -> UInt32 -> Proc Device ChunkOutcome :=
  match dialect with
  | .wgsl => vulkanChunk faults spurious
  | .opencl => openclChunk faults spurious
  | .hip => hipChunk faults spurious

def ChunkStep (dialect : Dialect) (mid : Midstate State) (task : Task) (d : Dispatch) (s : Device)
    (o : Option ChunkOutcome) (t : Device) : Prop :=
  (o = some .abort ∧ faults ≠ .none ∧ t.launches = s.launches ∧ t.resultBuf = s.resultBuf) ∨
  ∃ l : Launch, t.launches = s.launches ++ [l] ∧ l.before = s.resultBuf ∧ l.after = t.resultBuf ∧
    dispatchData mid task.difficulty d = some (l.words, l.params) ∧ l.size = globalSize d.2.1 ∧
    KernelRun dialect spurious l.words l.params l.size l.before l.after ∧
    (o = some (outcomeOf l.after) ∨ faults ≠ .none ∧ (o = some .abort ∨ o = some .notFound))

variable {faults spurious} {mid : Midstate State} {task : Task} {d : Dispatch}
  {words : TailWords} {params : Params}

theorem launch_step (dialect : Dialect) (launchFaults : Faults)
    (weaker : launchFaults ≠ .none -> faults ≠ .none)
    (data : dispatchData mid task.difficulty d = some (words, params)) (s u : Device)
    (constant : u.constantBuf = words) (parameters : u.paramsBuf = params)
    (slot : u.resultBuf = s.resultBuf) (history : u.launches = s.launches)
    (rest : Bool -> Proc Device ChunkOutcome)
    (aborts : launchFaults ≠ .none -> rest false = pure .abort)
    (answers : ∀ t, Proc.Ensures (rest true) (fun o v => v = t ∧ (o = some (outcomeOf t.resultBuf) ∨
      faults ≠ .none ∧ (o = some .abort ∨ o = some .notFound))) t) :
    Proc.Ensures (launch dialect launchFaults spurious (globalSize d.2.1) >>= rest)
      (ChunkStep faults spurious dialect mid task d s) u := by
  rw [Proc.ensures_bind]
  rintro o t (⟨rfl, after, ran, rfl⟩ | ⟨fails, rfl, rfl⟩)
  · refine Proc.Ensures.mono (answers _) ?_
    rintro o v ⟨rfl, answer⟩
    refine .inr ⟨{ words := u.constantBuf, params := u.paramsBuf, size := globalSize d.2.1
                   before := u.resultBuf, after := after }, ?_, slot, rfl, ?_, rfl, ran, answer⟩
    · rw [Device.landed, history]
    · simp only [constant, parameters, data]
  · simp only [Proc.Then, aborts fails, Proc.ensures_pure]
    exact .inl ⟨rfl, weaker fails, history, slot⟩

theorem vulkanChunk_step (chunkStart : UInt64) (c nd : UInt32)
    (data : dispatchData mid task.difficulty (chunkStart, c, nd) = some (words, params))
    (s : Device) :
    Proc.Ensures (vulkanChunk faults spurious mid task chunkStart c nd)
      (ChunkStep faults spurious .wgsl mid task (chunkStart, c, nd) s) s := by
  simp only [vulkanChunk, writeConstant, writeParams]
  rw [Proc.ensures_bind, Proc.ensures_ofOption, data]
  simp only [Proc.Then]
  rw [Proc.ensures_bind, ensures_copyToDevice]
  refine ⟨?_, False.elim⟩
  simp only [Proc.Then]
  rw [Proc.ensures_bind, ensures_copyToDevice]
  refine ⟨?_, False.elim⟩
  simp only [Proc.Then]
  refine launch_step .wgsl .none (fun h => absurd rfl h) data s
    { s with constantBuf := words, paramsBuf := params } rfl rfl rfl rfl _
    (fun h => absurd rfl h) fun t => ?_
  rw [Proc.ensures_bind, ensures_readResult]
  refine ⟨?_, fun fails => ?_⟩
  · simp [Proc.Then]
  · simp [Proc.Then, fails]

theorem openclChunk_step (chunkStart : UInt64) (c nd : UInt32)
    (data : dispatchData mid task.difficulty (chunkStart, c, nd) = some (words, params))
    (s : Device) :
    Proc.Ensures (openclChunk faults spurious mid task chunkStart c nd)
      (ChunkStep faults spurious .opencl mid task (chunkStart, c, nd) s) s := by
  simp only [openclChunk, writeConstant, writeParams]
  rw [Proc.ensures_bind, Proc.ensures_ofOption, data]
  simp only [Proc.Then]
  have aborted (may : Prop) (allowed : faults.copyMayFail may) (t : Device)
      (same : t.launches = s.launches ∧ t.resultBuf = s.resultBuf) :
      ChunkStep faults spurious .opencl mid task (chunkStart, c, nd) s (some .abort) t := by
    refine .inl ⟨rfl, ?_, same⟩
    rintro rfl
    exact allowed
  rw [Proc.ensures_bind, ensures_copyToDevice]
  refine ⟨?_, fun fails => ?_⟩
  · simp only [Proc.Then, if_true]
    rw [Proc.ensures_bind, ensures_copyToDevice]
    refine ⟨?_, fun fails => ?_⟩
    · simp only [Proc.Then, if_true]
      refine launch_step .opencl faults id data s
        { s with constantBuf := words, paramsBuf := params } rfl rfl rfl rfl _ ?_ fun t => ?_
      · exact fun _ => rfl
      simp only [if_true]
      rw [Proc.ensures_bind, ensures_readResult]
      refine ⟨?_, fun fails => ?_⟩
      · simp [Proc.Then]
      · simp [Proc.Then, fails]
    · simp only [Proc.Then, Bool.false_eq_true, if_false, Proc.ensures_pure]
      exact aborted _ fails _ ⟨rfl, rfl⟩
  · simp only [Proc.Then, Bool.false_eq_true, if_false, Proc.ensures_pure]
    exact aborted _ fails _ ⟨rfl, rfl⟩

theorem hipChunk_step (quiet : faults ≠ .any) (chunkStart : UInt64) (c nd : UInt32)
    (data : dispatchData mid task.difficulty (chunkStart, c, nd) = some (words, params))
    (s : Device) :
    Proc.Ensures (hipChunk faults spurious mid task chunkStart c nd)
      (ChunkStep faults spurious .hip mid task (chunkStart, c, nd) s) s := by
  have launched (u : Device) (constant : u.constantBuf = words) (parameters : u.paramsBuf = params)
      (slot : u.resultBuf = s.resultBuf) (history : u.launches = s.launches) :
      Proc.Ensures (do
        if ← launch .hip faults spurious (globalSize c) then
          let out ← readResult faults
          return outcomeOf (out.getD zeroSlot)
        else return .abort)
        (ChunkStep faults spurious .hip mid task (chunkStart, c, nd) s) u := by
    refine launch_step .hip faults id data s u constant parameters slot history _ ?_ fun t => ?_
    · exact fun _ => rfl
    simp only [if_true]
    rw [Proc.ensures_bind, ensures_readResult]
    refine ⟨?_, fun fails => ?_⟩
    · simp [Proc.Then]
    · simp [Proc.Then, fails, outcomeOf, zeroSlot]
  -- a copy that fails unnoticed leaves the data it was to write
  simp only [hipChunk, writeConstant, writeParams]
  rw [Proc.ensures_bind, Proc.ensures_ofOption, data]
  simp only [Proc.Then]
  rw [Proc.ensures_bind, ensures_copyToDevice]
  refine ⟨?_, fun fails => ?_⟩ <;> simp only [Proc.Then] <;>
    rw [Proc.ensures_bind, ensures_copyToDevice]
  · refine ⟨launched _ rfl rfl rfl rfl, fun fails => ?_⟩
    exact launched _ rfl (faults.unnoticed quiet fails) rfl rfl
  · have constant := faults.unnoticed quiet fails
    refine ⟨launched _ constant rfl rfl rfl, fun again => ?_⟩
    exact launched _ constant (faults.unnoticed quiet again) rfl rfl

-- On HIP only harmless copies may fail unnoticed; everywhere else errors abort.
theorem chunk_step (dialect : Dialect) (checked : faults = .any -> dialect ≠ .hip)
    (chunkStart : UInt64) (c nd : UInt32)
    (data : dispatchData mid task.difficulty (chunkStart, c, nd) = some (words, params))
    (s : Device) :
    Proc.Ensures (gpuChunk faults spurious dialect mid task chunkStart c nd)
      (ChunkStep faults spurious dialect mid task (chunkStart, c, nd) s) s := by
  cases dialect with
  | wgsl => exact vulkanChunk_step chunkStart c nd data s
  | opencl => exact openclChunk_step chunkStart c nd data s
  | hip => exact hipChunk_step (fun any => checked any rfl) chunkStart c nd data s

end

end ScamMiner.Gpu
