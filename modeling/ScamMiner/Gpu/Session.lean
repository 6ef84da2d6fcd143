import ScamMiner.Gpu.Call
import ScamMiner.Gpu.Progress

set_option autoImplicit false

namespace ScamMiner.Gpu

open Fips180 (State Block)

section
variable (host : State -> Block -> State) (faults : Faults) (spurious : Bool) (dialect : Dialect)

/-- A property of the calls of a sequence: `safe` for each launch, `answers` for each answer. -/
theorem mineEach_rule (safe : Task -> Launch -> Prop)
    (answers : Task -> Option Solution -> List Launch -> Prop)
    (call : ∀ task s, Proc.Ensures (gpuMine host faults spurious dialect task)
      (fun o t => ∃ ls, t.launches = s.launches ++ ls ∧ (∀ l ∈ ls, safe task l) ∧
        ∀ result, o = some result -> answers task result ls) s) (tasks : List Task) (s : Device) :
    Proc.Ensures (mineEach host faults spurious dialect tasks)
      (fun o t => ∃ ls, t.launches = s.launches ++ ls ∧ (∀ l ∈ ls, ∃ task ∈ tasks, safe task l) ∧
        ∀ results, o = some results -> results.map Answered.task = tasks ∧
          ∀ a ∈ results, (∀ l ∈ a.launches, safe a.task l) ∧
            answers a.task a.result a.launches) s := by
  induction tasks generalizing s with
  | nil =>
    rw [mineEach, Proc.ensures_pure]
    refine ⟨[], by simp, by simp, ?_⟩
    rintro results ⟨⟩
    simp
  | cons task rest ih =>
    rw [mineEach, Proc.ensures_bind, Proc.ensures_read]
    simp only [Proc.Then]
    rw [Proc.ensures_bind]
    refine (call task s).mono ?_
    rintro o t ⟨ls, history, safeHere, answered⟩
    cases o with
    | none => exact ⟨ls, history, fun l member => ⟨task, by simp, safeHere l member⟩, by simp⟩
    | some result =>
      simp only [Proc.Then]
      rw [Proc.ensures_bind, Proc.ensures_read]
      simp only [Proc.Then]
      rw [Proc.ensures_bind]
      refine (ih t).mono ?_
      rintro o u ⟨more, later, safeLater, answeredLater⟩
      have all : ∀ l ∈ ls ++ more, ∃ task' ∈ task :: rest, safe task' l := by
        intro l member
        rcases List.mem_append.mp member with here | there
        · exact ⟨task, by simp, safeHere l here⟩
        · obtain ⟨task', inRest, good⟩ := safeLater l there
          exact ⟨task', by simp [inRest], good⟩
      have grown : u.launches = s.launches ++ (ls ++ more) := by
        rw [later, history, List.append_assoc]
      cases o with
      | none => exact ⟨ls ++ more, grown, all, by simp⟩
      | some results =>
        simp only [Proc.Then, Proc.ensures_pure]
        refine ⟨ls ++ more, grown, all, ?_⟩
        rintro _ ⟨⟩
        obtain ⟨same, each⟩ := answeredLater results rfl
        have own : t.launches.drop s.launches.length = ls := by simp [history]
        refine ⟨by simp [same], fun a member => ?_⟩
        rcases List.mem_cons.mp member with rfl | inRest
        · simp only [own]
          exact ⟨safeHere, answered result rfl⟩
        · exact each a inRest

end

section
variable (dialect : Dialect) (spurious : Bool) (host : State -> Block -> State)

/-- The flag is down before a launch for the task; raised, it stands beside one thread's nonce. -/
def SlotSafe (task : Task) (l : Launch) : Prop :=
  ∃ d, LaunchOf dialect spurious host task d l ∧ l.before.flag = 0 ∧
    (l.after.flag ≠ 0 -> ∃ idx, idx < d.2.1 ∧ Matches dialect l.words l.params idx l.after.nonce ∧
      l.after.nonce.toNat = d.1.toNat + idx.toNat)

def ReadBack (result : Option Solution) (ls : List Launch) : Prop :=
  ∀ solution, result = some solution -> ∃ l ∈ ls, l.after.flag ≠ 0 ∧ l.after.nonce = solution.nonce

variable {dialect spurious host} {task : Task} {d : Dispatch} {l : Launch}

theorem LaunchOf.safe (launched : LaunchOf dialect spurious host task d l)
    (lowered : l.before.flag = 0) : SlotSafe dialect spurious host task l := by
  refine ⟨d, launched, lowered, fun raised => ?_⟩
  obtain ⟨idx, inside, matched, own⟩ := launched.ran.sound launched.ok launched.data lowered raised
  exact ⟨idx, inside, matched, by rw [own, launched.ok.nonce_toNat idx inside]⟩

theorem found_of_solution {found : Option UInt64} {solution : Solution}
    (same : some (some solution) = match found with
      | none => some none
      | some nonce => (makeSolution host task nonce).map some) :
    ∃ nonce, found = some nonce ∧ solution.nonce = nonce := by
  cases found with
  | none => cases Option.some.inj same
  | some nonce =>
    obtain ⟨made, from_, rest⟩ := Option.map_eq_some_iff.mp same.symm
    obtain rfl := Option.some.inj rest
    rw [makeSolution_correct] at from_
    obtain ⟨state, -, rfl⟩ := Option.map_eq_some_iff.mp from_
    exact ⟨nonce, rfl, rfl⟩

/-- The slot of a device whose calls do not fail, over any sequence of tasks. -/
theorem mineEach_slotSafe (dialect : Dialect) (spurious : Bool) (host : State -> Block -> State)
    (tasks : List Task) (s : Device) :
    Proc.Ensures (mineEach host .none spurious dialect tasks)
      (fun o t => ∃ ls, t.launches = s.launches ++ ls ∧
        (∀ l ∈ ls, ∃ task ∈ tasks, SlotSafe dialect spurious host task l) ∧
        ∀ results, o = some results -> results.map Answered.task = tasks ∧
          ∀ a ∈ results, (∀ l ∈ a.launches, SlotSafe dialect spurious host a.task l) ∧
            ReadBack a.result a.launches) s := by
  refine mineEach_rule host .none spurious dialect (SlotSafe dialect spurious host)
    (fun _ => ReadBack) (fun task s => ?_) tasks s
  refine (gpuMine_ensures (by simp) s).mono ?_
  rintro o t ⟨ls, found, called, same⟩
  refine ⟨ls, called.history, fun l member => ?_, ?_⟩
  · obtain ⟨d, launched⟩ := called.launched l member
    exact launched.safe (called.clean rfl l member)
  · rintro result rfl solution rfl
    obtain ⟨nonce, rfl, own⟩ := found_of_solution same
    obtain ⟨l, member, -, raised, shown⟩ := called.seen rfl nonce rfl
    exact ⟨l, member, raised, shown.trans own.symm⟩

end

section
variable (dialect : Dialect) (spurious : Bool) (host : State -> Block -> State)

-- Behind every solution stands a matching thread of its own call, inside the range.
def Founded (task : Task) (result : Option Solution) (ls : List Launch) : Prop :=
  ∀ solution, result = some solution ->
    Justified dialect spurious host task ls solution.nonce ∧
      task.nonceStart ≤ solution.nonce ∧ solution.nonce ≤ task.nonceEnd

variable {dialect spurious host} {task : Task}

theorem Justified.inside {ls : List Launch} {nonce : UInt64}
    (justified : Justified dialect spurious host task ls nonce) :
    task.nonceStart ≤ nonce ∧ nonce ≤ task.nonceEnd := by
  obtain ⟨l, -, d, idx, launched, inside, -, own⟩ := justified
  have less := UInt32.lt_iff_toNat_lt.mp inside
  have low := launched.low
  have high := launched.high
  rw [own, UInt64.le_iff_toNat_le, UInt64.le_iff_toNat_le, launched.ok.nonce_toNat idx inside]
  omega

theorem mineEach_founded_of (faults : Faults) (checked : faults = .any -> dialect ≠ .hip)
    (tasks : List Task) (s : Device) :
    Proc.Ensures (mineEach host faults spurious dialect tasks) (fun o _ => ∀ results,
      o = some results -> results.map Answered.task = tasks ∧
        ∀ a ∈ results, Founded dialect spurious host a.task a.result a.launches) s := by
  refine (mineEach_rule host faults spurious dialect (fun _ _ => True)
    (Founded dialect spurious host) (fun task s => ?_) tasks s).mono ?_
  · refine (gpuMine_ensures checked s).mono ?_
    rintro o t ⟨ls, found, called, same⟩
    refine ⟨ls, called.history, fun _ _ => trivial, ?_⟩
    rintro result rfl solution rfl
    obtain ⟨nonce, rfl, rfl⟩ := found_of_solution same
    have justified := called.justified _ rfl
    exact ⟨justified, justified.inside⟩
  · rintro o t ⟨ls, -, -, answered⟩ results returned
    obtain ⟨same, each⟩ := answered results returned
    exact ⟨same, fun a member => (each a member).2⟩

/-- OpenCL under any failures; HIP when a copy that fails would have changed nothing. -/
theorem mineEach_founded (spurious : Bool) (host : State -> Block -> State) (tasks : List Task)
    (s : Device) :
    Proc.Ensures (mineEach host .any spurious .opencl tasks) (fun o _ => ∀ results,
      o = some results -> results.map Answered.task = tasks ∧
        ∀ a ∈ results, Founded .opencl spurious host a.task a.result a.launches) s ∧
    Proc.Ensures (mineEach host .harmless spurious .hip tasks) (fun o _ => ∀ results,
      o = some results -> results.map Answered.task = tasks ∧
        ∀ a ∈ results, Founded .hip spurious host a.task a.result a.launches) s :=
  ⟨mineEach_founded_of .any (by simp) tasks s, mineEach_founded_of .harmless (by simp) tasks s⟩

theorem hipMine_stale (host : State -> Block -> State) (spurious : Bool) (task : Task)
    (ordered : task.nonceStart ≤ task.nonceEnd)
    (nonempty : task.nonceEnd - task.nonceStart + 1 ≠ 0) (s : Device)
    (raised : s.resultBuf.flag ≠ 0) :
    ∃ t, hipMine host .any spurious task s
      ((makeSolution host task s.resultBuf.nonce).map some) t := by
  let mid := Midstate.absorbed host IV task.prefixBytes
  -- from a raised slot the first chunk answers, and no exchange of its threads succeeds
  have stale : Proc.Ensures
      (mineChunks fetchAdd (hipChunk .none spurious mid task) task.nonceStart
        (task.nonceEnd - task.nonceStart + 1))
      (fun o _ => o = some (some s.resultBuf.nonce)) s := by
    refine mineChunks_rule fetchAdd _ _ _ (range_fits _ _ ordered)
      (fun k u => k = 0 ∧ u.resultBuf = s.resultBuf) _ ?_ ?_ s ⟨rfl, rfl⟩
    · rintro k u chunkStart c nd ⟨-, same⟩ - - ok
      obtain ⟨words, params, data, -, -⟩ := dispatch_runs host task.prefixBytes task.difficulty
        (chunkStart, c, nd) ok
      simp only [fetchAdd, Proc.ensures_bind, Proc.ensures_modify, Proc.Then]
      refine (chunk_step .hip (by simp) chunkStart c nd data _).mono fun o v step => ?_
      rcases step with ⟨-, faulty, -⟩ | ⟨l, -, before, -, own, -, ran, rfl | ⟨faulty, -⟩⟩
      · exact absurd rfl faulty
      · have set : l.before.flag ≠ 0 := by rwa [before, same]
        have kept := ran.stale ok own set
        simp [Proc.Then, outcomeOf, kept, before, same, raised]
      · exact absurd rfl faulty
    · rintro u ⟨empty, -⟩
      exact absurd (UInt64.toNat.inj empty) nonempty
  obtain ⟨o, t, looped⟩ := chunkLoop_total fetchAdd (hipChunk .none spurious mid task)
    (fun _ => Proc.total_modify _) (hipChunk_total .none spurious mid task) task.nonceStart 0
    (task.nonceEnd - task.nonceStart + 1) s
  obtain rfl := stale o t looped
  have reversed : ¬ task.nonceEnd < task.nonceStart := by
    rw [UInt64.lt_iff_toNat_lt]
    rw [UInt64.le_iff_toNat_le] at ordered
    omega
  have absorbed : (Midstate.new IV).update host task.prefixBytes = some mid := by
    rw [Midstate.new_absorbed host IV, Midstate.update_absorbed, List.nil_append]
  refine ⟨t, ?_⟩
  -- only the reset fails: the second disjunct of its copy, and the loop as on a sound device
  simp only [hipMine, mineWith, if_neg reversed, if_neg nonempty, absorbed]
  refine .inr ⟨mid, s, ⟨rfl, rfl⟩, .inr ⟨true, s, ?_, .inr ⟨some s.resultBuf.nonce, t, ?_, ?_⟩⟩⟩
  · exact .inr ⟨false, s, .inr ⟨trivial, rfl, rfl⟩, rfl, rfl⟩
  · exact chunkLoop_within fetchAdd _ _ (hipChunk_within .any spurious mid task) _ _ _ _ _ _ looped
  · cases made : makeSolution host task s.resultBuf.nonce with
    | none => exact .inl ⟨rfl, made.symm, rfl⟩
    | some solution => exact .inr ⟨solution, t, ⟨made.symm, rfl⟩, rfl, rfl⟩

def Device.blank : Device :=
  { constantBuf := Vector.replicate 32 0
    paramsBuf := Params.new 0 0 0 0 0 0 IV
    resultBuf := zeroSlot
    counter := 0
    launches := [] }

theorem hipMine_raises (host : State -> Block -> State) (task : Task)
    (single : task.nonceEnd = task.nonceStart) (easy : task.difficulty = 0) (s : Device) :
    ∃ o t, hipMine host .any false task s o t ∧
      o = (makeSolution host task task.nonceStart).map some ∧ t.resultBuf.flag ≠ 0 ∧
      t.resultBuf.nonce = task.nonceStart := by
  obtain ⟨o, t, mined⟩ := gpuMine_total host task .none false .hip s
  obtain ⟨ls, found, called, same⟩ := gpuMine_ensures (by simp) s o t mined
  refine ⟨o, t, hipMine_within host task .any false s o t mined, ?_⟩
  cases found with
  | none =>
    have vain := called.exhausted rfl (by simp [single]) rfl task.nonceStart.toNat (Nat.le_refl _)
      (by rw [single])
    obtain ⟨numBlocks, v, runs, poor⟩ := vain.poor (called.clean rfl) task.nonceStart rfl
    simp [runs.matched, easy] at poor
  | some nonce =>
    obtain ⟨low, high⟩ := (called.justified nonce rfl).inside
    obtain rfl : nonce = task.nonceStart := UInt64.le_antisymm (single ▸ high) low
    obtain ⟨l, -, after, raised, shown⟩ := called.seen rfl _ rfl
    exact ⟨same, after ▸ raised, after ▸ shown⟩

theorem mineEach_bogus :
    ¬ Proc.Ensures
      (mineEach Fips180.compress .any false .hip
        [⟨.num 1, "", 0, 7, 7⟩, ⟨.num 2, "", 0, 100, 100⟩])
      (fun o _ => ∀ results, o = some results -> ∀ a ∈ results,
        Founded .hip false Fips180.compress a.task a.result a.launches) .blank := by
  intro ensures
  have solved (task : Task)
      (clear : (task.prefixBytes ++ Decimal.text 7).length % 64 ≠ 0) :
      ∃ solution, makeSolution Fips180.compress task 7 = some solution ∧ solution.nonce = 7 := by
    rw [makeSolution_correct, Midstate.finishRaw_absorbed]
    exact ⟨_, by rw [if_neg (fun both => clear both.2)]; rfl, rfl⟩
  obtain ⟨first, made, -⟩ := solved ⟨.num 1, "", 0, 7, 7⟩ (by decide +kernel)
  obtain ⟨second, remade, old⟩ := solved ⟨.num 2, "", 0, 100, 100⟩ (by decide +kernel)
  obtain ⟨o, t, mined, rfl, raised, shown⟩ := hipMine_raises Fips180.compress
    ⟨.num 1, "", 0, 7, 7⟩ rfl rfl .blank
  obtain ⟨u, answered⟩ := hipMine_stale Fips180.compress false
    ⟨.num 2, "", 0, 100, 100⟩ (by decide) (by decide) t raised
  have left : t.resultBuf.nonce = 7 := shown
  rw [left, remade] at answered
  simp only [made, Option.map_some] at mined answered
  have founded := ensures _ u (.inr ⟨_, _, ⟨rfl, rfl⟩, .inr ⟨some first, t, mined,
    .inr ⟨t, t, ⟨rfl, rfl⟩, .inr ⟨_, u, .inr ⟨t, t, ⟨rfl, rfl⟩, .inr ⟨some second, u, answered,
      .inr ⟨u, u, ⟨rfl, rfl⟩, .inr ⟨[], u, ⟨rfl, rfl⟩, rfl, rfl⟩⟩⟩⟩, rfl, rfl⟩⟩⟩⟩) _ rfl
  have outside : (100 : UInt64) ≤ second.nonce :=
    (founded _ (List.mem_cons_of_mem _ (List.mem_singleton_self _)) second rfl).2.1
  rw [old] at outside
  exact absurd outside (by decide)

end

end ScamMiner.Gpu
