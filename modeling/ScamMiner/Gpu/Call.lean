import ScamMiner.Gpu.Host

set_option autoImplicit false

namespace ScamMiner.Gpu

open Fips180 (State Block)

section
variable (dialect : Dialect) (faults : Faults) (spurious : Bool) (host : State -> Block -> State)
  (task : Task)

structure LaunchOf (d : Dispatch) (l : Launch) : Prop where
  data : dispatchData (Midstate.absorbed host IV task.prefixBytes) task.difficulty d =
    some (l.words, l.params)
  ok : DispatchOk d
  low : task.nonceStart.toNat ≤ d.1.toNat
  high : d.1.toNat + d.2.1.toNat ≤ task.nonceEnd.toNat + 1
  size : l.size = globalSize d.2.1
  ran : KernelRun dialect spurious l.words l.params l.size l.before l.after

def Justified (ls : List Launch) (nonce : UInt64) : Prop :=
  ∃ l ∈ ls, ∃ d idx, LaunchOf dialect spurious host task d l ∧ idx < d.2.1 ∧
    Matches dialect l.words l.params idx nonce ∧ nonce = d.1 + idx.toUInt64

def SearchedInVain (ls : List Launch) (n : Nat) : Prop :=
  ∃ l ∈ ls, ∃ d, LaunchOf dialect spurious host task d l ∧ d.1.toNat ≤ n ∧
    n < d.1.toNat + d.2.1.toNat ∧ l.after.flag = 0

/-- Between two chunks, when the first `k` nonces have been dispatched. -/
structure ChunkInv (s : Device) (k : Nat) (t : Device) (ls : List Launch) : Prop where
  history : t.launches = s.launches ++ ls
  launched : ∀ l ∈ ls, ∃ d, LaunchOf dialect spurious host task d l
  slot : t.resultBuf.flag = 0 ∨
    faults ≠ .none ∧ Justified dialect spurious host task ls t.resultBuf.nonce
  clean : faults = .none -> ∀ l ∈ ls, l.before.flag = 0
  covered : faults = .none -> ∀ n, task.nonceStart.toNat ≤ n -> n < task.nonceStart.toNat + k ->
    SearchedInVain dialect spurious host task ls n

/-- After the chunk loop: `found` is what `mine_chunks` returned. -/
structure Called (s t : Device) (ls : List Launch) (found : Option UInt64) : Prop where
  history : t.launches = s.launches ++ ls
  launched : ∀ l ∈ ls, ∃ d, LaunchOf dialect spurious host task d l
  clean : faults = .none -> ∀ l ∈ ls, l.before.flag = 0
  justified : ∀ nonce, found = some nonce -> Justified dialect spurious host task ls nonce
  seen : faults = .none -> ∀ nonce, found = some nonce ->
    ∃ l ∈ ls, l.after = t.resultBuf ∧ l.after.flag ≠ 0 ∧ l.after.nonce = nonce
  exhausted : faults = .none -> task.nonceEnd - task.nonceStart + 1 ≠ 0 -> found = none ->
    ∀ n, task.nonceStart.toNat ≤ n -> n ≤ task.nonceEnd.toNat ->
      SearchedInVain dialect spurious host task ls n

variable {dialect faults spurious host task} {s t u : Device} {k : Nat} {ls more : List Launch}

theorem DispatchOk.nonce_toNat {d : Dispatch} (ok : DispatchOk d) (idx : UInt32) (inside : idx < d.2.1) :
    (d.1 + idx.toUInt64).toNat = d.1.toNat + idx.toNat := by
  have less := UInt32.lt_iff_toNat_lt.mp inside
  have cap := ok.inside
  rw [UInt64.toNat_add, UInt32.toNat_toUInt64]
  exact Nat.mod_eq_of_lt (by omega)

theorem DispatchOk.index {d : Dispatch} (ok : DispatchOk d) (nonce : UInt64)
    (low : d.1.toNat ≤ nonce.toNat) (high : nonce.toNat < d.1.toNat + d.2.1.toNat) :
    ∃ idx, idx < d.2.1 ∧ d.1 + idx.toUInt64 = nonce := by
  have width := d.2.1.toNat_lt
  have index : (UInt32.ofNat (nonce.toNat - d.1.toNat)).toNat = nonce.toNat - d.1.toNat := by
    rw [UInt32.toNat_ofNat']
    exact Nat.mod_eq_of_lt (by omega)
  have inside : UInt32.ofNat (nonce.toNat - d.1.toNat) < d.2.1 := by
    rw [UInt32.lt_iff_toNat_lt, index]
    omega
  refine ⟨_, inside, UInt64.toNat.inj ?_⟩
  rw [ok.nonce_toNat _ inside, index]
  omega

theorem Justified.grow {nonce : UInt64} (justified : Justified dialect spurious host task ls nonce) :
    Justified dialect spurious host task (ls ++ more) nonce := by
  obtain ⟨l, member, rest⟩ := justified
  exact ⟨l, List.mem_append_left _ member, rest⟩

theorem SearchedInVain.grow {n : Nat} (searched : SearchedInVain dialect spurious host task ls n) :
    SearchedInVain dialect spurious host task (ls ++ more) n := by
  obtain ⟨l, member, rest⟩ := searched
  exact ⟨l, List.mem_append_left _ member, rest⟩

theorem SearchedInVain.poor {n : Nat} (searched : SearchedInVain dialect false host task ls n)
    (clean : ∀ l ∈ ls, l.before.flag = 0) (nonce : UInt64) (same : nonce.toNat = n) :
    ∃ numBlocks v, ThreadRuns host task.prefixBytes nonce task.difficulty numBlocks v ∧
      v.matched = false := by
  obtain ⟨l, member, d, launched, low, high, lowered⟩ := searched
  obtain ⟨idx, inside, own⟩ := launched.ok.index nonce (same ▸ low) (same ▸ high)
  have ran := launched.ran
  rw [launched.size] at ran
  obtain ⟨uninit, v, -, runs, poor⟩ := ran.complete launched.ok launched.data (clean l member)
    lowered idx inside
  rw [own] at runs
  exact ⟨_, v, runs, poor⟩

theorem ChunkInv.raised (inv : ChunkInv dialect faults spurious host task s k u ls) {d : Dispatch}
    {l : Launch} (launched : LaunchOf dialect spurious host task d l)
    (before : l.before = u.resultBuf) (set : l.after.flag ≠ 0) :
    Justified dialect spurious host task (ls ++ [l]) l.after.nonce := by
  by_cases reset : l.before.flag = 0
  · obtain ⟨idx, inside, matched, own⟩ := launched.ran.sound launched.ok launched.data reset set
    exact ⟨l, by simp, d, idx, launched, inside, matched, own⟩
  · have same := launched.ran.stale launched.ok launched.data reset
    rcases inv.slot with free | ⟨-, justified⟩
    · exact absurd (before ▸ free) reset
    · rw [same, before]
      exact justified.grow

theorem ChunkInv.recorded (inv : ChunkInv dialect faults spurious host task s k u ls)
    {d : Dispatch} {l : Launch} (launched : LaunchOf dialect spurious host task d l)
    (history : t.launches = u.launches ++ [l]) (before : l.before = u.resultBuf) :
    t.launches = s.launches ++ (ls ++ [l]) ∧
      (∀ l' ∈ ls ++ [l], ∃ d, LaunchOf dialect spurious host task d l') ∧
      (faults = .none -> ∀ l' ∈ ls ++ [l], l'.before.flag = 0) := by
  refine ⟨by rw [history, inv.history, List.append_assoc], fun l' member => ?_,
    fun none l' member => ?_⟩
  · rcases List.mem_append.mp member with old | new
    · exact inv.launched l' old
    · obtain rfl := List.mem_singleton.mp new
      exact ⟨d, launched⟩
  · rcases List.mem_append.mp member with old | new
    · exact inv.clean none l' old
    · obtain rfl := List.mem_singleton.mp new
      rw [before]
      rcases inv.slot with free | ⟨faulty, -⟩
      · exact free
      · exact absurd none faulty

theorem ChunkInv.launch (inv : ChunkInv dialect faults spurious host task s k u ls) {d : Dispatch}
    {l : Launch} (launched : LaunchOf dialect spurious host task d l)
    (first : d.1.toNat = task.nonceStart.toNat + k) (history : t.launches = u.launches ++ [l])
    (before : l.before = u.resultBuf) (after : l.after = t.resultBuf)
    (vain : faults = .none -> l.after.flag = 0) :
    ChunkInv dialect faults spurious host task s (k + d.2.1.toNat) t (ls ++ [l]) := by
  obtain ⟨grown, all, clean⟩ := inv.recorded launched history before
  refine ⟨grown, all, ?_, clean, fun none n above below => ?_⟩
  · by_cases reset : t.resultBuf.flag = 0
    · exact .inl reset
    · refine .inr ⟨fun none => reset (after ▸ vain none), ?_⟩
      rw [← after]
      exact inv.raised launched before (after ▸ reset)
  · by_cases old : n < task.nonceStart.toNat + k
    · exact (inv.covered none n above old).grow
    · exact ⟨l, by simp, d, launched, by omega, by omega, vain none⟩

theorem ChunkInv.step (inv : ChunkInv dialect faults spurious host task s k u ls) {d : Dispatch}
    (ok : DispatchOk d) (first : d.1.toNat = task.nonceStart.toNat + k)
    (inside : d.1.toNat + d.2.1.toNat ≤ task.nonceEnd.toNat + 1) {o : Option ChunkOutcome}
    (step : ChunkStep faults spurious dialect (Midstate.absorbed host IV task.prefixBytes) task d u
      o t) :
    ∃ ls', match o with
      | none => False
      | some .notFound =>
        ChunkInv dialect faults spurious host task s (k + d.2.1.toNat) t ls'
      | some (.found nonce) => Called dialect faults spurious host task s t ls' (some nonce)
      | some .abort => Called dialect faults spurious host task s t ls' none := by
  rcases step with ⟨rfl, faulty, history, -⟩ | ⟨l, history, before, after, data, size, ran, answer⟩
  · exact ⟨ls, by rw [history, inv.history], inv.launched, inv.clean, by simp,
      fun none => absurd none faulty, fun none => absurd none faulty⟩
  · have launched : LaunchOf dialect spurious host task d l := ⟨data, ok, by omega, inside, size, ran⟩
    obtain ⟨grown, all, clean⟩ := inv.recorded launched history before
    refine ⟨ls ++ [l], ?_⟩
    rcases answer with rfl | ⟨faulty, rfl | rfl⟩
    · by_cases reset : l.after.flag = 0
      · simp only [outcomeOf, reset, ne_eq, not_true_eq_false, if_false]
        exact inv.launch launched first history before after fun _ => reset
      · simp only [outcomeOf, ne_eq, reset, not_false_eq_true, if_true]
        refine ⟨grown, all, clean, ?_, ?_, by simp⟩
        · rintro nonce ⟨⟩
          exact inv.raised launched before reset
        · rintro - nonce ⟨⟩
          exact ⟨l, by simp, after, reset, rfl⟩
    · exact ⟨grown, all, clean, by simp, fun none => absurd none faulty,
        fun none => absurd none faulty⟩
    · exact inv.launch launched first history before after fun none => absurd none faulty

theorem makeSolution_correct (nonce : UInt64) :
    makeSolution host task nonce =
      ((Midstate.absorbed host IV task.prefixBytes).finishRaw host (Decimal.text nonce.toNat)).map
        fun state =>
          { taskId := task.id, nonce := nonce, hash := hexLower (stateToBytes state) } := by
  obtain ⟨digits, written, shown⟩ := writeDecimal_correct nonce (Vector.replicate 20 0)
  simp only [makeSolution, Midstate.new_absorbed host IV, Midstate.update_absorbed, List.nil_append,
    written, shown.sliceTo, Midstate.finish, Option.bind_eq_bind, Option.bind_some, Option.pure_def]
  cases (Midstate.absorbed host IV task.prefixBytes).finishRaw host (Decimal.text nonce.toNat) <;> rfl

variable (dialect faults spurious host) in
def gpuReset : Proc Device Bool :=
  match dialect with
  | .wgsl => ignoringErrors (resetResult .none)
  | .opencl => resetResult faults
  | .hip => ignoringErrors (resetResult faults)

theorem gpuMine_eq : gpuMine host faults spurious dialect task =
    mineWith host (gpuReset dialect faults) (gpuChunk faults spurious dialect) task := by
  cases dialect <;> rfl

theorem gpuReset_step (checked : faults = .any -> dialect ≠ .hip) (s : Device) :
    Proc.Ensures (gpuReset dialect faults) (fun o t => t.launches = s.launches ∧
      (o = some true ∧ t.resultBuf.flag = 0 ∨ o = some false ∧ faults ≠ .none)) s := by
  cases dialect with
  | wgsl =>
    simp only [gpuReset, ignoringErrors, resetResult]
    rw [Proc.ensures_bind, ensures_copyToDevice]
    exact ⟨by simp [Proc.Then, zeroSlot], False.elim⟩
  | opencl =>
    simp only [gpuReset, resetResult]
    rw [ensures_copyToDevice]
    refine ⟨by simp [zeroSlot], fun fails => ⟨rfl, .inr ⟨rfl, ?_⟩⟩⟩
    rintro rfl
    exact fails
  | hip =>
    simp only [gpuReset, ignoringErrors, resetResult]
    rw [Proc.ensures_bind, ensures_copyToDevice]
    refine ⟨by simp [Proc.Then, zeroSlot], fun fails => ?_⟩
    have lowered := faults.unnoticed (fun any => checked any rfl) fails
    simp [Proc.Then, lowered]

variable (dialect faults spurious host task) in
def gpuSearch : Proc Device (Option UInt64) :=
  if task.nonceEnd < task.nonceStart then return none
  else if task.nonceEnd - task.nonceStart + 1 = 0 then return none
  else do
    let mid ← Proc.ofOption ((Midstate.new IV).update host task.prefixBytes)
    if ← gpuReset dialect faults then
      mineChunks fetchAdd (gpuChunk faults spurious dialect mid task) task.nonceStart
        (task.nonceEnd - task.nonceStart + 1)
    else return none

variable (host task) in
def returned : Option UInt64 -> Proc Device (Option Solution)
  | some nonce => do return some (← Proc.ofOption (makeSolution host task nonce))
  | none => return none

theorem gpuMine_search : gpuMine host faults spurious dialect task =
    gpuSearch dialect faults spurious host task >>= returned host task := by
  have nothing : (pure none >>= returned host task : Proc Device (Option Solution)) = pure none :=
    Proc.pure_bind_eq none _
  rw [gpuMine_eq]
  unfold mineWith gpuSearch
  by_cases reversed : task.nonceEnd < task.nonceStart
  · simp only [if_pos reversed, nothing]
  by_cases zero : task.nonceEnd - task.nonceStart + 1 = 0
  · simp only [if_neg reversed, if_pos zero, nothing]
  simp only [if_neg reversed, if_neg zero, Proc.bind_assoc_eq]
  congr 1
  funext mid
  congr 1
  funext ready
  cases ready with
  | true => rfl
  | false => exact nothing.symm

theorem ChunkInv.initial (history : t.launches = s.launches) (lowered : t.resultBuf.flag = 0) :
    ChunkInv dialect faults spurious host task s 0 t [] :=
  ⟨by simp [history], by simp, .inl lowered, by simp, fun _ n above below => by omega⟩

theorem gpuLoop_ensures (checked : faults = .any -> dialect ≠ .hip)
    (ordered : task.nonceStart ≤ task.nonceEnd) (history : t.launches = s.launches)
    (lowered : t.resultBuf.flag = 0) :
    Proc.Ensures (mineChunks fetchAdd
        (gpuChunk faults spurious dialect (Midstate.absorbed host IV task.prefixBytes) task)
        task.nonceStart (task.nonceEnd - task.nonceStart + 1))
      (Proc.Then (fun found u => ∃ ls, Called dialect faults spurious host task s u ls found)
        fun _ => False) t := by
  have fits := range_fits task.nonceStart task.nonceEnd ordered
  have low := UInt64.le_iff_toNat_le.mp ordered
  have size : (task.nonceEnd - task.nonceStart + 1).toNat =
      (task.nonceEnd.toNat - task.nonceStart.toNat + 1) % 2 ^ 64 := by
    rw [UInt64.toNat_add, UInt64.toNat_sub_of_le _ _ ordered]
    rfl
  have capped : (task.nonceEnd - task.nonceStart + 1).toNat ≤
      task.nonceEnd.toNat - task.nonceStart.toNat + 1 := size ▸ Nat.mod_le _ _
  refine mineChunks_rule fetchAdd _ _ _ fits
    (fun k u => ∃ ls, ChunkInv dialect faults spurious host task s k u ls) _ ?_ ?_ t
    ⟨[], .initial history lowered⟩
  · rintro k u chunkStart c nd ⟨ls, inv⟩ first within ok
    obtain ⟨words, params, data, -, -⟩ := dispatch_runs host task.prefixBytes task.difficulty
      (chunkStart, c, nd) ok
    simp only [fetchAdd, Proc.ensures_bind, Proc.ensures_modify, Proc.Then]
    refine (chunk_step dialect checked chunkStart c nd data _).mono fun o v step => ?_
    have counted : ChunkInv dialect faults spurious host task s k
        { u with counter := u.counter + c.toUInt64 } ls :=
      ⟨inv.history, inv.launched, inv.slot, inv.clean, inv.covered⟩
    obtain ⟨ls', next⟩ := counted.step ok first (by simp only; omega) step
    rcases o with _ | _ | nonce | _
    · exact next
    · exact ⟨ls', next⟩
    · exact ⟨ls', next⟩
    · exact ⟨ls', next⟩
  · rintro u ⟨ls, inv⟩
    refine ⟨ls, inv.history, inv.launched, inv.clean, by simp, by simp, ?_⟩
    intro none nonempty _ n above below
    have positive : (task.nonceEnd - task.nonceStart + 1).toNat ≠ 0 :=
      fun zero => nonempty (UInt64.toNat.inj zero)
    have bound := task.nonceEnd.toNat_lt
    refine inv.covered none n above ?_
    omega

theorem Called.idle (history : t.launches = s.launches)
    (excused : faults = .none -> task.nonceEnd < task.nonceStart ∨
      task.nonceEnd - task.nonceStart + 1 = 0) :
    Called dialect faults spurious host task s t [] none := by
  refine ⟨by simp [history], by simp, by simp, by simp, by simp, fun none counted _ n above below => ?_⟩
  rcases excused none with reversed | zero
  · have less := UInt64.lt_iff_toNat_lt.mp reversed
    omega
  · exact absurd zero counted

theorem gpuSearch_ensures (checked : faults = .any -> dialect ≠ .hip) (s : Device) :
    Proc.Ensures (gpuSearch dialect faults spurious host task)
      (Proc.Then (fun found t => ∃ ls, Called dialect faults spurious host task s t ls found)
        fun _ => False) s := by
  unfold gpuSearch
  by_cases reversed : task.nonceEnd < task.nonceStart
  · simp only [if_pos reversed, Proc.ensures_pure]
    exact ⟨[], .idle rfl fun _ => .inl reversed⟩
  by_cases zero : task.nonceEnd - task.nonceStart + 1 = 0
  · simp only [if_neg reversed, if_pos zero, Proc.ensures_pure]
    exact ⟨[], .idle rfl fun _ => .inr zero⟩
  have ordered : task.nonceStart ≤ task.nonceEnd := by
    rw [UInt64.lt_iff_toNat_lt] at reversed
    rw [UInt64.le_iff_toNat_le]
    omega
  simp only [if_neg reversed, if_neg zero]
  rw [Proc.ensures_bind, Proc.ensures_ofOption, Midstate.new_absorbed host IV,
    Midstate.update_absorbed, List.nil_append]
  simp only [Proc.Then]
  rw [Proc.ensures_bind]
  refine (gpuReset_step checked s).mono ?_
  rintro o t ⟨history, ⟨rfl, lowered⟩ | ⟨rfl, faulty⟩⟩
  · simp only [Proc.Then, if_true]
    exact gpuLoop_ensures checked ordered history lowered
  · simp only [Proc.Then, Bool.false_eq_true, if_false, Proc.ensures_pure]
    exact ⟨[], .idle history fun none => absurd none faulty⟩

theorem ensures_returned (found : Option UInt64) (post : Option (Option Solution) -> Device -> Prop)
    (s : Device) : Proc.Ensures (returned host task found) post s ↔
      post (match found with
        | none => some none
        | some nonce => (makeSolution host task nonce).map some) s := by
  cases found with
  | none => exact Proc.ensures_pure _ _ _
  | some nonce =>
    rw [returned, Proc.ensures_bind, Proc.ensures_ofOption]
    cases made : makeSolution host task nonce with
    | none => simp [Proc.Then, made]
    | some solution => simp [Proc.Then, made]

theorem gpuMine_ensures (checked : faults = .any -> dialect ≠ .hip) (s : Device) :
    Proc.Ensures (gpuMine host faults spurious dialect task)
      (fun o t => ∃ ls found, Called dialect faults spurious host task s t ls found ∧
        o = match found with
          | none => some none
          | some nonce => (makeSolution host task nonce).map some) s := by
  rw [gpuMine_search, Proc.ensures_bind]
  refine (gpuSearch_ensures checked s).mono fun o t searched => ?_
  cases o with
  | none => exact searched.elim
  | some found =>
    obtain ⟨ls, called⟩ := searched
    exact (ensures_returned found _ t).mpr ⟨ls, found, called, rfl⟩

end

end ScamMiner.Gpu
