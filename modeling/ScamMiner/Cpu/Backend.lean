import ScamMiner.Cpu.Mine

set_option autoImplicit false

namespace ScamMiner.Cpu

open Fips180 (State Block)
open Transition (Run)

def Job.ofTask (compress256 : State -> Block -> State) (task : Task) : Option Job := do
  let mid ← (Midstate.new IV).update compress256 task.prefixBytes
  return { start := task.nonceStart, end_ := task.nonceEnd, diff := task.difficulty
           hash := mid.finishRaw compress256 }

theorem Job.ofTask_correct (compress256 : State -> Block -> State) (task : Task) :
    Job.ofTask compress256 task = some
      { start := task.nonceStart, end_ := task.nonceEnd, diff := task.difficulty
        hash := (Midstate.absorbed compress256 IV task.prefixBytes).finishRaw compress256 } := by
  simp only [Job.ofTask, Midstate.new_absorbed compress256 IV, Midstate.update_absorbed,
    List.nil_append, Option.bind_eq_bind, Option.bind_some, Option.pure_def]

-- A reversed range returns before any worker is spawned.
def Sys.enter (job : Job) (cores : Nat) (counter : UInt64) (shutdown : Bool) : Sys cores :=
  if job.end_ < job.start then
    { Sys.start job cores counter shutdown with workers := fun _ => { Worker.spawn with pc := .done } }
  else .start job cores counter shutdown

section
variable {job : Job} {cores : Nat} {counter : UInt64} {shutdown : Bool} {s t : Sys cores}

theorem Sys.enter_ordered (ordered : job.start ≤ job.end_) :
    Sys.enter job cores counter shutdown = .start job cores counter shutdown := by
  refine if_neg fun reversed => ?_
  rw [UInt64.lt_iff_toNat_lt] at reversed
  rw [UInt64.le_iff_toNat_le] at ordered
  omega

structure Sys.Idle (counter : UInt64) (sys : Sys cores) : Prop where
  joined : sys.Joined
  found : sys.shared.found = none
  counter : sys.shared.counter = counter

theorem Sys.enter_reversed (reversed : job.end_ < job.start) :
    (Sys.enter job cores counter shutdown).Idle counter := by
  rw [Sys.enter, if_pos reversed]
  exact ⟨⟨rfl, fun _ => rfl⟩, rfl, rfl⟩

theorem Sys.Idle.step (idle : s.Idle counter) (step : Step job s t) :
    t.Idle counter ∧ s.shared.shutdown = false ∧ t.shared.shutdown = true := by
  cases step with
  | worker i e alive active moves => exact absurd (idle.joined.2 i) active
  | panic i alive active panics => exact absurd (idle.joined.2 i) active
  | interrupt alive quiet => exact ⟨⟨idle.joined, idle.found, idle.counter⟩, quiet, rfl⟩

theorem Sys.Idle.run {n : Nat} (idle : s.Idle counter) (run : Run (Step job) n s t) :
    n ≤ 1 ∧ t.Idle counter := by
  have bound := run.bounded (fun s t (idle : s.Idle counter) step => (idle.step step).1)
    (fun s t (idle : s.Idle counter) step => show t.shared.shutdown.not.toNat <
      s.shared.shutdown.not.toNat by simp [(idle.step step).2]) idle
  have most := Bool.toNat_le s.shared.shutdown.not
  exact ⟨by omega, run.invariant (fun s t (idle : s.Idle counter) step => (idle.step step).1) idle⟩

end

structure CpuBackend where
  cores : Nat
  positive : 1 ≤ cores

def CpuBackend.new (cores : Nat) : CpuBackend :=
  { cores := max cores 1, positive := Nat.le_max_right _ _ }

def Sys.solution {cores : Nat} (task : Task) (sys : Sys cores) : Option Solution :=
  sys.shared.found.map fun (nonce, hash) =>
    { taskId := task.id, nonce := nonce, hash := hexLower hash }

theorem workerStep_hash {job : Job} {w : Worker} (ok : WorkerOk job w)
    (hash : List UInt8 -> Option State) (s : Shared)
    (same : ∀ base hi nonce, w.pc = .scan base hi nonce ->
      hash (Decimal.text nonce.toNat) = job.hash (Decimal.text nonce.toNat)) :
    workerStep { job with hash := hash } s w = workerStep job s w := by
  unfold workerStep
  cases pc : w.pc with
  | scan base hi nonce =>
    obtain ⟨digits, nLen, buffered, shown⟩ := nonceDigits_correct job w base hi nonce pc ok
    simp only [scanStep, buffered, shown.sliceTo, Option.bind_eq_bind, Option.bind_some,
      same base hi nonce pc]
  | _ => rfl

def Sys.solo (shared : Shared) (w : Worker) (claims : Nat) (hashed : List (UInt64 × List UInt8)) :
    Sys 1 :=
  { shared := shared, workers := fun _ => w, claims := claims, hashed := hashed, aborted := false }

theorem Sys.solo_step {job : Job} {shared : Shared} {w : Worker} {claims : Nat}
    {hashed : List (UInt64 × List UInt8)} {e : Effect} (active : w.pc ≠ .done)
    (moves : workerStep job shared w = some e) :
    Step job (Sys.solo shared w claims hashed)
      (Sys.solo e.shared e.worker (claims + e.claimed) (e.hashed ++ hashed)) := by
  have after : Sys.solo e.shared e.worker (claims + e.claimed) (e.hashed ++ hashed) =
      (Sys.solo shared w claims hashed).after 0 e := by
    have one : (fun _ : Fin 1 => e.worker) = Function.update (fun _ => w) 0 e.worker := by
      funext i
      rw [Subsingleton.elim i 0, Function.update_self]
    rw [Sys.solo, one]
    rfl
  rw [after]
  exact .worker _ 0 e rfl active moves

theorem Sys.solo_panic {job : Job} {shared : Shared} {w : Worker} {claims : Nat}
    {hashed : List (UInt64 × List UInt8)} (active : w.pc ≠ .done)
    (panics : workerStep job shared w = none) :
    Step job (Sys.solo shared w claims hashed) (Sys.solo shared w claims hashed).abort :=
  .panic _ 0 rfl active panics

theorem Sys.solo_flags {job : Job} {shared : Shared} {w : Worker} {claims : Nat}
    {hashed : List (UInt64 × List UInt8)} (head : w.pc = .loadStop) (quiet : shared.stop = false)
    (running : shared.shutdown = false) :
    Run (Step job) 2 (Sys.solo shared w claims hashed)
      (Sys.solo shared { w with pc := .claim } claims hashed) := by
  have first : workerStep job shared w =
      some { shared := shared, worker := { w with pc := .loadShutdown } } := by
    simp [workerStep, head, quiet]
  have second : workerStep job shared { w with pc := .loadShutdown } =
      some { shared := shared, worker := { w with pc := .claim } } := by
    simp [workerStep, running]
  exact .tail (.tail (.refl _) (Sys.solo_step (by simp [head]) first))
    (Sys.solo_step (by simp) second)

theorem Sys.solo_claims (job : Job) (ordered : job.start.toNat ≤ job.end_.toNat)
    (fits : job.start.toNat + 255 < 2 ^ 64) (counter : UInt64) :
    ∃ shared w hi, Run (Step job) 3 (Sys.start job 1 counter false) (Sys.solo shared w 1 []) ∧
      shared.shutdown = false ∧ w.pc = .scan job.start hi job.start ∧ WorkerOk job w := by
  let shared : Shared :=
    { next := job.start, stop := false, found := none, counter := counter, shutdown := false }
  obtain ⟨e, claims, move⟩ := claimStep_correct job shared { Worker.spawn with pc := .claim } rfl
    fun _ => fits
  have run : Run (Step job) 3 (Sys.start job 1 counter false) _ :=
    .tail (Sys.solo_flags rfl rfl rfl) (Sys.solo_step (by simp) claims)
  cases move with
  | overrun pc beyond =>
    simp only [shared] at beyond
    omega
  | batch hi digits nLen pc inside top shown =>
    refine ⟨_, _, hi, run, rfl, rfl, ?_⟩
    simp only [shared] at top shown
    simp only [WorkerOk, shared, UInt64.lt_irrefl, if_false]
    exact ⟨Nat.le_refl _, Nat.le_refl _, by omega, by omega, by omega, shown⟩
  | _ => simp_all

theorem first_nonce_panics (job : Job) (ordered : job.start.toNat ≤ job.end_.toNat)
    (fits : job.start.toNat + 255 < 2 ^ 64)
    (undefined : job.hash (Decimal.text job.start.toNat) = none) (counter : UInt64) :
    ∃ n sys, Run (Step job) n (Sys.start job 1 counter false) sys ∧ sys.aborted = true := by
  obtain ⟨shared, w, hi, run, -, pc, ok⟩ := Sys.solo_claims job ordered fits counter
  have panics : workerStep job shared w = none := by
    obtain ⟨digits, nLen, buffered, shown⟩ := nonceDigits_correct job w _ hi _ pc ok
    simp only [workerStep, pc, scanStep, buffered, shown.sliceTo, undefined, Option.bind_eq_bind,
      Option.bind_some, Option.bind_none]
  exact ⟨4, _, .tail run (Sys.solo_panic (by simp [pc]) panics), rfl⟩

-- The last nonce of all: `base + BATCH` wraps, so its batch is empty and nonce 255 comes next.
theorem last_nonce_skipped (job : Job) (start : job.start = 0xffffffffffffffff)
    (end_ : job.end_ = 0xffffffffffffffff)
    (defined : (job.hash (Decimal.text 255)).isSome = true) (counter : UInt64) :
    ∃ n sys, Run (Step job) n (Sys.start job 1 counter false) sys ∧
      ∃ entry ∈ sys.hashed, entry.1 = 255 := by
  obtain ⟨_, _, diff, hash⟩ := job
  subst start end_
  let job : Job := { start := 0xffffffffffffffff, end_ := 0xffffffffffffffff, diff := diff
                     hash := hash }
  let shared (next : UInt64) : Shared :=
    { next := next, stop := false, found := none, counter := counter, shutdown := false }
  obtain ⟨first, written, -⟩ := writeDecimal_correct 0xffffffffffffffff (Vector.replicate 20 0)
  obtain ⟨second, rewritten, shown⟩ := writeDecimal_correct 255 first
  obtain ⟨state, hashed⟩ := Option.isSome_iff_exists.mp defined
  let skipped (pc : Pc) : Worker :=
    { pc := pc, localCount := 0, digits := first
      nLen := (Decimal.digits (UInt64.toNat 0xffffffffffffffff)).length }
  let scanning : Worker :=
    { pc := .scan 255 510 255, localCount := 0, digits := second
      nLen := (Decimal.digits (UInt64.toNat 255)).length }
  have empty : workerStep job (shared 0xffffffffffffffff) { Worker.spawn with pc := .claim } =
      some { shared := shared 255, worker := skipped .loadStop, claimed := 1 } := by
    have inside : ¬ (0xffffffffffffffff : UInt64) < 0xffffffffffffffff := by decide
    have none : ¬ (0xffffffffffffffff : UInt64) ≤
        min (0xffffffffffffffff + BATCH - 1) 0xffffffffffffffff := by decide
    simp only [workerStep, claimStep, shared, job, Worker.spawn, if_neg inside, written,
      Option.bind_eq_bind, Option.bind_some, Option.pure_def, if_neg none]
    rfl
  have wrapped : workerStep job (shared 255) (skipped .claim) =
      some { shared := shared 511, worker := scanning, claimed := 1 } := by
    simp only [workerStep, claimStep, shared, job, skipped, rewritten]
    rfl
  have scans : ∃ e, workerStep job (shared 511) scanning = some e ∧
      e.hashed = [(255, Decimal.text 255)] := by
    have digits : nonceDigits scanning 255 255 = some (second, scanning.nLen) := rfl
    simp only [workerStep, scanStep, scanning, digits, Option.bind_eq_bind, Option.bind_some,
      shown.sliceTo, Option.pure_def]
    have digest : job.hash (Decimal.text (UInt64.toNat 255)) = some state := hashed
    rw [digest]
    exact ⟨_, rfl, rfl⟩
  obtain ⟨e, moves, logged⟩ := scans
  have run : Run (Step job) 7 (Sys.solo (shared 0xffffffffffffffff) .spawn 0 []) _ :=
    .tail ((Run.tail (Sys.solo_flags rfl rfl rfl) (Sys.solo_step (by simp) empty)).append
      (.tail (Sys.solo_flags rfl rfl rfl) (Sys.solo_step (by simp) wrapped)))
      (Sys.solo_step (by simp [scanning]) moves)
  exact ⟨7, _, run, (255, Decimal.text 255), by simp [Sys.solo, logged], rfl⟩

end ScamMiner.Cpu
