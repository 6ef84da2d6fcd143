import ScamMiner.Cpu.Backend

set_option autoImplicit false

namespace ScamMiner.Cpu

open Transition (Run total total_update)

def Pc.Spans : Pc -> Prop
  | .scan _ hi nonce => nonce.toNat ≤ hi.toNat ∧ hi.toNat ≤ nonce.toNat + 255
  | _ => True

def Pc.hashesLeft (shutdown : Bool) : Pc -> Nat
  | .loadShutdown => if shutdown then 0 else 256
  | .claim => 256
  | .scan _ hi nonce => hi.toNat - nonce.toNat + 1
  | _ => 0

def Pc.claimsLeft (shutdown : Bool) : Pc -> Nat
  | .loadShutdown => if shutdown then 0 else 1
  | .claim => 1
  | _ => 0

def Pc.stepsLeft (shutdown : Bool) : Pc -> Nat
  | .loadStop => 3
  | .loadShutdown => if shutdown then 2 else 262
  | .claim => 261
  | .scan _ hi nonce => hi.toNat - nonce.toNat + 5
  | .record _ _ => 3
  | .raise => 2
  | .creditHit => 1
  | .credit => 4
  | .creditExit => 1
  | .done => 0

structure Late (shutdown : Bool) (pc : Pc) (e : Effect) : Prop where
  hashes : e.hashed.length + e.worker.pc.hashesLeft shutdown ≤ pc.hashesLeft shutdown
  claims : e.claimed + e.worker.pc.claimsLeft shutdown ≤ pc.claimsLeft shutdown
  steps : e.worker.pc.stepsLeft shutdown < pc.stepsLeft shutdown

section
variable {job : Job} {s : Shared} {w : Worker} {e : Effect} {shutdown : Bool}

theorem Pc.hashesLeft_le {pc : Pc} (shutdown : Bool) (spans : pc.Spans) : pc.hashesLeft shutdown ≤ 256 := by
  cases pc with
  | loadShutdown => cases shutdown <;> simp [Pc.hashesLeft]
  | scan base hi nonce =>
    obtain ⟨-, short⟩ := spans
    simp only [Pc.hashesLeft]
    omega
  | claim => exact Nat.le_refl _
  | _ => exact Nat.zero_le _

theorem Pc.claimsLeft_le (shutdown : Bool) (pc : Pc) : pc.claimsLeft shutdown ≤ 1 := by
  cases pc with
  | loadShutdown => cases shutdown <;> simp [Pc.claimsLeft]
  | claim => exact Nat.le_refl _
  | _ => exact Nat.zero_le _

theorem Pc.stepsLeft_le {pc : Pc} (shutdown : Bool) (spans : pc.Spans) : pc.stepsLeft shutdown ≤ 262 := by
  cases pc with
  | loadShutdown => cases shutdown <;> simp [Pc.stepsLeft]
  | scan base hi nonce =>
    obtain ⟨-, short⟩ := spans
    simp only [Pc.stepsLeft]
    omega
  | _ => simp [Pc.stepsLeft]

theorem Pc.interrupted_le (pc : Pc) : pc.hashesLeft true ≤ pc.hashesLeft false ∧
    pc.claimsLeft true ≤ pc.claimsLeft false ∧ pc.stepsLeft true ≤ pc.stepsLeft false := by
  cases pc <;> simp [Pc.hashesLeft, Pc.claimsLeft, Pc.stepsLeft]

theorem afterBatch_pc (w : Worker) :
    (afterBatch w).pc = .credit ∨ (afterBatch w).pc = .loadStop := by
  simp only [afterBatch]
  split
  · exact .inl rfl
  · exact .inr rfl

theorem afterBatch_late (shutdown : Bool) (w : Worker) : (afterBatch w).pc.Spans ∧
    (afterBatch w).pc.hashesLeft shutdown = 0 ∧ (afterBatch w).pc.claimsLeft shutdown = 0 ∧
    (afterBatch w).pc.stepsLeft shutdown ≤ 4 := by
  rcases afterBatch_pc w with pc | pc <;> rw [pc] <;> exact ⟨trivial, rfl, rfl, by simp [Pc.stepsLeft]⟩

-- The top of a batch is at most 255 above its base; a batch that wraps is empty.
theorem batch_spans (base end_ : UInt64) (some_ : base ≤ min (base + BATCH - 1) end_) :
    (Pc.scan base (min (base + BATCH - 1) end_) base).Spans := by
  rw [batch_top] at some_ ⊢
  rw [UInt64.le_iff_toNat_le, UInt64.toNat_min, UInt64.toNat_add] at some_
  simp only [Pc.Spans, UInt64.toNat_min, UInt64.toNat_add]
  simp only [UInt64.reduceToNat] at some_ ⊢
  omega

theorem claimStep_late (step : claimStep job s w = some e) (pc : w.pc = .claim) :
    e.worker.pc.Spans ∧ Late shutdown w.pc e ∧ e.shared.stop = s.stop ∧
      e.shared.shutdown = s.shutdown := by
  unfold claimStep at step
  by_cases beyond : job.end_ < s.next
  · simp only [beyond, if_true, Option.some.injEq] at step
    subst step
    exact ⟨trivial, ⟨by simp [Pc.hashesLeft], by simp [Pc.claimsLeft, pc],
      by simp [Pc.stepsLeft, pc]⟩, rfl, rfl⟩
  · simp only [beyond, if_false, Option.bind_eq_bind, Option.bind_eq_some_iff] at step
    obtain ⟨⟨nLen, digits⟩, -, same⟩ := step
    simp only [Option.pure_def, Option.some.injEq] at same
    subst same
    by_cases some_ : s.next ≤ min (s.next + BATCH - 1) job.end_
    · have spans := batch_spans s.next job.end_ some_
      have few := Pc.hashesLeft_le shutdown spans
      simp only [some_, if_true]
      refine ⟨spans, ⟨?_, by simp [Pc.claimsLeft, pc], ?_⟩, trivial, trivial⟩
      · rw [pc]
        simpa [Pc.hashesLeft] using few
      · rw [pc]
        simp only [Pc.hashesLeft] at few
        simp only [Pc.stepsLeft]
        omega
    · simp only [some_, if_false]
      obtain ⟨spans, hashes, claims, steps⟩ := afterBatch_late shutdown
        { w with digits := digits, nLen := nLen }
      refine ⟨spans, ⟨?_, ?_, ?_⟩, trivial, trivial⟩
      · simp [hashes]
      · rw [claims, pc]
        exact Nat.le_refl 1
      · rw [pc]
        exact Nat.lt_of_le_of_lt steps (by simp [Pc.stepsLeft])

theorem scanStep_late {base hi nonce : UInt64} (step : scanStep job s w base hi nonce = some e)
    (pc : w.pc = .scan base hi nonce) (spans : w.pc.Spans) :
    e.worker.pc.Spans ∧ Late shutdown w.pc e ∧ e.shared = s := by
  rw [pc] at spans ⊢
  obtain ⟨below, short⟩ := spans
  simp only [scanStep, Option.bind_eq_bind, Option.bind_eq_some_iff] at step
  obtain ⟨⟨digits, nLen⟩, -, tail, -, state, -, same⟩ := step
  simp only [Option.pure_def, Option.some.injEq] at same
  subst same
  cases good : checkStateDifficulty state job.diff with
  | true =>
    simp only [if_true]
    exact ⟨trivial, ⟨by simp [Pc.hashesLeft], by simp [Pc.claimsLeft],
      by simp [Pc.stepsLeft]⟩, trivial⟩
  | false =>
    simp only [Bool.false_eq_true, if_false]
    by_cases more : nonce < hi
    · have less := UInt64.lt_iff_toNat_lt.mp more
      have next : (nonce + 1).toNat = nonce.toNat + 1 := by
        have top := hi.toNat_lt
        rw [UInt64.toNat_add]
        simp only [UInt64.reduceToNat]
        omega
      simp only [more, if_true]
      refine ⟨?_, ⟨?_, by simp [Pc.claimsLeft], ?_⟩, trivial⟩
      · rw [Pc.Spans, next]
        omega
      · simp only [Pc.hashesLeft, next, List.length_singleton]
        omega
      · simp only [Pc.stepsLeft, next]
        omega
    · simp only [more, if_false]
      obtain ⟨spans, hashes, claims, steps⟩ := afterBatch_late shutdown
        { w with digits := digits, nLen := nLen, localCount := w.localCount + 1 }
      refine ⟨spans, ⟨?_, ?_, ?_⟩, trivial⟩
      · rw [hashes, Pc.hashesLeft]
        simp
      · rw [claims]
        exact Nat.zero_le _
      · exact Nat.lt_of_le_of_lt steps (by simp [Pc.stepsLeft])

theorem workerStep_late (step : workerStep job s w = some e) (active : w.pc ≠ .done)
    (spans : w.pc.Spans) : e.worker.pc.Spans ∧ (s.stop = true -> e.shared.stop = true) ∧
      e.shared.shutdown = s.shutdown ∧
      (s.stop = true ∨ s.shutdown = true -> Late s.shutdown w.pc e) := by
  unfold workerStep at step
  cases pc : w.pc with
  | claim =>
    simp only [pc] at step
    obtain ⟨next, late, stop, down⟩ := claimStep_late step pc
    exact ⟨next, stop ▸ id, down, fun _ => pc ▸ late⟩
  | scan base hi nonce =>
    simp only [pc] at step
    obtain ⟨next, late, same⟩ := scanStep_late step pc spans
    exact ⟨next, same ▸ id, same ▸ rfl, fun _ => pc ▸ late⟩
  | done => exact absurd pc active
  | loadStop =>
    simp only [pc, Option.some.injEq] at step
    subst step
    refine ⟨by cases s.stop <;> trivial, id, rfl, fun raised => ?_⟩
    cases up : s.stop with
    | true => constructor <;> simp [Pc.hashesLeft, Pc.claimsLeft, Pc.stepsLeft]
    | false =>
      have down : s.shutdown = true := raised.resolve_left (by simp [up])
      rw [down]
      constructor <;> simp [Pc.hashesLeft, Pc.claimsLeft, Pc.stepsLeft]
  | loadShutdown =>
    simp only [pc, Option.some.injEq] at step
    subst step
    refine ⟨by cases s.shutdown <;> trivial, id, rfl, fun _ => ?_⟩
    cases s.shutdown <;> constructor <;> simp [Pc.hashesLeft, Pc.claimsLeft, Pc.stepsLeft]
  | _ =>
    simp only [pc, Option.some.injEq] at step
    subst step
    refine ⟨trivial, ?_, rfl, fun _ => ?_⟩
    · simp
    · constructor <;> simp [Pc.hashesLeft, Pc.claimsLeft, Pc.stepsLeft]

end

section
variable {job : Job} {cores : Nat} {s t : Sys cores}

/-- What has happened since a flag was raised at `s`, and what the workers still may do. -/
structure Braked (s t : Sys cores) : Prop where
  raised : t.shared.stop = true ∨ t.shared.shutdown = true
  spans : ∀ i, (t.workers i).pc.Spans
  hashes : t.hashed.length + total (fun w => w.pc.hashesLeft t.shared.shutdown) t.workers ≤
    s.hashed.length + cores * 256
  claims : t.claims + total (fun w => w.pc.claimsLeft t.shared.shutdown) t.workers ≤
    s.claims + cores * 1

def Sys.stepsLeft (t : Sys cores) : Nat :=
  total (fun w => w.pc.stepsLeft t.shared.shutdown) t.workers + (!t.shared.shutdown).toNat +
    (!t.aborted).toNat

theorem Step.spans (s t : Sys cores) (spans : ∀ i, (s.workers i).pc.Spans) (step : Step job s t) :
    ∀ i, (t.workers i).pc.Spans := by
  cases step with
  | worker i e alive active moves =>
    intro j
    by_cases same : j = i
    · subst same
      simpa only [Sys.after, Function.update_self] using (workerStep_late moves active (spans j)).1
    · simpa only [Sys.after, Function.update_of_ne same] using spans j
  | panic i alive active panics => exact spans
  | interrupt alive quiet => exact spans

theorem Braked.step (s t u : Sys cores) (braked : Braked s t) (step : Step job t u) :
    Braked s u ∧ u.stepsLeft < t.stepsLeft := by
  have next := step.spans t u braked.spans
  have hashes := braked.hashes
  have claims := braked.claims
  cases step with
  | worker i e alive active moves =>
    obtain ⟨-, stop, down, slows⟩ := workerStep_late moves active (braked.spans i)
    have late := slows braked.raised
    have hashed := total_update (fun w => w.pc.hashesLeft t.shared.shutdown) t.workers i e.worker
    have claimed := total_update (fun w => w.pc.claimsLeft t.shared.shutdown) t.workers i e.worker
    have moved := total_update (fun w => w.pc.stepsLeft t.shared.shutdown) t.workers i e.worker
    obtain ⟨few, fewer, less⟩ := late
    refine ⟨⟨?_, next, ?_, ?_⟩, ?_⟩
    · exact braked.raised.imp stop down.trans
    · simp only [Sys.after, down, List.length_append]
      omega
    · simp only [Sys.after, down]
      omega
    · simp only [Sys.stepsLeft, Sys.after, down]
      omega
  | panic i alive active panics =>
    exact ⟨⟨braked.raised, next, hashes, claims⟩, by simp [Sys.stepsLeft, Sys.abort, alive]⟩
  | interrupt alive quiet =>
    have fewer (i : Fin cores) := (t.workers i).pc.interrupted_le
    have hashed := Transition.total_mono (fun w => w.pc.hashesLeft true)
      (fun w => w.pc.hashesLeft false) t.workers fun i => (fewer i).1
    have claimed := Transition.total_mono (fun w => w.pc.claimsLeft true)
      (fun w => w.pc.claimsLeft false) t.workers fun i => (fewer i).2.1
    have moved := Transition.total_mono (fun w => w.pc.stepsLeft true)
      (fun w => w.pc.stepsLeft false) t.workers fun i => (fewer i).2.2
    rw [quiet] at hashes claims
    refine ⟨⟨.inr rfl, next, ?_, ?_⟩, ?_⟩
    · simp only [Sys.interrupt]
      omega
    · simp only [Sys.interrupt]
      omega
    · simp only [Sys.stepsLeft, Sys.interrupt, quiet, Bool.not_true, Bool.not_false,
        Bool.toNat_true, Bool.toNat_false]
      omega

theorem Braked.first (raised : s.shared.stop = true ∨ s.shared.shutdown = true)
    (spans : ∀ i, (s.workers i).pc.Spans) : Braked s s ∧ s.stepsLeft ≤ cores * 262 + 2 := by
  have hashes := Transition.total_le (fun w => w.pc.hashesLeft s.shared.shutdown) s.workers 256
    fun i => Pc.hashesLeft_le _ (spans i)
  have claims := Transition.total_le (fun w => w.pc.claimsLeft s.shared.shutdown) s.workers 1
    fun i => Pc.claimsLeft_le _ _
  have steps := Transition.total_le (fun w => w.pc.stepsLeft s.shared.shutdown) s.workers 262
    fun i => Pc.stepsLeft_le _ (spans i)
  have quiet := (!s.shared.shutdown).toNat_le
  have alive := (!s.aborted).toNat_le
  refine ⟨⟨raised, spans, by omega, by omega⟩, ?_⟩
  unfold Sys.stepsLeft
  omega

/-- Once a hit or Ctrl-C has raised a flag, each worker claims at most one more batch and hashes at
most 256 more nonces, and the call ends within a number of steps that the range does not enter. -/
theorem mine_stops_soon {counter : UInt64} {shutdown : Bool} {j k : Nat}
    (run : Run (Step job) j (Sys.start job cores counter shutdown) s)
    (raised : s.shared.stop = true ∨ s.shared.shutdown = true) (late : Run (Step job) k s t) :
    k ≤ cores * 262 + 2 ∧ t.hashed.length ≤ s.hashed.length + cores * 256 ∧
      t.claims ≤ s.claims + cores := by
  have spans := run.invariant Step.spans fun _ => trivial
  obtain ⟨first, steps⟩ := Braked.first raised spans
  have bound := late.bounded (fun t u braked step => (braked.step s t u step).1)
    (fun t u braked step => (braked.step s t u step).2) first
  have braked := late.invariant (fun t u braked step => (Braked.step s t u braked step).1) first
  have hashes := braked.hashes
  have claims := braked.claims
  omega

-- Ctrl-C comes between the claim of a batch and its first nonce, which is hashed all the same.
theorem mine_stops_soon_example : ∃ s t : Sys 1, s.shared.shutdown = true ∧ s.hashed = [] ∧
    t.hashed.length = 1 ∧ t.hashed.length ≤ s.hashed.length + 1 * 256 ∧
    t.claims ≤ s.claims + 1 := by
  let job : Job := { start := 5, end_ := 900, diff := 1, hash := fun _ => some Fips180.initialState }
  obtain ⟨shared, w, hi, run, quiet, pc, ok⟩ := Sys.solo_claims job (by decide) (by decide) 0
  let s : Sys 1 := .solo { shared with shutdown := true } w 1 []
  have interrupted : Run (Step job) 4 (Sys.start job 1 0 false) s :=
    .tail run (.interrupt _ rfl quiet)
  obtain ⟨e, moves, hashed⟩ : ∃ e, workerStep job { shared with shutdown := true } w = some e ∧
      e.hashed.length = 1 := by
    simp only [workerStep, pc]
    rcases scanStep_correct job { shared with shutdown := true } w _ hi _ pc ok with
      ⟨-, undefined⟩ | ⟨e, moves, move⟩
    · cases undefined
    · exact ⟨e, moves, by cases move <;> simp_all⟩
  have hashes : Step job s (.solo e.shared e.worker (1 + e.claimed) (e.hashed ++ [])) :=
    Sys.solo_step (by simp [pc]) moves
  have bounds := mine_stops_soon interrupted (.inr rfl) (.tail (.refl _) hashes)
  refine ⟨s, _, rfl, rfl, ?_, bounds.2⟩
  rw [Sys.solo, List.append_nil]
  exact hashed

end

end ScamMiner.Cpu
