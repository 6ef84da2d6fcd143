import Mathlib.Order.Interval.Finset.Nat
import ScamMiner.Cpu.Accounting

set_option autoImplicit false

namespace ScamMiner.Cpu

open Fips180 (State)
open Transition (Run Final)

variable {cores : Nat}

/-- The claims stay below `2 ^ 64`, or they wrap onto the very same batches. -/
def RangeSafe (start end_ : UInt64) (cores : Nat) : Prop :=
  start.toNat + 256 * ((end_.toNat - start.toNat) / 256 + cores) < 2 ^ 64 ∨
    start.toNat < 256 ∧ start.toNat + 256 * ((end_.toNat - start.toNat) / 256 + 1) < 2 ^ 64

theorem RangeSafe.plan {job : Job} (safe : RangeSafe job.start job.end_ cores)
    (ordered : job.start.toNat ≤ job.end_.toNat) : Nonempty (ClaimPlan job cores) := by
  rcases safe with straight | ⟨low, fits⟩
  · exact ⟨.straight job cores ordered (by unfold batches; omega)⟩
  · exact ⟨.cyclic job cores ordered low fits⟩

theorem run_inv {job : Job} (plan : ClaimPlan job cores) {counter : UInt64} {shutdown : Bool}
    {n : Nat} {sys : Sys cores} (run : Run (Step job) n (Sys.start job cores counter shutdown) sys) :
    Inv job plan sys :=
  run.invariant (Inv.step plan) (Sys.start_inv job plan counter shutdown)

theorem run_bounded {job : Job} (plan : ClaimPlan job cores) {counter : UInt64} {shutdown : Bool}
    {n : Nat} {sys : Sys cores} (run : Run (Step job) n (Sys.start job cores counter shutdown) sys) :
    n ≤ (Sys.start job cores counter shutdown).size plan := by
  have bound := run.bounded (Inv.step plan) (Inv.decreases plan)
    (Sys.start_inv job plan counter shutdown)
  omega

theorem run_credited {job : Job} (plan : ClaimPlan job cores) {counter : UInt64} {shutdown : Bool}
    {n : Nat} {sys : Sys cores} (run : Run (Step job) n (Sys.start job cores counter shutdown) sys) :
    Credited counter sys := by
  have preserved (s t : Sys cores) (kept : Inv job plan s ∧ Credited counter s)
      (step : Step job s t) : Inv job plan t ∧ Credited counter t := by
    obtain ⟨inv, credited⟩ := kept
    refine ⟨inv.step plan s t step, ?_⟩
    cases step with
    | worker i e alive active moves => exact credited.after (inv.move active moves)
    | panic i alive active panics => exact credited
    | interrupt alive quiet => exact credited
  exact (run.invariant preserved
    ⟨Sys.start_inv job plan counter shutdown, .start job cores counter shutdown⟩).2

theorem run_alive {job : Job} (plan : ClaimPlan job cores) {counter : UInt64} {shutdown : Bool}
    (defined : ∀ nonce : UInt64, job.start.toNat ≤ nonce.toNat -> nonce.toNat ≤ job.end_.toNat ->
      (job.hash (Decimal.text nonce.toNat)).isSome = true) {n : Nat} {sys : Sys cores}
    (run : Run (Step job) n (Sys.start job cores counter shutdown) sys) : sys.aborted = false := by
  have preserved (s t : Sys cores) (kept : Inv job plan s ∧ s.aborted = false)
      (step : Step job s t) : Inv job plan t ∧ t.aborted = false := by
    obtain ⟨inv, alive⟩ := kept
    refine ⟨inv.step plan s t step, ?_⟩
    cases step with
    | worker i e _ active moves => exact alive
    | panic i _ active panics =>
      rcases inv.moves i active with ⟨-, nonce, above, below, bad⟩ | ⟨e, moves, -⟩
      · simpa [bad] using defined nonce above below
      · simp [panics] at moves
    | interrupt _ quiet => exact alive
  exact (run.invariant preserved ⟨Sys.start_inv job plan counter shutdown, rfl⟩).2

theorem run_unique {job : Job} (ordered : job.start.toNat ≤ job.end_.toNat)
    (fits : job.start.toNat + 256 * (batches job + cores - 1) < 2 ^ 64) {counter : UInt64}
    {shutdown : Bool} {n : Nat} {sys : Sys cores}
    (run : Run (Step job) n (Sys.start job cores counter shutdown) sys) : Unique job sys := by
  let plan := ClaimPlan.straight job cores ordered fits
  have preserved (s t : Sys cores) (kept : Inv job plan s ∧ Unique job s)
      (step : Step job s t) : Inv job plan t ∧ Unique job t := by
    obtain ⟨inv, unique⟩ := kept
    refine ⟨inv.step plan s t step, ?_⟩
    cases step with
    | worker i e alive active moves =>
      have move := inv.move active moves
      refine unique.after move (inv.workers i) fun one => ?_
      -- a claim below `2 ^ 64` starts behind all the batches before it
      rcases move.claims with ⟨none, -⟩ | ⟨-, -, staying, -⟩
      · omega
      · have less := s.left_lt i staying
        have within : s.claims ≤ batches job + _ := inv.within
        rw [inv.cursor]
        exact Nat.mod_eq_of_lt (by omega)
    | panic i alive active panics =>
      exact ⟨unique.below, unique.claimed, unique.fresh, unique.disjoint, unique.nodup⟩
    | interrupt alive quiet =>
      exact ⟨unique.below, unique.claimed, unique.fresh, unique.disjoint, unique.nodup⟩
  exact (run.invariant preserved
    ⟨Sys.start_inv job plan counter shutdown, .start job cores counter shutdown⟩).2

theorem Inv.exhausted {job : Job} {plan : ClaimPlan job cores} {sys : Sys cores}
    (inv : Inv job plan sys) (positive : 1 ≤ cores) (joined : sys.Joined)
    (quiet : sys.shared.shutdown = false) (nothing : sys.shared.found = none) (n : Nat)
    (above : job.start.toNat ≤ n) (below : n ≤ job.end_.toNat) : sys.Hashed n := by
  have unpublished : ¬ sys.shared.found.isSome = true := by simp [nothing]
  -- worker 0 has left, and the claims reaching past the range is the only excuse that remains
  have enough : batches job ≤ sys.claims := by
    have excused := inv.excused ⟨0, positive⟩
    rw [joined.2] at excused
    rcases excused with down | enough | found
    · simp [quiet] at down
    · exact enough
    · exact absurd found unpublished
  have claimed : (n - job.start.toNat) / 256 < sys.claims := by
    unfold batches at enough
    omega
  rcases inv.covered n above below claimed with hashed | ⟨i, pending⟩ | found | ⟨i, recording⟩
  · exact hashed
  · rw [joined.2 i] at pending
    exact pending.elim
  · exact absurd found unpublished
  · rw [joined.2 i] at recording
    exact recording.elim

theorem Inv.published {job : Job} {plan : ClaimPlan job cores} {sys : Sys cores}
    (inv : Inv job plan sys) (joined : sys.Joined) (entry : UInt64 × List UInt8)
    (member : entry ∈ sys.hashed) (hash : List UInt8) (good : Hit job entry.1 hash) :
    sys.shared.found.isSome = true := by
  rcases inv.hits entry member hash good with found | ⟨i, recording⟩
  · exact found
  · rw [joined.2 i] at recording
    exact recording.elim

def Job.total (start end_ : UInt64) (diff : UInt32) (finish : List UInt8 -> State) : Job :=
  { start := start, end_ := end_, diff := diff, hash := fun digits => some (finish digits) }

section
variable (start end_ : UInt64) (diff : UInt32) (finish : List UInt8 -> State)

def Wins (nonce : UInt64) : Prop :=
  ZeroHex (hexLower (stateToBytes (finish (Decimal.text nonce.toNat)))) diff.toNat

theorem hit_wins (small : diff.toNat ≤ 32) (nonce : UInt64) (hash : List UInt8) :
    Hit (Job.total start end_ diff finish) nonce hash ↔
      hash = stateToBytes (finish (Decimal.text nonce.toNat)) ∧ Wins diff finish nonce := by
  simp only [Hit, Job.total, Option.some.injEq, exists_eq_left', Wins,
    checkStateDifficulty_correct _ _ small]
  exact And.comm

/-- In every reachable state: no nonce twice, only nonces of the range, each as its own string. -/
structure ScanKept (sys : Sys cores) : Prop where
  alive : sys.aborted = false
  once : (sys.hashed.map Prod.fst).Nodup
  canonical : ∀ entry ∈ sys.hashed, start ≤ entry.1 ∧ entry.1 ≤ end_ ∧
    entry.2 = Decimal.text entry.1.toNat

structure ScanResult (counter : UInt64) (sys : Sys cores) : Prop where
  counted : sys.shared.counter = counter + UInt64.ofNat sys.hashed.length
  recorded : ∀ entry ∈ sys.hashed, Wins diff finish entry.1 -> sys.shared.found.isSome = true
  sound : ∀ nonce hash, sys.shared.found = some (nonce, hash) -> start ≤ nonce ∧ nonce ≤ end_ ∧
    hash = stateToBytes (finish (Decimal.text nonce.toNat)) ∧ Wins diff finish nonce
  complete : sys.shared.shutdown = false -> sys.shared.found = none ->
    (∀ nonce, start ≤ nonce -> nonce ≤ end_ ->
      (sys.hashed.map Prod.fst).count nonce = 1 ∧ ¬ Wins diff finish nonce) ∧
    sys.shared.counter = counter + (end_ - start + 1)

theorem hashed_count (sys : Sys cores) (once : (sys.hashed.map Prod.fst).Nodup)
    (ordered : start.toNat ≤ end_.toNat)
    (inside : ∀ entry ∈ sys.hashed, start.toNat ≤ entry.1.toNat ∧ entry.1.toNat ≤ end_.toNat)
    (all : ∀ n, start.toNat ≤ n -> n ≤ end_.toNat -> sys.Hashed n) :
    sys.hashed.length = end_.toNat - start.toNat + 1 := by
  let nonces := (sys.hashed.map Prod.fst).map UInt64.toNat
  have distinct : nonces.Nodup := once.map fun _ _ same => UInt64.toNat.inj same
  have range : nonces.toFinset = Finset.Icc start.toNat end_.toNat := by
    ext n
    simp only [nonces, List.mem_toFinset, List.map_map, List.mem_map, Function.comp_apply,
      Finset.mem_Icc]
    constructor
    · rintro ⟨entry, member, rfl⟩
      exact inside entry member
    · rintro ⟨above, below⟩
      exact all n above below
  have count := List.toFinset_card_of_nodup distinct
  rw [range, Nat.card_Icc] at count
  simp only [nonces, List.length_map] at count
  omega

theorem straight_fits (cores : Nat) (positive : 1 ≤ cores) (ordered : start ≤ end_)
    (fits : end_.toNat + 256 * (cores + 1) ≤ 2 ^ 64 - 1) :
    start.toNat + 256 * (batches (Job.total start end_ diff finish) + cores - 1) < 2 ^ 64 := by
  have low : start.toNat ≤ end_.toNat := UInt64.le_iff_toNat_le.mp ordered
  simp only [batches, Job.total]
  omega

theorem run_scanned (positive : 1 ≤ cores) (ordered : start ≤ end_)
    (straight : start.toNat + 256 * (batches (Job.total start end_ diff finish) + cores - 1) < 2 ^ 64)
    (small : diff.toNat ≤ 32) (counter : UInt64) (shutdown : Bool) (n : Nat) (sys : Sys cores)
    (run : Run (Step (Job.total start end_ diff finish)) n
      (Sys.start (Job.total start end_ diff finish) cores counter shutdown) sys) :
    ScanKept start end_ sys ∧ (sys.Joined -> ScanResult start end_ diff finish counter sys) := by
  have low : start.toNat ≤ end_.toNat := UInt64.le_iff_toNat_le.mp ordered
  let plan := ClaimPlan.straight (Job.total start end_ diff finish) cores low straight
  have inv := run_inv plan run
  have unique := run_unique low straight run
  have wins := hit_wins start end_ diff finish small
  have counted (joined : sys.Joined) := (run_credited plan run).settled joined
  refine ⟨⟨run_alive plan (fun _ _ _ => rfl) run, unique.nodup, ?_⟩, fun joined =>
    ⟨counted joined, ?_, ?_, ?_⟩⟩
  · intro entry member
    obtain ⟨above, below, text, -⟩ := inv.logged entry member
    exact ⟨UInt64.le_iff_toNat_le.mpr above, UInt64.le_iff_toNat_le.mpr below, text⟩
  · intro entry member won
    exact inv.published joined entry member _ ((wins entry.1 _).mpr ⟨rfl, won⟩)
  · intro nonce hash found
    obtain ⟨above, below, good⟩ := inv.found nonce hash found
    exact ⟨UInt64.le_iff_toNat_le.mpr above, UInt64.le_iff_toNat_le.mpr below,
      (wins nonce hash).mp good⟩
  · intro quiet nothing
    have all := inv.exhausted positive joined quiet nothing
    refine ⟨fun nonce above below => ?_, ?_⟩
    · obtain ⟨entry, member, same⟩ := all nonce.toNat (UInt64.le_iff_toNat_le.mp above)
        (UInt64.le_iff_toNat_le.mp below)
      obtain rfl : entry.1 = nonce := UInt64.toNat.inj same
      refine ⟨List.count_eq_one_of_mem unique.nodup (List.mem_map_of_mem member), fun won => ?_⟩
      have found := inv.published joined entry member _ ((wins entry.1 _).mpr ⟨rfl, won⟩)
      simp [nothing] at found
    · have length := hashed_count start end_ sys unique.nodup low
        (fun entry member => ⟨(inv.logged entry member).1, (inv.logged entry member).2.1⟩) all
      rw [counted joined]
      congr 1
      apply UInt64.toNat.inj
      rw [UInt64.toNat_ofNat', UInt64.toNat_add, UInt64.toNat_sub_of_le _ _ ordered, length]
      rfl

/-- The work-stealing scan, for every interleaving of its workers. -/
theorem mine_scanned (positive : 1 ≤ cores) (ordered : start ≤ end_)
    (fits : end_.toNat + 256 * (cores + 1) ≤ 2 ^ 64 - 1) (small : diff.toNat ≤ 32)
    (counter : UInt64) (shutdown : Bool) (n : Nat) (sys : Sys cores)
    (run : Run (Step (Job.total start end_ diff finish)) n
      (Sys.start (Job.total start end_ diff finish) cores counter shutdown) sys) :
    ScanKept start end_ sys ∧ (sys.Joined -> ScanResult start end_ diff finish counter sys) :=
  run_scanned start end_ diff finish positive ordered
    (straight_fits start end_ diff finish cores positive ordered fits) small counter shutdown n sys run

theorem mine_joins {job : Job} (plan : ClaimPlan job cores) (counter : UInt64) (shutdown : Bool)
    (defined : ∀ nonce : UInt64, job.start.toNat ≤ nonce.toNat -> nonce.toNat ≤ job.end_.toNat ->
      (job.hash (Decimal.text nonce.toNat)).isSome = true) :
    ∃ n sys, Run (Step job) n (Sys.start job cores counter shutdown) sys ∧ sys.Joined := by
  obtain ⟨n, sys, run, final⟩ := Transition.finishes (Inv.step plan) (Inv.decreases plan)
    (Sys.start job cores counter shutdown) (Sys.start_inv job plan counter shutdown)
  refine ⟨n, sys, run, ?_⟩
  rcases joined_of_final fun t step => final t step.1 with aborted | joined
  · simp [run_alive plan defined run] at aborted
  · exact joined

theorem mine_scanned_two_workers : ∃ n, ∃ sys : Sys 2,
    Run (Step (Job.total 7 700 1 fun _ => IV)) n
      (Sys.start (Job.total 7 700 1 fun _ => IV) 2 5 false) sys ∧ sys.Joined ∧
      ScanKept 7 700 sys ∧ ScanResult 7 700 1 (fun _ => IV) 5 sys := by
  have straight := straight_fits 7 700 1 (fun _ => IV) 2 (by decide) (by decide) (by decide)
  obtain ⟨n, sys, run, joined⟩ := mine_joins
    (ClaimPlan.straight (Job.total 7 700 1 fun _ => IV) 2 (by decide) straight) 5 false
    (fun _ _ _ => rfl)
  have scanned := mine_scanned 7 700 1 (fun _ => IV) (by decide) (by decide) (by decide) (by decide)
    5 false n sys run
  exact ⟨n, sys, run, joined, scanned.1, scanned.2 joined⟩

end

end ScamMiner.Cpu
