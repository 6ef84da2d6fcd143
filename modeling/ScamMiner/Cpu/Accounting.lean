import ScamMiner.Cpu.System

set_option autoImplicit false

namespace ScamMiner.Cpu

open Transition (Run Final total total_update)

variable {cores : Nat} {job : Job} {plan : ClaimPlan job cores} {sys : Sys cores} {i : Fin cores}
  {e : Effect}

-- Hashes a worker has not yet added to the counter.
def Worker.owed (w : Worker) : Nat :=
  match w.pc with
  | .done => 0
  | _ => w.localCount.toNat

/-- The counter and the local counts, modulo `2 ^ 64`, agree with the history. -/
def Credited (initial : UInt64) (sys : Sys cores) : Prop :=
  (sys.shared.counter.toNat + total Worker.owed sys.workers) % 2 ^ 64 =
    (initial.toNat + sys.hashed.length) % 2 ^ 64

theorem Credited.start (job : Job) (cores : Nat) (initial : UInt64) (shutdown : Bool) :
    Credited initial (Sys.start job cores initial shutdown) := by
  have none := Transition.total_const Worker.owed (Sys.start job cores initial shutdown).workers 0
    (fun _ => rfl)
  rw [Credited, none]
  simp [Sys.start]

theorem Move.balanced {s : Shared} {w : Worker} (move : Move job s w e) :
    (e.shared.counter.toNat + e.worker.owed) % 2 ^ 64 =
      (s.counter.toNat + w.owed + e.hashed.length) % 2 ^ 64 := by
  cases move with
  | miss base hi nonce digits nLen state pc =>
    simp only [Worker.owed, pc, UInt64.toNat_add, UInt64.reduceToNat, List.length_singleton]
    omega
  | lastMiss base nonce pc' digits nLen state pc after =>
    rcases after with rfl | rfl <;>
      simp only [Worker.owed, pc, UInt64.toNat_add, UInt64.reduceToNat, List.length_singleton] <;>
      omega
  | hit base hi nonce digits nLen hash pc =>
    simp only [Worker.owed, pc, UInt64.toNat_add, UInt64.reduceToNat, List.length_singleton]
    omega
  | creditHit pc =>
    simp only [Worker.owed, pc, UInt64.toNat_add, List.length_nil]
    omega
  | credit pc =>
    simp only [Worker.owed, pc, UInt64.toNat_add, UInt64.reduceToNat, List.length_nil]
    omega
  | creditExit pc =>
    simp only [Worker.owed, pc, UInt64.toNat_add, List.length_nil]
    omega
  | stopped pc => simp [Worker.owed, pc]
  | notStopped pc => simp [Worker.owed, pc]
  | interrupted pc => simp [Worker.owed, pc]
  | notInterrupted pc => simp [Worker.owed, pc]
  | overrun pc => simp [Worker.owed, pc]
  | batch hi digits nLen pc => simp [Worker.owed, pc]
  | record nonce hash pc => simp [Worker.owed, pc]
  | raise pc => simp [Worker.owed, pc]

theorem Credited.after {initial : UInt64} (credited : Credited initial sys)
    (move : Move job sys.shared (sys.workers i) e) : Credited initial (sys.after i e) := by
  have change := total_update Worker.owed sys.workers i e.worker
  have balance := move.balanced
  unfold Credited at credited ⊢
  simp only [Sys.after, List.length_append]
  omega

theorem Credited.settled {initial : UInt64} (credited : Credited initial sys)
    (joined : sys.Joined) :
    sys.shared.counter = initial + UInt64.ofNat sys.hashed.length := by
  have none := Transition.total_const Worker.owed sys.workers 0
    (fun i => by simp only [Worker.owed, joined.2 i])
  rw [Credited, none, Nat.mul_zero, Nat.add_zero] at credited
  exact Transition.counter_settled _ _ _ credited

-- A batch has at most 256 nonces, so a claim is worth 300 steps.
def Pc.potential : Pc -> Nat
  | .done => 0
  | .creditExit => 1
  | .creditHit => 1
  | .raise => 2
  | .record _ _ => 3
  | .claim => 3
  | .loadShutdown => 4
  | .loadStop => 5
  | .credit => 6
  | .scan _ hi nonce => 7 + (hi.toNat - nonce.toNat)

theorem Move.potential {s : Shared} {w : Worker} (move : Move job s w e) :
    e.worker.pc.potential < w.pc.potential ∧ e.claimed = 0 ∨
      e.worker.pc.potential < w.pc.potential + 300 ∧ e.claimed = 1 := by
  cases move with
  | miss base hi nonce digits nLen state pc more =>
    have bound := hi.toNat_lt
    have next : (nonce + 1).toNat = nonce.toNat + 1 := by
      simp only [UInt64.toNat_add, UInt64.reduceToNat]
      omega
    refine .inl ⟨?_, rfl⟩
    simp only [pc, Pc.potential, next]
    omega
  | lastMiss base nonce pc' digits nLen state pc after =>
    rcases after with rfl | rfl <;> simp [pc, Pc.potential]
  | batch hi digits nLen pc inside top =>
    refine .inr ⟨?_, rfl⟩
    simp only [pc, Pc.potential]
    omega
  | hit base hi nonce digits nLen hash pc =>
    refine .inl ⟨?_, rfl⟩
    simp only [pc, Pc.potential]
    omega
  | _ => simp [*, Pc.potential]

def Sys.size (plan : ClaimPlan job cores) (sys : Sys cores) : Nat :=
  300 * (plan.limit cores - sys.claims) + total (fun w => w.pc.potential) sys.workers +
    (!sys.shared.shutdown).toNat + (!sys.aborted).toNat

theorem ClaimPlan.limit_le (plan : ClaimPlan job cores) (left : Nat) (within : left ≤ cores) :
    plan.limit left ≤ plan.limit cores :=
  monotone_nat_of_le_succ plan.mono within

theorem Sys.left_le (sys : Sys cores) : total (fun w => w.pc.left) sys.workers ≤ cores := by
  have one (w : Worker) : w.pc.left ≤ 1 := by
    cases w.pc <;> simp [Pc.left]
  have bound := Transition.total_le (fun w : Worker => w.pc.left) sys.workers 1 (fun j => one _)
  omega

theorem Inv.claims_le (inv : Inv job plan sys) : sys.claims ≤ plan.limit cores :=
  inv.within.trans (plan.limit_le _ sys.left_le)

theorem Inv.decreases (plan : ClaimPlan job cores) (s t : Sys cores) (inv : Inv job plan s)
    (step : Step job s t) : t.size plan < s.size plan := by
  cases step with
  | worker i e alive active moves =>
    have move := inv.move active moves
    have change := total_update (fun w : Worker => w.pc.potential) s.workers i e.worker
    have room := (inv.after move).claims_le
    have potential := move.potential
    simp only [Sys.after, Sys.size, move.shutdown] at room ⊢
    omega
  | panic i alive active panics => simp [Sys.abort, Sys.size, alive]
  | interrupt alive quiet =>
    simp only [Sys.interrupt, Sys.size, quiet, Bool.not_true, Bool.not_false, Bool.toNat_false,
      Bool.toNat_true]
    omega

structure Unique (job : Job) (sys : Sys cores) : Prop where
  below : ∀ n, sys.Hashed n -> n < job.start.toNat + 256 * sys.claims
  claimed : ∀ i n, (sys.workers i).pc.Pending n -> n < job.start.toNat + 256 * sys.claims
  fresh : ∀ i n, (sys.workers i).pc.Pending n -> ¬ sys.Hashed n
  disjoint : ∀ i j n, i ≠ j -> (sys.workers i).pc.Pending n -> ¬ (sys.workers j).pc.Pending n
  nodup : (sys.hashed.map Prod.fst).Nodup

theorem Unique.start (job : Job) (cores : Nat) (counter : UInt64) (shutdown : Bool) :
    Unique job (Sys.start job cores counter shutdown) := by
  constructor <;> simp [Sys.start, Sys.Hashed, Worker.spawn, Pc.Pending]

theorem Move.pending_before {s : Shared} {w : Worker} (move : Move job s w e) (n : Nat)
    (pending : e.worker.pc.Pending n) :
    (w.pc.Pending n ∧ ∀ entry ∈ e.hashed, entry.1.toNat ≠ n) ∨
      (e.claimed = 1 ∧ e.hashed = [] ∧ s.next.toNat ≤ n ∧ n ≤ s.next.toNat + 255) := by
  cases move with
  | batch hi digits nLen pc inside top =>
    simp only [Pc.Pending] at pending
    exact .inr ⟨rfl, rfl, by omega, by omega⟩
  | miss base hi nonce digits nLen state pc more =>
    have bound := hi.toNat_lt
    have next : (nonce + 1).toNat = nonce.toNat + 1 := by
      simp only [UInt64.toNat_add, UInt64.reduceToNat]
      omega
    simp only [Pc.Pending] at pending
    refine .inl ⟨?_, ?_⟩
    · simp only [pc, Pc.Pending]
      omega
    · simp only [List.mem_singleton, forall_eq]
      omega
  | lastMiss base nonce pc' digits nLen state pc after =>
    rcases after with rfl | rfl <;> exact pending.elim
  | _ => exact pending.elim

theorem Move.hashed_pending {s : Shared} {w : Worker} (move : Move job s w e) (ok : WorkerOk job w)
    (entry : UInt64 × List UInt8) (member : entry ∈ e.hashed) : w.pc.Pending entry.1.toNat := by
  rcases move.hashes with none | ⟨base, hi, nonce, pc, one, -⟩
  · simp [none] at member
  · simp only [WorkerOk, pc] at ok
    obtain ⟨-, -, top, -⟩ := ok
    obtain rfl : entry = (nonce, Decimal.text nonce.toNat) := by simpa [one] using member
    rw [pc]
    exact ⟨Nat.le_refl _, top⟩

theorem Sys.hashed_after (n : Nat) : (sys.after i e).Hashed n ↔
    (∃ entry ∈ e.hashed, entry.1.toNat = n) ∨ sys.Hashed n := by
  simp only [Sys.Hashed, Sys.after, List.mem_append, or_and_right, exists_or]

section
variable (unique : Unique job sys) (move : Move job sys.shared (sys.workers i) e)
  (ok : WorkerOk job (sys.workers i))
  (exact : e.claimed = 1 -> sys.shared.next.toNat = job.start.toNat + 256 * sys.claims)
include unique move ok exact

theorem Unique.pending_after (j : Fin cores) (n : Nat)
    (pending : ((sys.after i e).workers j).pc.Pending n) :
    ((sys.workers j).pc.Pending n ∧ ∀ entry ∈ e.hashed, entry.1.toNat ≠ n) ∨
      (j = i ∧ e.claimed = 1 ∧ e.hashed = [] ∧ job.start.toNat + 256 * sys.claims ≤ n ∧
        n < job.start.toNat + 256 * (sys.claims + 1)) := by
  by_cases same : j = i
  · subst same
    simp only [Sys.after, Function.update_self] at pending
    rcases move.pending_before n pending with before | ⟨one, none, low, high⟩
    · exact .inl before
    · have base := exact one
      exact .inr ⟨rfl, one, none, by omega, by omega⟩
  · simp only [Sys.after, Function.update_of_ne same] at pending
    refine .inl ⟨pending, fun entry member here => ?_⟩
    have mine := move.hashed_pending ok entry member
    rw [here] at mine
    exact unique.disjoint j i n same pending mine

theorem Unique.after : Unique job (sys.after i e) where
  below n hashed := by
    have more : sys.claims ≤ (sys.after i e).claims := Nat.le_add_right _ _
    rcases (Sys.hashed_after n).mp hashed with ⟨entry, member, rfl⟩ | old
    · have before := unique.claimed i _ (move.hashed_pending ok entry member)
      omega
    · have before := unique.below n old
      omega
  claimed j n pending := by
    have more : (sys.after i e).claims = sys.claims + e.claimed := rfl
    rcases unique.pending_after move ok exact j n pending with ⟨before, -⟩ | ⟨-, one, -, -, high⟩
    · have below := unique.claimed j n before
      omega
    · rw [more, one]
      exact high
  fresh j n pending hashed := by
    rw [Sys.hashed_after] at hashed
    rcases unique.pending_after move ok exact j n pending with ⟨before, differ⟩ | ⟨-, -, none, low, -⟩
    · rcases hashed with ⟨entry, member, here⟩ | old
      · exact differ entry member here
      · exact unique.fresh j n before old
    · rcases hashed with ⟨entry, member, here⟩ | old
      · simp [none] at member
      · have below := unique.below n old
        omega
  disjoint j k n differ left right := by
    rcases unique.pending_after move ok exact j n left with
      ⟨leftBefore, -⟩ | ⟨isLeft, -, -, low, -⟩
    · rcases unique.pending_after move ok exact k n right with
        ⟨rightBefore, -⟩ | ⟨isRight, -, -, low, -⟩
      · exact unique.disjoint j k n differ leftBefore rightBefore
      · have below := unique.claimed j n leftBefore
        omega
    · rcases unique.pending_after move ok exact k n right with
        ⟨rightBefore, -⟩ | ⟨isRight, -⟩
      · have below := unique.claimed k n rightBefore
        omega
      · exact differ (isLeft.trans isRight.symm)
  nodup := by
    rcases move.hashes with none | ⟨base, hi, nonce, pc, one, -⟩
    · simpa only [Sys.after, none, List.nil_append] using unique.nodup
    · have new := unique.fresh i nonce.toNat
        (move.hashed_pending ok (nonce, Decimal.text nonce.toNat) (by simp [one]))
      simp only [Sys.after, one, List.cons_append, List.nil_append, List.map_cons, List.nodup_cons]
      refine ⟨fun member => ?_, unique.nodup⟩
      obtain ⟨entry, old, same⟩ := List.mem_map.mp member
      exact new ⟨entry, old, congrArg UInt64.toNat same⟩

end

end ScamMiner.Cpu
