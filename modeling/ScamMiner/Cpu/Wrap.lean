import Mathlib.Data.Nat.Count
import ScamMiner.Cpu.Mine

set_option autoImplicit false

namespace ScamMiner.Cpu

open Transition (Final total total_update)

variable {cores : Nat} {job : Job} {s : Shared} {w : Worker} {e : Effect} {sys : Sys cores}
  {i : Fin cores}

def Job.Barren (job : Job) : Prop :=
  ∀ nonce : UInt64, ∃ state, job.hash (Decimal.text nonce.toNat) = some state ∧
    checkStateDifficulty state job.diff = false

-- The workers never look at `start`: after a wrap they scan any batch up to the end.
def Job.fromZero (job : Job) : Job :=
  { job with start := 0 }

/-- The moves for any range: a batch that ends past `2 ^ 64` is claimed and nothing in it scanned. -/
inductive Drift (job : Job) (s : Shared) (w : Worker) : Effect -> Prop
  | move {e : Effect} (move : Move job.fromZero s w e) : Drift job s w e
  | skip (pc' : Pc) (digits : DigitBuffer) (nLen : Nat) (pc : w.pc = .claim)
      (inside : s.next.toNat ≤ job.end_.toNat) (wraps : 2 ^ 64 ≤ s.next.toNat + 255)
      (after : pc' = .credit ∨ pc' = .loadStop) :
    Drift job s w
      { shared := { s with next := s.next + BATCH }
        worker := { w with pc := pc', digits := digits, nLen := nLen }
        claimed := 1 }

theorem claimStep_skips (pc : w.pc = .claim) (inside : s.next.toNat ≤ job.end_.toNat)
    (wraps : 2 ^ 64 ≤ s.next.toNat + 255) : ∃ e, claimStep job s w = some e ∧ Drift job s w e := by
  have here : ¬ job.end_ < s.next := by
    rw [UInt64.lt_iff_toNat_lt]
    omega
  have empty : ¬ s.next ≤ min (s.next + BATCH - 1) job.end_ := by
    have bound := s.next.toNat_lt
    rw [UInt64.le_iff_toNat_le, batch_top, UInt64.toNat_min, UInt64.toNat_add]
    simp only [UInt64.reduceToNat]
    omega
  obtain ⟨digits, written, -⟩ := writeDecimal_correct s.next w.digits
  refine ⟨_, ?_, .skip (if FLUSH ≤ w.localCount then .credit else .loadStop) digits
    (Decimal.digits s.next.toNat).length pc inside wraps ?_⟩
  · simp only [claimStep, if_neg here, written, if_neg empty, Option.bind_eq_bind, Option.bind_some,
      Option.pure_def]
    rfl
  · split
    · exact .inl rfl
    · exact .inr rfl

theorem workerStep_drifts (barren : job.Barren) (active : w.pc ≠ .done)
    (ok : WorkerOk job.fromZero w) : ∃ e, workerStep job s w = some e ∧ Drift job s w e := by
  by_cases wraps : w.pc = .claim ∧ s.next.toNat ≤ job.end_.toNat ∧ 2 ^ 64 ≤ s.next.toNat + 255
  · obtain ⟨pc, inside, wraps⟩ := wraps
    simp only [workerStep, pc]
    exact claimStep_skips pc inside wraps
  · have same : workerStep job.fromZero s w = workerStep job s w := rfl
    have fits (pc : w.pc = .claim) : BatchFits job.fromZero s := by
      intro inside
      by_contra beyond
      exact wraps ⟨pc, inside, by omega⟩
    rcases workerStep_correct job.fromZero s w active ok fits with
      ⟨-, base, hi, nonce, -, undefined⟩ | ⟨e, moves, move⟩
    · obtain ⟨state, hashed, -⟩ := barren nonce
      simp [Job.fromZero, hashed] at undefined
    · exact ⟨e, same ▸ moves, .move move⟩

def Pc.Searching : Pc -> Prop
  | .record _ _ => False
  | .raise => False
  | .creditHit => False
  | _ => True

theorem Drift.calm (drift : Drift job s w e) (searching : w.pc.Searching) :
    e.shared.stop = s.stop ∧ e.shared.shutdown = s.shutdown := by
  cases drift with
  | move move =>
    cases move with
    | raise pc => simp [pc, Pc.Searching] at searching
    | _ => exact ⟨rfl, rfl⟩
  | skip => exact ⟨rfl, rfl⟩

theorem Drift.searching (drift : Drift job s w e) (barren : job.Barren)
    (searching : w.pc.Searching) : e.worker.pc.Searching := by
  cases drift with
  | move move =>
    cases move with
    | hit base hi nonce digits nLen hash pc good =>
      obtain ⟨state, hashed, poor⟩ := barren nonce
      obtain ⟨state', hashed', rich, -⟩ := good
      simp_all [Job.fromZero]
    | record nonce hash pc => simp [pc, Pc.Searching] at searching
    | raise pc => simp [pc, Pc.Searching] at searching
    | creditHit pc => trivial
    | lastMiss base nonce pc' digits nLen state pc after => rcases after with rfl | rfl <;> trivial
    | _ => trivial
  | skip pc' digits nLen pc inside wraps after => rcases after with rfl | rfl <;> trivial

theorem Drift.ok (drift : Drift job s w e) (ok : WorkerOk job.fromZero w) :
    WorkerOk job.fromZero e.worker := by
  cases drift with
  | move move => exact move.ok ok fun _ _ => Nat.zero_le _
  | skip pc' digits nLen pc inside wraps after => rcases after with rfl | rfl <;> trivial

-- While nobody stops the workers, they leave by a claim past the end and in no other way.
theorem Drift.claims (drift : Drift job s w e) (searching : w.pc.Searching)
    (calm : s.stop = false ∧ s.shutdown = false) :
    (e.claimed = 0 ∧ e.shared.next = s.next ∧ e.worker.pc.left = w.pc.left) ∨
      (e.claimed = 1 ∧ e.shared.next = s.next + BATCH ∧ w.pc = .claim ∧
        e.worker.pc.left = w.pc.left + if job.end_.toNat < s.next.toNat then 1 else 0) := by
  cases drift with
  | move move =>
    cases move with
    | stopped pc raised => simp [calm.1] at raised
    | interrupted pc raised => simp [calm.2] at raised
    | overrun pc beyond =>
      have past : job.end_.toNat < s.next.toNat := beyond
      simp [pc, Pc.left, past]
    | batch hi digits nLen pc inside =>
      have here : ¬ job.end_.toNat < s.next.toNat := Nat.not_lt.mpr inside
      simp [pc, Pc.left, here]
    | lastMiss base nonce pc' digits nLen state pc after =>
      rcases after with rfl | rfl <;> simp [pc, Pc.left]
    | creditHit pc => simp [pc, Pc.Searching] at searching
    | _ => simp [*, Pc.left]
  | skip pc' digits nLen pc inside wraps after =>
    have here : ¬ job.end_.toNat < s.next.toNat := Nat.not_lt.mpr inside
    rcases after with rfl | rfl <;> simp [pc, Pc.left, here]

theorem Drift.opens (drift : Drift job s w e) (pc : w.pc = .claim)
    (inside : s.next.toNat ≤ job.end_.toNat) (fits : s.next.toNat + 255 < 2 ^ 64) :
    e.worker.pc.Pending s.next.toNat := by
  cases drift with
  | move move =>
    cases move with
    | overrun _ beyond => exact absurd inside (Nat.not_le.mpr beyond)
    | batch hi digits nLen _ _ top =>
      have top : hi.toNat = min (s.next.toNat + 255) job.end_.toNat := top
      simp only [Pc.Pending]
      omega
    | _ => simp_all
  | skip _ _ _ _ _ wraps => omega

theorem Drift.pending (drift : Drift job s w e) (barren : job.Barren)
    (searching : w.pc.Searching) (n : Nat) (pending : w.pc.Pending n) :
    (∃ entry ∈ e.hashed, entry.1.toNat = n) ∨ e.worker.pc.Pending n := by
  have after := drift.searching barren searching
  cases drift with
  | move move =>
    rcases move.pending n pending with hashed | pending | recording
    · exact .inl hashed
    · exact .inr pending
    · cases pc : e.worker.pc <;> simp_all [Pc.Recording, Pc.Searching]
  | skip pc' digits nLen pc => simp [pc, Pc.Pending] at pending

/-- The first nonce of every non-empty batch is met, and the overruns count the workers that left. -/
structure Adrift (job : Job) (sys : Sys cores) : Prop where
  alive : sys.aborted = false
  calm : sys.shared.stop = false ∧ sys.shared.shutdown = false
  cursor : sys.shared.next.toNat = baseOf job sys.claims
  workers : ∀ i, WorkerOk job.fromZero (sys.workers i)
  searching : ∀ i, (sys.workers i).pc.Searching
  overruns : total (fun w => w.pc.left) sys.workers =
    Nat.count (fun k => job.end_.toNat < baseOf job k) sys.claims
  met : ∀ k < sys.claims, baseOf job k ≤ job.end_.toNat -> baseOf job k + 255 < 2 ^ 64 ->
    sys.Hashed (baseOf job k) ∨ ∃ i, (sys.workers i).pc.Pending (baseOf job k)

theorem Adrift.start (job : Job) (cores : Nat) (counter : UInt64) :
    Adrift job (Sys.start job cores counter false) where
  alive := rfl
  calm := ⟨rfl, rfl⟩
  cursor := by
    have bound := job.start.toNat_lt
    simp only [Sys.start, baseOf]
    omega
  workers _ := trivial
  searching _ := trivial
  overruns := by
    have none := Transition.total_const (fun w => w.pc.left)
      (Sys.start job cores counter false).workers 0 (fun _ => rfl)
    rw [none]
    rfl
  met := by simp [Sys.start]

theorem Adrift.met_after (adrift : Adrift job sys) (barren : job.Barren)
    (drift : Drift job sys.shared (sys.workers i) e) (k : Nat) (claimed : k < (sys.after i e).claims)
    (inside : baseOf job k ≤ job.end_.toNat) (fits : baseOf job k + 255 < 2 ^ 64) :
    (sys.after i e).Hashed (baseOf job k) ∨
      ∃ j, ((sys.after i e).workers j).pc.Pending (baseOf job k) := by
  by_cases old : k < sys.claims
  · rcases adrift.met k old inside fits with hashed | ⟨j, pending⟩
    · exact .inl hashed.after
    · by_cases same : j = i
      · subst same
        rcases drift.pending barren (adrift.searching j) _ pending with ⟨entry, new, here⟩ | pending
        · exact .inl ⟨entry, List.mem_append_left _ new, here⟩
        · exact .inr ⟨j, by simpa only [Sys.after, Function.update_self] using pending⟩
      · exact .inr ⟨j, by simpa only [Sys.after, Function.update_of_ne same] using pending⟩
  · -- the batch that this step claims
    simp only [Sys.after] at claimed
    rcases drift.claims (adrift.searching i) adrift.calm with ⟨none, -⟩ | ⟨one, -, pc, -⟩
    · omega
    · obtain rfl : k = sys.claims := by omega
      rw [← adrift.cursor] at inside fits ⊢
      refine .inr ⟨i, ?_⟩
      simpa only [Sys.after, Function.update_self] using drift.opens pc inside fits

theorem Adrift.after (adrift : Adrift job sys) (barren : job.Barren)
    (drift : Drift job sys.shared (sys.workers i) e) : Adrift job (sys.after i e) where
  alive := adrift.alive
  calm := by
    obtain ⟨stop, shutdown⟩ := drift.calm (adrift.searching i)
    exact ⟨stop.trans adrift.calm.1, shutdown.trans adrift.calm.2⟩
  cursor := by
    have cursor := adrift.cursor
    simp only [Sys.after]
    rcases drift.claims (adrift.searching i) adrift.calm with ⟨none, next, -⟩ | ⟨one, next, -⟩
    · rw [none, next, cursor, Nat.add_zero]
    · rw [one, next, baseOf_succ, UInt64.toNat_add, cursor]
      rfl
  workers := (Function.forall_update_iff sys.workers fun _ w => WorkerOk job.fromZero w).mpr
    ⟨drift.ok (adrift.workers i), fun j _ => adrift.workers j⟩
  searching := (Function.forall_update_iff sys.workers fun _ w => w.pc.Searching).mpr
    ⟨drift.searching barren (adrift.searching i), fun j _ => adrift.searching j⟩
  overruns := by
    have change := total_update (fun w : Worker => w.pc.left) sys.workers i e.worker
    have before := adrift.overruns
    simp only [Sys.after]
    rcases drift.claims (adrift.searching i) adrift.calm with ⟨none, -, left⟩ | ⟨one, -, -, left⟩
    · rw [none, Nat.add_zero]
      omega
    · rw [adrift.cursor] at left
      rw [one, Nat.count_succ]
      omega
  met := adrift.met_after barren drift

theorem Adrift.step (barren : job.Barren) (s t : Sys cores) (adrift : Adrift job s)
    (step : Step job s t ∧ t.shared.shutdown = false) : Adrift job t := by
  obtain ⟨step, quiet⟩ := step
  cases step with
  | worker i e alive active moves =>
    obtain ⟨e', moves', drift⟩ := workerStep_drifts (s := s.shared) barren active (adrift.workers i)
    obtain rfl : e' = e := by simpa [moves'] using moves
    exact adrift.after barren drift
  | panic i alive active panics =>
    obtain ⟨e', moves', -⟩ := workerStep_drifts (s := s.shared) barren active (adrift.workers i)
    simp [moves'] at panics
  | interrupt alive quiet' => simp [Sys.interrupt] at quiet

theorem Adrift.joined (adrift : Adrift job sys) (barren : job.Barren)
    (final : Final (fun s t => Step job s t ∧ t.shared.shutdown = false) sys) : sys.Joined := by
  refine ⟨adrift.alive, fun i => ?_⟩
  by_contra active
  obtain ⟨e, moves, drift⟩ := workerStep_drifts barren active (adrift.workers i)
  exact final _ ⟨.worker sys i e adrift.alive active moves,
    (drift.calm (adrift.searching i)).2.trans adrift.calm.2⟩

theorem overruns_straight (ordered : job.start.toNat ≤ job.end_.toNat) (n : Nat)
    (straight : ∀ k < n, job.start.toNat + 256 * k < 2 ^ 64) :
    Nat.count (fun k => job.end_.toNat < baseOf job k) n = n - batches job := by
  induction n with
  | zero => simp
  | succ n ih =>
    have exact : baseOf job n = job.start.toNat + 256 * n := Nat.mod_eq_of_lt (straight n (by omega))
    have late : job.end_.toNat < job.start.toNat + 256 * n ↔ batches job ≤ n := by
      unfold batches
      omega
    rw [Nat.count_succ, ih fun k less => straight k (by omega), exact]
    simp only [late]
    split <;> omega

theorem Adrift.straight (adrift : Adrift job sys) (joined : sys.Joined)
    (ordered : job.start.toNat ≤ job.end_.toNat) (late : 256 ≤ job.start.toNat)
    (inside : ∀ n, sys.Hashed n -> job.start.toNat ≤ n) (k : Nat) (claimed : k < sys.claims) :
    job.start.toNat + 256 * k < 2 ^ 64 := by
  by_contra wrapped
  let first := (2 ^ 64 - job.start.toNat + 255) / 256
  have bound := job.start.toNat_lt
  have earlier : first ≤ k := by
    simp only [first]
    omega
  have low : baseOf job first < 256 := by
    simp only [baseOf, first]
    omega
  rcases adrift.met first (by omega) (by omega) (by omega) with hashed | ⟨i, pending⟩
  · have above := inside _ hashed
    omega
  · rw [joined.2 i] at pending
    exact pending.elim

theorem Adrift.safe (adrift : Adrift job sys) (joined : sys.Joined) (positive : 1 ≤ cores)
    (ordered : job.start.toNat ≤ job.end_.toNat)
    (inside : ∀ n, sys.Hashed n -> job.start.toNat ≤ n) :
    RangeSafe job.start job.end_ cores := by
  have overruns : cores = Nat.count (fun k => job.end_.toNat < baseOf job k) sys.claims := by
    have gone := Transition.total_const (fun w : Worker => w.pc.left) sys.workers 1 fun i => by
      rw [joined.2 i]
      rfl
    rw [← adrift.overruns, gone, Nat.mul_one]
  by_cases late : 256 ≤ job.start.toNat
  · have straight := adrift.straight joined ordered late inside
    rw [overruns_straight ordered sys.claims straight] at overruns
    have last := straight (sys.claims - 1) (by omega)
    unfold batches at overruns
    exact .inl (by omega)
  · -- the batches alone reach round: there is no claim past the end
    refine .inr ⟨by omega, ?_⟩
    by_contra wrapped
    have bound := job.end_.toNat_lt
    have none (k : Nat) : ¬ job.end_.toNat < baseOf job k := by
      unfold baseOf
      omega
    rw [Nat.count_of_forall_not fun k _ => none k] at overruns
    omega

end ScamMiner.Cpu
