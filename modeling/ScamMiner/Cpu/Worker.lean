import ScamMiner.Sha.Difficulty
import ScamMiner.Sha.WriteDecimal
import ScamMiner.Shared.Transition

set_option autoImplicit false

namespace ScamMiner.Cpu

open Fips180 (State)

def BATCH : UInt64 := 256
def FLUSH : UInt64 := 4096

-- What the worker closures capture; `hash` is `mid.finish_raw`.
structure Job where
  start : UInt64
  end_ : UInt64
  diff : UInt32
  hash : List UInt8 -> Option State

structure Shared where
  next : UInt64
  stop : Bool
  found : Option (UInt64 × List UInt8)
  counter : UInt64
  shutdown : Bool

-- Where a worker stands; `scan` is about to hash `nonce`.
inductive Pc where
  | loadStop
  | loadShutdown
  | claim
  | scan (base hi nonce : UInt64)
  | record (nonce : UInt64) (hash : List UInt8)
  | raise
  | creditHit
  | credit
  | creditExit
  | done

structure Worker where
  pc : Pc
  localCount : UInt64
  digits : DigitBuffer
  nLen : Nat

-- The state after a step; `claimed` and `hashed` only tell what the step did.
structure Effect where
  shared : Shared
  worker : Worker
  claimed : Nat := 0
  hashed : List (UInt64 × List UInt8) := []

-- The end of the `for` loop: flush a large local count, then look at the flags again.
def afterBatch (w : Worker) : Worker :=
  { w with pc := if FLUSH ≤ w.localCount then .credit else .loadStop }

def claimStep (job : Job) (s : Shared) (w : Worker) : Option Effect :=
  let base := s.next
  let s := { s with next := base + BATCH }
  if job.end_ < base then
    -- the cursor has moved all the same
    some { shared := s, worker := { w with pc := .creditExit }, claimed := 1 }
  else do
    let hi := min (base + BATCH - 1) job.end_
    let (nLen, digits) ← writeDecimal base w.digits
    let w := { w with digits := digits, nLen := nLen }
    let w := if base ≤ hi then { w with pc := .scan base hi base } else afterBatch w
    return { shared := s, worker := w, claimed := 1 }

-- The first nonce of a batch is already in the buffer.
def nonceDigits (w : Worker) (base nonce : UInt64) : Option (DigitBuffer × Nat) :=
  if base < nonce then incrementDigits w.digits w.nLen else some (w.digits, w.nLen)

def scanStep (job : Job) (s : Shared) (w : Worker) (base hi nonce : UInt64) : Option Effect := do
  let (digits, nLen) ← nonceDigits w base nonce
  let tail ← Buffer.sliceTo digits nLen
  let state ← job.hash tail
  let w := { w with digits := digits, nLen := nLen, localCount := w.localCount + 1 }
  let w :=
    if checkStateDifficulty state job.diff then { w with pc := .record nonce (stateToBytes state) }
    else if nonce < hi then { w with pc := .scan base hi (nonce + 1) }
    else afterBatch w
  return { shared := s, worker := w, hashed := [(nonce, tail)] }

-- Every atomic access and the locked write of `found` is one step, and so is the hashing of a nonce,
-- which touches no shared object. `none` is a panic, which aborts the process.
def workerStep (job : Job) (s : Shared) (w : Worker) : Option Effect :=
  match w.pc with
  | .loadStop =>
    some { shared := s, worker := { w with pc := if s.stop then .creditExit else .loadShutdown } }
  | .loadShutdown =>
    some { shared := s, worker := { w with pc := if s.shutdown then .creditExit else .claim } }
  | .claim => claimStep job s w
  | .scan base hi nonce => scanStep job s w base hi nonce
  | .record nonce hash =>
    some { shared := { s with found := some (nonce, hash) }, worker := { w with pc := .raise } }
  | .raise => some { shared := { s with stop := true }, worker := { w with pc := .creditHit } }
  -- the `fetch_add` before `return`, at the end of a batch, and behind the loop
  | .creditHit =>
    some { shared := { s with counter := s.counter + w.localCount }
           worker := { w with pc := .done } }
  | .credit =>
    some { shared := { s with counter := s.counter + w.localCount }
           worker := { w with localCount := 0, pc := .loadStop } }
  | .creditExit =>
    some { shared := { s with counter := s.counter + w.localCount }
           worker := { w with pc := .done } }
  | .done => some { shared := s, worker := w }

theorem workerStep_shutdown {job : Job} {s : Shared} {w : Worker} {e : Effect}
    (moves : workerStep job s w = some e) : e.shared.shutdown = s.shutdown := by
  unfold workerStep at moves
  cases pc : w.pc with
  | claim =>
    simp only [pc, claimStep, Option.bind_eq_bind, Option.pure_def] at moves
    split at moves
    · obtain rfl := Option.some.inj moves
      rfl
    · obtain ⟨shown, -, same⟩ := Option.bind_eq_some_iff.mp moves
      obtain rfl := Option.some.inj same
      rfl
  | scan base hi nonce =>
    simp only [pc, scanStep, Option.bind_eq_bind, Option.bind_eq_some_iff, Option.pure_def] at moves
    obtain ⟨shown, -, tail, -, state, -, same⟩ := moves
    obtain rfl := Option.some.inj same
    rfl
  | _ =>
    simp only [pc] at moves
    obtain rfl := Option.some.inj moves
    rfl

def Hit (job : Job) (nonce : UInt64) (hash : List UInt8) : Prop :=
  ∃ state, job.hash (Decimal.text nonce.toNat) = some state ∧
    checkStateDifficulty state job.diff = true ∧ hash = stateToBytes state

/-- A worker's own state: the batch lies in the range and the buffer shows the last nonce. -/
def WorkerOk (job : Job) (w : Worker) : Prop :=
  match w.pc with
  | .scan base hi nonce =>
    job.start.toNat ≤ base.toNat ∧ base.toNat ≤ nonce.toNat ∧ nonce.toNat ≤ hi.toNat ∧
      hi.toNat ≤ job.end_.toNat ∧ hi.toNat ≤ base.toNat + 255 ∧
      Shows w.digits w.nLen (if base < nonce then nonce.toNat - 1 else nonce.toNat)
  | .record nonce hash =>
    job.start.toNat ≤ nonce.toNat ∧ nonce.toNat ≤ job.end_.toNat ∧ Hit job nonce hash
  | _ => True

inductive Move (job : Job) (s : Shared) (w : Worker) : Effect -> Prop
  | stopped (pc : w.pc = .loadStop) (raised : s.stop = true) :
    Move job s w { shared := s, worker := { w with pc := .creditExit } }
  | notStopped (pc : w.pc = .loadStop) :
    Move job s w { shared := s, worker := { w with pc := .loadShutdown } }
  | interrupted (pc : w.pc = .loadShutdown) (raised : s.shutdown = true) :
    Move job s w { shared := s, worker := { w with pc := .creditExit } }
  | notInterrupted (pc : w.pc = .loadShutdown) :
    Move job s w { shared := s, worker := { w with pc := .claim } }
  | overrun (pc : w.pc = .claim) (beyond : job.end_.toNat < s.next.toNat) :
    Move job s w
      { shared := { s with next := s.next + BATCH }
        worker := { w with pc := .creditExit }
        claimed := 1 }
  | batch (hi : UInt64) (digits : DigitBuffer) (nLen : Nat) (pc : w.pc = .claim)
      (inside : s.next.toNat ≤ job.end_.toNat)
      (top : hi.toNat = min (s.next.toNat + 255) job.end_.toNat)
      (shown : Shows digits nLen s.next.toNat) :
    Move job s w
      { shared := { s with next := s.next + BATCH }
        worker := { w with digits := digits, nLen := nLen, pc := .scan s.next hi s.next }
        claimed := 1 }
  | miss (base hi nonce : UInt64) (digits : DigitBuffer) (nLen : Nat) (state : State)
      (pc : w.pc = .scan base hi nonce) (more : nonce.toNat < hi.toNat)
      (shown : Shows digits nLen nonce.toNat)
      (hashed : job.hash (Decimal.text nonce.toNat) = some state)
      (poor : checkStateDifficulty state job.diff = false) :
    Move job s w
      { shared := s
        worker := { pc := .scan base hi (nonce + 1), localCount := w.localCount + 1
                    digits := digits, nLen := nLen }
        hashed := [(nonce, Decimal.text nonce.toNat)] }
  | lastMiss (base nonce : UInt64) (pc' : Pc) (digits : DigitBuffer) (nLen : Nat) (state : State)
      (pc : w.pc = .scan base nonce nonce) (after : pc' = .credit ∨ pc' = .loadStop)
      (hashed : job.hash (Decimal.text nonce.toNat) = some state)
      (poor : checkStateDifficulty state job.diff = false) :
    Move job s w
      { shared := s
        worker := { pc := pc', localCount := w.localCount + 1, digits := digits, nLen := nLen }
        hashed := [(nonce, Decimal.text nonce.toNat)] }
  | hit (base hi nonce : UInt64) (digits : DigitBuffer) (nLen : Nat) (hash : List UInt8)
      (pc : w.pc = .scan base hi nonce) (good : Hit job nonce hash) :
    Move job s w
      { shared := s
        worker := { pc := .record nonce hash, localCount := w.localCount + 1
                    digits := digits, nLen := nLen }
        hashed := [(nonce, Decimal.text nonce.toNat)] }
  | record (nonce : UInt64) (hash : List UInt8) (pc : w.pc = .record nonce hash) :
    Move job s w
      { shared := { s with found := some (nonce, hash) }, worker := { w with pc := .raise } }
  | raise (pc : w.pc = .raise) :
    Move job s w { shared := { s with stop := true }, worker := { w with pc := .creditHit } }
  | creditHit (pc : w.pc = .creditHit) :
    Move job s w
      { shared := { s with counter := s.counter + w.localCount }, worker := { w with pc := .done } }
  | credit (pc : w.pc = .credit) :
    Move job s w
      { shared := { s with counter := s.counter + w.localCount }
        worker := { w with localCount := 0, pc := .loadStop } }
  | creditExit (pc : w.pc = .creditExit) :
    Move job s w
      { shared := { s with counter := s.counter + w.localCount }, worker := { w with pc := .done } }

def BatchFits (job : Job) (s : Shared) : Prop :=
  s.next.toNat ≤ job.end_.toNat -> s.next.toNat + 255 < 2 ^ 64

theorem batch_top (base : UInt64) : base + BATCH - 1 = base + 255 := by
  rw [BATCH, UInt64.sub_eq_add_neg, UInt64.add_assoc]
  rfl

theorem claimStep_correct (job : Job) (s : Shared) (w : Worker) (pc : w.pc = .claim)
    (fits : BatchFits job s) : ∃ e, claimStep job s w = some e ∧ Move job s w e := by
  by_cases beyond : job.end_ < s.next
  · refine ⟨_, if_pos beyond, .overrun pc ?_⟩
    exact UInt64.lt_iff_toNat_lt.mp beyond
  · have inside : s.next.toNat ≤ job.end_.toNat := by
      rw [UInt64.lt_iff_toNat_lt] at beyond
      omega
    have room := fits inside
    have top : (min (s.next + BATCH - 1) job.end_).toNat =
        min (s.next.toNat + 255) job.end_.toNat := by
      rw [batch_top, UInt64.toNat_min, UInt64.toNat_add]
      simp only [UInt64.reduceToNat]
      omega
    have nonempty : s.next ≤ min (s.next + BATCH - 1) job.end_ := by
      rw [UInt64.le_iff_toNat_le, top]
      omega
    obtain ⟨digits, written, shown⟩ := writeDecimal_correct s.next w.digits
    refine ⟨_, ?_, .batch (min (s.next + BATCH - 1) job.end_) digits _ pc inside top shown⟩
    simp only [claimStep, beyond, if_false, written, nonempty, if_true, Option.bind_eq_bind,
      Option.bind_some, Option.pure_def]

theorem nonceDigits_correct (job : Job) (w : Worker) (base hi nonce : UInt64)
    (pc : w.pc = .scan base hi nonce) (ok : WorkerOk job w) :
    ∃ digits nLen, nonceDigits w base nonce = some (digits, nLen) ∧
      Shows digits nLen nonce.toNat := by
  simp only [WorkerOk, pc] at ok
  obtain ⟨-, -, -, -, -, shown⟩ := ok
  unfold nonceDigits
  by_cases later : base < nonce
  · simp only [later, if_true] at shown ⊢
    have positive : base.toNat < nonce.toNat := UInt64.lt_iff_toNat_lt.mp later
    have same : nonce.toNat - 1 + 1 = nonce.toNat := by omega
    obtain ⟨digits, nLen, done, next⟩ := incrementDigits_correct w.digits w.nLen
      (nonce.toNat - 1) (by have := nonce.toNat_lt; omega) shown
    exact ⟨digits, nLen, done, same ▸ next⟩
  · simp only [later, if_false] at shown ⊢
    exact ⟨w.digits, w.nLen, rfl, shown⟩

theorem scanStep_correct (job : Job) (s : Shared) (w : Worker) (base hi nonce : UInt64)
    (pc : w.pc = .scan base hi nonce) (ok : WorkerOk job w) :
    (scanStep job s w base hi nonce = none ∧ job.hash (Decimal.text nonce.toNat) = none) ∨
      ∃ e, scanStep job s w base hi nonce = some e ∧ Move job s w e := by
  obtain ⟨digits, nLen, buffered, shown⟩ := nonceDigits_correct job w base hi nonce pc ok
  simp only [WorkerOk, pc] at ok
  obtain ⟨-, -, within, -⟩ := ok
  simp only [scanStep, buffered, shown.sliceTo, Option.bind_eq_bind, Option.bind_some,
    Option.pure_def]
  cases hashed : job.hash (Decimal.text nonce.toNat) with
  | none => exact .inl ⟨rfl, rfl⟩
  | some state =>
    simp only [Option.bind_some, reduceCtorEq, false_and, false_or, Option.some.injEq,
      exists_eq_left']
    cases good : checkStateDifficulty state job.diff with
    | true =>
      simp only [if_true]
      exact .hit base hi nonce digits nLen _ pc ⟨state, hashed, good, rfl⟩
    | false =>
      simp only [Bool.false_eq_true, if_false]
      by_cases more : nonce < hi
      · simp only [more, if_true]
        exact .miss base hi nonce digits nLen state pc (UInt64.lt_iff_toNat_lt.mp more) shown
          hashed good
      · have last : hi = nonce := by
          apply UInt64.toNat.inj
          rw [UInt64.lt_iff_toNat_lt] at more
          omega
        subst last
        simp only [more, if_false]
        refine .lastMiss base hi _ digits nLen state pc ?_ hashed good
        split
        · exact .inl rfl
        · exact .inr rfl

/-- A worker moves, or it panics in `finish_raw`. -/
theorem workerStep_correct (job : Job) (s : Shared) (w : Worker) (active : w.pc ≠ .done)
    (ok : WorkerOk job w) (fits : w.pc = .claim -> BatchFits job s) :
    (workerStep job s w = none ∧ ∃ base hi nonce, w.pc = .scan base hi nonce ∧
      job.hash (Decimal.text nonce.toNat) = none) ∨
      ∃ e, workerStep job s w = some e ∧ Move job s w e := by
  unfold workerStep
  cases pc : w.pc with
  | loadStop =>
    right
    refine ⟨_, rfl, ?_⟩
    cases raised : s.stop with
    | true => exact .stopped pc raised
    | false => exact .notStopped pc
  | loadShutdown =>
    right
    refine ⟨_, rfl, ?_⟩
    cases raised : s.shutdown with
    | true => exact .interrupted pc raised
    | false => exact .notInterrupted pc
  | claim => exact .inr (claimStep_correct job s w pc (fits pc))
  | scan base hi nonce =>
    rcases scanStep_correct job s w base hi nonce pc ok with ⟨panics, hashed⟩ | moves
    · exact .inl ⟨panics, base, hi, nonce, rfl, hashed⟩
    · exact .inr moves
  | record nonce hash => exact .inr ⟨_, rfl, .record nonce hash pc⟩
  | raise => exact .inr ⟨_, rfl, .raise pc⟩
  | creditHit => exact .inr ⟨_, rfl, .creditHit pc⟩
  | credit => exact .inr ⟨_, rfl, .credit pc⟩
  | creditExit => exact .inr ⟨_, rfl, .creditExit pc⟩
  | done => exact absurd pc active

end ScamMiner.Cpu
