import ScamMiner.Cpu.Worker

set_option autoImplicit false

namespace ScamMiner.Cpu

open Transition (Run Final total total_update)

-- `claims` and `hashed` are history: the claims made and the nonces hashed, last one first.
structure Sys (cores : Nat) where
  shared : Shared
  workers : Fin cores -> Worker
  claims : Nat
  hashed : List (UInt64 × List UInt8)
  aborted : Bool

variable {cores : Nat}

def Worker.spawn : Worker :=
  { pc := .loadStop, localCount := 0, digits := Vector.replicate 20 0, nLen := 0 }

def Sys.start (job : Job) (cores : Nat) (counter : UInt64) (shutdown : Bool) : Sys cores :=
  { shared := { next := job.start, stop := false, found := none, counter := counter
                shutdown := shutdown }
    workers := fun _ => .spawn
    claims := 0
    hashed := []
    aborted := false }

def Sys.after (sys : Sys cores) (i : Fin cores) (e : Effect) : Sys cores :=
  { sys with
    shared := e.shared
    workers := Function.update sys.workers i e.worker
    claims := sys.claims + e.claimed
    hashed := e.hashed ++ sys.hashed }

def Sys.interrupt (sys : Sys cores) : Sys cores :=
  { sys with shared := { sys.shared with shutdown := true } }

def Sys.abort (sys : Sys cores) : Sys cores :=
  { sys with aborted := true }

inductive Step (job : Job) : Sys cores -> Sys cores -> Prop
  | worker (sys : Sys cores) (i : Fin cores) (e : Effect) (alive : sys.aborted = false)
      (active : (sys.workers i).pc ≠ .done)
      (moves : workerStep job sys.shared (sys.workers i) = some e) : Step job sys (sys.after i e)
  | panic (sys : Sys cores) (i : Fin cores) (alive : sys.aborted = false)
      (active : (sys.workers i).pc ≠ .done)
      (panics : workerStep job sys.shared (sys.workers i) = none) : Step job sys sys.abort
  | interrupt (sys : Sys cores) (alive : sys.aborted = false)
      (quiet : sys.shared.shutdown = false) : Step job sys sys.interrupt

def Sys.Joined (sys : Sys cores) : Prop :=
  sys.aborted = false ∧ ∀ i, (sys.workers i).pc = .done

def QuietStep (job : Job) (s t : Sys cores) : Prop :=
  Step job s t ∧ t.shared.shutdown = s.shared.shutdown

theorem joined_of_final {job : Job} {sys : Sys cores} (final : Final (QuietStep job) sys) :
    sys.aborted = true ∨ sys.Joined := by
  by_cases alive : sys.aborted = false
  · refine .inr ⟨alive, fun i => ?_⟩
    by_contra active
    cases moves : workerStep job sys.shared (sys.workers i) with
    | none => exact final _ ⟨.panic sys i alive active moves, rfl⟩
    | some e => exact final _ ⟨.worker sys i e alive active moves, workerStep_shutdown moves⟩
  · exact .inl (by simpa using alive)

-- The start of claim number `k`: the cursor wraps at `2 ^ 64`.
def baseOf (job : Job) (k : Nat) : Nat :=
  (job.start.toNat + 256 * k) % 2 ^ 64

def batches (job : Job) : Nat :=
  (job.end_.toNat - job.start.toNat) / 256 + 1

/-- How many claims there can be while `left` of the workers have left the loop. -/
structure ClaimPlan (job : Job) (cores : Nat) where
  limit : Nat -> Nat
  mono : ∀ left, limit left ≤ limit (left + 1)
  stay : ∀ left k, left < cores -> k ≤ limit left -> baseOf job k ≤ job.end_.toNat ->
    job.start.toNat ≤ baseOf job k ∧ baseOf job k + 255 < 2 ^ 64 ∧ k + 1 ≤ limit left
  leave : ∀ left k, left < cores -> k ≤ limit left -> job.end_.toNat < baseOf job k ->
    batches job ≤ k ∧ k + 1 ≤ limit (left + 1)

-- No claim passes `2 ^ 64`: each worker overruns the range at most once.
def ClaimPlan.straight (job : Job) (cores : Nat) (ordered : job.start.toNat ≤ job.end_.toNat)
    (fits : job.start.toNat + 256 * (batches job + cores - 1) < 2 ^ 64) : ClaimPlan job cores where
  limit left := batches job + left
  mono left := by omega
  stay left k less within inside := by
    have exact : baseOf job k = job.start.toNat + 256 * k := Nat.mod_eq_of_lt (by omega)
    rw [exact] at inside ⊢
    have early : k + 1 ≤ batches job := by unfold batches; omega
    omega
  leave left k less within beyond := by
    have exact : baseOf job k = job.start.toNat + 256 * k := Nat.mod_eq_of_lt (by omega)
    rw [exact] at beyond
    unfold batches at within ⊢
    omega

-- A range that starts in the first batch of all: after a wrap the cursor takes the same values.
def ClaimPlan.cyclic (job : Job) (cores : Nat) (ordered : job.start.toNat ≤ job.end_.toNat)
    (low : job.start.toNat < 256)
    (fits : job.start.toNat + 256 * batches job < 2 ^ 64) : ClaimPlan job cores where
  limit left := 2 ^ 56 * left + batches job
  mono left := by omega
  stay left k less within inside := by
    have exact : baseOf job k = job.start.toNat + 256 * (k % 2 ^ 56) := by unfold baseOf; omega
    rw [exact] at inside ⊢
    have early : k % 2 ^ 56 + 1 ≤ batches job := by unfold batches; omega
    omega
  leave left k less within beyond := by
    have exact : baseOf job k = job.start.toNat + 256 * (k % 2 ^ 56) := by unfold baseOf; omega
    rw [exact] at beyond
    have late : batches job ≤ k % 2 ^ 56 := by unfold batches; omega
    omega

def Pc.left : Pc -> Nat
  | .creditExit => 1
  | .done => 1
  | _ => 0

def Pc.Pending : Pc -> Nat -> Prop
  | .scan _ hi nonce, n => nonce.toNat ≤ n ∧ n ≤ hi.toNat
  | _, _ => False

def Pc.Recording : Pc -> Prop
  | .record _ _ => True
  | _ => False

def Sys.SomeHit (sys : Sys cores) : Prop :=
  sys.shared.found.isSome = true ∨ ∃ i, (sys.workers i).pc.Recording

def Sys.Hashed (sys : Sys cores) (n : Nat) : Prop :=
  ∃ entry ∈ sys.hashed, entry.1.toNat = n

def Sys.Excused (job : Job) (sys : Sys cores) : Pc -> Prop
  | .raise => sys.shared.found.isSome = true
  | .creditHit => sys.shared.found.isSome = true
  | .creditExit => sys.shared.shutdown = true ∨ batches job ≤ sys.claims ∨
      sys.shared.found.isSome = true
  | .done => sys.shared.shutdown = true ∨ batches job ≤ sys.claims ∨
      sys.shared.found.isSome = true
  | _ => True

structure Inv (job : Job) (plan : ClaimPlan job cores) (sys : Sys cores) : Prop where
  within : sys.claims ≤ plan.limit (total (fun w => w.pc.left) sys.workers)
  cursor : sys.shared.next.toNat = baseOf job sys.claims
  workers : ∀ i, WorkerOk job (sys.workers i)
  excused : ∀ i, sys.Excused job (sys.workers i).pc
  logged : ∀ entry ∈ sys.hashed, job.start.toNat ≤ entry.1.toNat ∧
    entry.1.toNat ≤ job.end_.toNat ∧ entry.2 = Decimal.text entry.1.toNat ∧
    (job.hash entry.2).isSome = true
  covered : ∀ n, job.start.toNat ≤ n -> n ≤ job.end_.toNat ->
    (n - job.start.toNat) / 256 < sys.claims ->
    sys.Hashed n ∨ (∃ i, (sys.workers i).pc.Pending n) ∨ sys.SomeHit
  hits : ∀ entry ∈ sys.hashed, ∀ hash, Hit job entry.1 hash -> sys.SomeHit
  found : ∀ nonce hash, sys.shared.found = some (nonce, hash) ->
    job.start.toNat ≤ nonce.toNat ∧ nonce.toNat ≤ job.end_.toNat ∧ Hit job nonce hash
  stop : sys.shared.stop = true -> sys.shared.found.isSome = true

theorem Sys.start_inv (job : Job) (plan : ClaimPlan job cores) (counter : UInt64)
    (shutdown : Bool) : Inv job plan (Sys.start job cores counter shutdown) where
  within := Nat.zero_le _
  cursor := by
    have bound := job.start.toNat_lt
    simp only [Sys.start, baseOf]
    omega
  workers _ := trivial
  excused _ := trivial
  logged := by simp [Sys.start]
  covered := by simp [Sys.start]
  hits := by simp [Sys.start]
  found := by simp [Sys.start]
  stop := by simp [Sys.start]

theorem Sys.left_lt (sys : Sys cores) (i : Fin cores) (staying : (sys.workers i).pc.left = 0) :
    total (fun w => w.pc.left) sys.workers < cores := by
  have one (w : Worker) : w.pc.left ≤ 1 := by
    cases w.pc <;> simp [Pc.left]
  have less := Transition.total_lt (fun w : Worker => w.pc.left) sys.workers 1 (fun j => one _) i
    (by omega)
  omega

variable {job : Job} {plan : ClaimPlan job cores} {sys : Sys cores} {i : Fin cores} {e : Effect}

theorem Inv.batchFits (inv : Inv job plan sys) (i : Fin cores)
    (staying : (sys.workers i).pc.left = 0) : BatchFits job sys.shared := by
  intro inside
  rw [inv.cursor] at inside ⊢
  exact (plan.stay _ _ (sys.left_lt i staying) inv.within inside).2.1

theorem Move.claims {s : Shared} {w : Worker} (move : Move job s w e) :
    (e.claimed = 0 ∧ e.shared.next = s.next ∧
      (e.worker.pc.left = w.pc.left ∨ e.worker.pc.left = w.pc.left + 1)) ∨
    (e.claimed = 1 ∧ e.shared.next = s.next + BATCH ∧ w.pc.left = 0 ∧
      (job.end_.toNat < s.next.toNat ∧ e.worker.pc.left = 1 ∨
        s.next.toNat ≤ job.end_.toNat ∧ e.worker.pc.left = 0)) := by
  cases move with
  | overrun pc beyond => simp [pc, Pc.left, beyond]
  | batch hi digits nLen pc inside => simp [pc, Pc.left, inside]
  | lastMiss base nonce pc' digits nLen state pc after =>
    rcases after with rfl | rfl <;> simp [pc, Pc.left]
  | _ => simp [*, Pc.left]

theorem Inv.within_after (inv : Inv job plan sys)
    (move : Move job sys.shared (sys.workers i) e) :
    (sys.after i e).claims ≤
      plan.limit (total (fun w => w.pc.left) (sys.after i e).workers) := by
  have change := total_update (fun w : Worker => w.pc.left) sys.workers i e.worker
  have within := inv.within
  have grows := plan.mono (total (fun w : Worker => w.pc.left) sys.workers)
  simp only [Sys.after]
  -- no claim, a claim past the range by a worker that leaves, or a claim inside it
  rcases move.claims with ⟨same, -, stays | leaves⟩ | ⟨one, -, staying, beyond⟩
  · rw [show total _ _ = total (fun w : Worker => w.pc.left) sys.workers by omega]
    omega
  · rw [show total _ _ = total (fun w : Worker => w.pc.left) sys.workers + 1 by omega]
    omega
  · have less := sys.left_lt i staying
    rw [inv.cursor] at beyond
    rcases beyond with ⟨beyond, leaves⟩ | ⟨inside, stays⟩
    · rw [show total _ _ = total (fun w : Worker => w.pc.left) sys.workers + 1 by omega]
      have := (plan.leave _ _ less within beyond).2
      omega
    · rw [show total _ _ = total (fun w : Worker => w.pc.left) sys.workers by omega]
      have := (plan.stay _ _ less within inside).2.2
      omega

theorem baseOf_succ (k : Nat) : baseOf job (k + 1) = (baseOf job k + 256) % 2 ^ 64 := by
  unfold baseOf
  omega

theorem Inv.cursor_after (inv : Inv job plan sys)
    (move : Move job sys.shared (sys.workers i) e) :
    (sys.after i e).shared.next.toNat = baseOf job (sys.after i e).claims := by
  have cursor := inv.cursor
  simp only [Sys.after]
  rcases move.claims with ⟨same, next, -⟩ | ⟨one, next, -⟩
  · rw [same, next, cursor, Nat.add_zero]
  · rw [one, next, baseOf_succ, UInt64.toNat_add, cursor]
    rfl

theorem Move.ok {s : Shared} {w : Worker} (move : Move job s w e) (ok : WorkerOk job w)
    (low : w.pc = .claim -> s.next.toNat ≤ job.end_.toNat -> job.start.toNat ≤ s.next.toNat) :
    WorkerOk job e.worker := by
  cases move with
  | batch hi digits nLen pc inside top shown =>
    have room := low pc inside
    simp only [WorkerOk, UInt64.lt_irrefl, if_false]
    exact ⟨room, Nat.le_refl _, by omega, by omega, by omega, shown⟩
  | miss base hi nonce digits nLen state pc more shown =>
    simp only [WorkerOk, pc] at ok
    have bound := hi.toNat_lt
    have next : (nonce + 1).toNat = nonce.toNat + 1 := by
      simp only [UInt64.toNat_add, UInt64.reduceToNat]
      omega
    have later : base < nonce + 1 := by
      rw [UInt64.lt_iff_toNat_lt, next]
      omega
    simp only [WorkerOk, later, if_true, next, Nat.add_sub_cancel]
    exact ⟨ok.1, by omega, by omega, ok.2.2.2.1, ok.2.2.2.2.1, shown⟩
  | lastMiss base nonce pc' digits nLen state pc after =>
    rcases after with rfl | rfl <;> trivial
  | hit base hi nonce digits nLen hash pc good =>
    simp only [WorkerOk, pc] at ok
    exact ⟨by omega, by omega, good⟩
  | _ => trivial

theorem Inv.workers_after (inv : Inv job plan sys)
    (move : Move job sys.shared (sys.workers i) e) (j : Fin cores) :
    WorkerOk job ((sys.after i e).workers j) := by
  by_cases same : j = i
  · subst same
    simp only [Sys.after, Function.update_self]
    refine move.ok (inv.workers j) fun pc inside => ?_
    rw [inv.cursor] at inside ⊢
    exact (plan.stay _ _ (sys.left_lt j (by rw [pc]; rfl)) inv.within inside).1
  · simp only [Sys.after, Function.update_of_ne same]
    exact inv.workers j

theorem Move.found_mono {s : Shared} {w : Worker} (move : Move job s w e)
    (found : s.found.isSome = true) : e.shared.found.isSome = true := by
  cases move <;> first | exact found | rfl

theorem Move.shutdown {s : Shared} {w : Worker} (move : Move job s w e) :
    e.shared.shutdown = s.shutdown := by
  cases move <;> rfl

theorem Move.recording {s : Shared} {w : Worker} (move : Move job s w e)
    (recording : w.pc.Recording) : e.shared.found.isSome = true := by
  cases move with
  | record => rfl
  | _ => simp_all [Pc.Recording]

theorem Sys.SomeHit.after (someHit : sys.SomeHit)
    (move : Move job sys.shared (sys.workers i) e) : (sys.after i e).SomeHit := by
  rcases someHit with found | ⟨j, recording⟩
  · exact .inl (move.found_mono found)
  · by_cases same : j = i
    · subst same
      exact .inl (move.recording recording)
    · refine .inr ⟨j, ?_⟩
      simpa only [Sys.after, Function.update_of_ne same] using recording

theorem Sys.Excused.after {pc : Pc} (excused : sys.Excused job pc)
    (move : Move job sys.shared (sys.workers i) e) : (sys.after i e).Excused job pc := by
  have published := move.found_mono
  have more : sys.claims ≤ sys.claims + e.claimed := Nat.le_add_right _ _
  have leaving (why : sys.shared.shutdown = true ∨ batches job ≤ sys.claims ∨
      sys.shared.found.isSome = true) : e.shared.shutdown = true ∨
      batches job ≤ sys.claims + e.claimed ∨ e.shared.found.isSome = true := by
    rw [move.shutdown]
    rcases why with down | enough | found
    · exact .inl down
    · exact .inr (.inl (enough.trans more))
    · exact .inr (.inr (published found))
  cases pc with
  | raise => exact published excused
  | creditHit => exact published excused
  | creditExit => exact leaving excused
  | done => exact leaving excused
  | _ => trivial

theorem Inv.excused_after (inv : Inv job plan sys)
    (move : Move job sys.shared (sys.workers i) e) (j : Fin cores) :
    (sys.after i e).Excused job ((sys.after i e).workers j).pc := by
  by_cases same : j = i
  · subst same
    have before := (inv.excused j).after move
    have staying := sys.left_lt j
    simp only [Sys.after, Function.update_self] at before ⊢
    -- a worker leaves for one of three reasons; behind a hit it keeps the one it has
    cases move with
    | stopped pc raised => exact .inr (.inr (inv.stop raised))
    | interrupted pc raised => exact .inl raised
    | overrun pc beyond =>
      rw [inv.cursor] at beyond
      have late := plan.leave _ _ (staying (by rw [pc]; rfl)) inv.within beyond
      exact .inr (.inl (late.1.trans (Nat.le_add_right _ _)))
    | lastMiss base nonce pc' digits nLen state pc after =>
      rcases after with rfl | rfl <;> trivial
    | record => rfl
    | raise pc => rw [pc] at before; exact before
    | creditHit pc => rw [pc] at before; exact .inr (.inr before)
    | creditExit pc => rw [pc] at before; exact before
    | _ => trivial
  · simp only [Sys.after, Function.update_of_ne same]
    exact (inv.excused j).after move

theorem Inv.found_after (inv : Inv job plan sys) (move : Move job sys.shared (sys.workers i) e)
    (nonce : UInt64) (hash : List UInt8)
    (present : (sys.after i e).shared.found = some (nonce, hash)) :
    job.start.toNat ≤ nonce.toNat ∧ nonce.toNat ≤ job.end_.toNat ∧ Hit job nonce hash := by
  have ok := inv.workers i
  simp only [Sys.after] at present
  cases move with
  | record nonce' hash' pc =>
    simp only [WorkerOk, pc] at ok
    obtain ⟨rfl, rfl⟩ : nonce' = nonce ∧ hash' = hash := by simpa using present
    exact ok
  | _ => exact inv.found nonce hash present

theorem Inv.stop_after (inv : Inv job plan sys) (move : Move job sys.shared (sys.workers i) e)
    (raised : (sys.after i e).shared.stop = true) :
    (sys.after i e).shared.found.isSome = true := by
  have excused := inv.excused i
  simp only [Sys.after] at raised ⊢
  cases move with
  | record => rfl
  | raise pc => rw [pc] at excused; exact excused
  | _ => exact inv.stop raised

theorem Move.hashes {s : Shared} {w : Worker} (move : Move job s w e) :
    e.hashed = [] ∨ ∃ base hi nonce, w.pc = .scan base hi nonce ∧
      e.hashed = [(nonce, Decimal.text nonce.toNat)] ∧
      (job.hash (Decimal.text nonce.toNat)).isSome = true ∧
      ∀ hash, Hit job nonce hash -> e.worker.pc.Recording := by
  cases move with
  | miss base hi nonce digits nLen state pc more shown hashed poor =>
    refine .inr ⟨base, hi, nonce, pc, rfl, by simp [hashed], ?_⟩
    rintro hash ⟨state', hashed', good, -⟩
    simp_all
  | lastMiss base nonce pc' digits nLen state pc after hashed poor =>
    refine .inr ⟨base, nonce, nonce, pc, rfl, by simp [hashed], ?_⟩
    rintro hash ⟨state', hashed', good, -⟩
    simp_all
  | hit base hi nonce digits nLen hash pc good =>
    obtain ⟨state, hashed, -⟩ := good
    exact .inr ⟨base, hi, nonce, pc, rfl, by simp [hashed], fun _ _ => trivial⟩
  | _ => exact .inl rfl

theorem Inv.logged_after (inv : Inv job plan sys) (move : Move job sys.shared (sys.workers i) e)
    (entry : UInt64 × List UInt8) (member : entry ∈ (sys.after i e).hashed) :
    job.start.toNat ≤ entry.1.toNat ∧ entry.1.toNat ≤ job.end_.toNat ∧
      entry.2 = Decimal.text entry.1.toNat ∧ (job.hash entry.2).isSome = true := by
  have ok := inv.workers i
  simp only [Sys.after, List.mem_append] at member
  rcases member with new | old
  · rcases move.hashes with none | ⟨base, hi, nonce, pc, one, defined, -⟩
    · simp [none] at new
    · simp only [WorkerOk, pc] at ok
      obtain ⟨low, here, top, high, -⟩ := ok
      obtain rfl : entry = (nonce, Decimal.text nonce.toNat) := by simpa [one] using new
      exact ⟨low.trans here, top.trans high, rfl, defined⟩
  · exact inv.logged entry old

theorem Inv.hits_after (inv : Inv job plan sys) (move : Move job sys.shared (sys.workers i) e)
    (entry : UInt64 × List UInt8) (member : entry ∈ (sys.after i e).hashed)
    (hash : List UInt8) (good : Hit job entry.1 hash) : (sys.after i e).SomeHit := by
  simp only [Sys.after, List.mem_append] at member
  rcases member with new | old
  · rcases move.hashes with none | ⟨base, hi, nonce, pc, one, -, recording⟩
    · simp [none] at new
    · obtain rfl : entry = (nonce, Decimal.text nonce.toNat) := by simpa [one] using new
      refine .inr ⟨i, ?_⟩
      simpa only [Sys.after, Function.update_self] using recording hash good
  · exact (inv.hits entry old hash good).after move

theorem Sys.Hashed.after {n : Nat} (hashed : sys.Hashed n) : (sys.after i e).Hashed n := by
  obtain ⟨entry, member, same⟩ := hashed
  exact ⟨entry, List.mem_append_right _ member, same⟩

theorem Move.pending {s : Shared} {w : Worker} (move : Move job s w e) (n : Nat)
    (pending : w.pc.Pending n) :
    (∃ entry ∈ e.hashed, entry.1.toNat = n) ∨ e.worker.pc.Pending n ∨ e.worker.pc.Recording := by
  cases move with
  | miss base hi nonce digits nLen state pc more =>
    simp only [pc, Pc.Pending] at pending ⊢
    have bound := hi.toNat_lt
    have next : (nonce + 1).toNat = nonce.toNat + 1 := by
      simp only [UInt64.toNat_add, UInt64.reduceToNat]
      omega
    by_cases here : nonce.toNat = n
    · exact .inl ⟨_, List.mem_singleton_self _, here⟩
    · exact .inr (.inl (by omega))
  | lastMiss base nonce pc' digits nLen state pc =>
    simp only [pc, Pc.Pending] at pending
    exact .inl ⟨_, List.mem_singleton_self _, by simp only; omega⟩
  | hit => exact .inr (.inr trivial)
  | _ => simp_all [Pc.Pending]

theorem Inv.covered_after (inv : Inv job plan sys)
    (move : Move job sys.shared (sys.workers i) e) (n : Nat) (above : job.start.toNat ≤ n)
    (below : n ≤ job.end_.toNat)
    (claimed : (n - job.start.toNat) / 256 < (sys.after i e).claims) :
    (sys.after i e).Hashed n ∨ (∃ j, ((sys.after i e).workers j).pc.Pending n) ∨
      (sys.after i e).SomeHit := by
  by_cases old : (n - job.start.toNat) / 256 < sys.claims
  -- claimed before: hashed, pending or given up for a hit, and the move keeps one of the three
  · rcases inv.covered n above below old with hashed | ⟨j, pending⟩ | someHit
    · exact .inl hashed.after
    · by_cases same : j = i
      · subst same
        rcases move.pending n pending with ⟨entry, new, here⟩ | pending | recording
        · exact .inl ⟨entry, List.mem_append_left _ new, here⟩
        · exact .inr (.inl ⟨j, by simpa only [Sys.after, Function.update_self] using pending⟩)
        · exact .inr (.inr (.inr ⟨j, by
            simpa only [Sys.after, Function.update_self] using recording⟩))
      · exact .inr (.inl ⟨j, by simpa only [Sys.after, Function.update_of_ne same] using pending⟩)
    · exact .inr (.inr (someHit.after move))
  · -- the batch that this move claims
    have last : (n - job.start.toNat) / 256 = sys.claims := by
      rcases move.claims with ⟨none, -⟩ | ⟨one, -⟩ <;> simp only [Sys.after] at claimed <;> omega
    have bound := job.end_.toNat_lt
    have here : sys.shared.next.toNat = job.start.toNat + 256 * sys.claims := by
      rw [inv.cursor]
      exact Nat.mod_eq_of_lt (by omega)
    refine .inr (.inl ⟨i, ?_⟩)
    simp only [Sys.after, Function.update_self] at claimed ⊢
    cases move with
    | batch hi digits nLen pc inside top =>
      simp only [Pc.Pending]
      omega
    | overrun pc beyond => omega
    | _ => exact absurd claimed old

theorem Inv.after (inv : Inv job plan sys) (move : Move job sys.shared (sys.workers i) e) :
    Inv job plan (sys.after i e) where
  within := inv.within_after move
  cursor := inv.cursor_after move
  workers := inv.workers_after move
  excused := inv.excused_after move
  logged := inv.logged_after move
  covered := inv.covered_after move
  hits := inv.hits_after move
  found := inv.found_after move
  stop := inv.stop_after move

theorem Inv.interrupt (inv : Inv job plan sys) : Inv job plan sys.interrupt :=
  { inv with
    excused := fun i => by
      have before := inv.excused i
      simp only [Sys.interrupt]
      cases pc : (sys.workers i).pc with
      | raise => rw [pc] at before; exact before
      | creditHit => rw [pc] at before; exact before
      | creditExit => exact .inl rfl
      | done => exact .inl rfl
      | _ => trivial }

theorem Inv.abort (inv : Inv job plan sys) : Inv job plan sys.abort :=
  { inv with }

theorem Pc.left_active {pc : Pc} (active : pc ≠ .done) (notExit : pc ≠ .creditExit) :
    pc.left = 0 := by
  cases pc <;> simp_all [Pc.left]

theorem Inv.moves (inv : Inv job plan sys) (i : Fin cores) (active : (sys.workers i).pc ≠ .done) :
    (workerStep job sys.shared (sys.workers i) = none ∧
      ∃ nonce : UInt64, job.start.toNat ≤ nonce.toNat ∧ nonce.toNat ≤ job.end_.toNat ∧
        job.hash (Decimal.text nonce.toNat) = none) ∨
      ∃ e, workerStep job sys.shared (sys.workers i) = some e ∧
        Move job sys.shared (sys.workers i) e := by
  by_cases exits : (sys.workers i).pc = .creditExit
  · exact .inr ⟨_, by simp only [workerStep, exits], .creditExit exits⟩
  · have ok := inv.workers i
    have fits := inv.batchFits i (Pc.left_active active exits)
    rcases workerStep_correct job sys.shared _ active ok fun _ => fits with
      ⟨panics, base, hi, nonce, pc, bad⟩ | moves
    · simp only [WorkerOk, pc] at ok
      exact .inl ⟨panics, nonce, by omega, by omega, bad⟩
    · exact .inr moves

theorem Inv.move (inv : Inv job plan sys) (active : (sys.workers i).pc ≠ .done)
    (moves : workerStep job sys.shared (sys.workers i) = some e) :
    Move job sys.shared (sys.workers i) e := by
  rcases inv.moves i active with ⟨panics, -⟩ | ⟨e', moves', move⟩
  · simp [panics] at moves
  · obtain rfl : e' = e := by simpa [moves'] using moves
    exact move

theorem Inv.step (plan : ClaimPlan job cores) (s t : Sys cores) (inv : Inv job plan s)
    (step : Step job s t) : Inv job plan t := by
  cases step with
  | worker i e alive active moves => exact inv.after (inv.move active moves)
  | panic i alive active panics => exact inv.abort
  | interrupt alive quiet => exact inv.interrupt

end ScamMiner.Cpu
