import Mathlib.Data.UInt
import ScamMiner.Backend.Counts

set_option autoImplicit false

namespace ScamMiner

open Transition (Cell Run Together)
open Cpu (Sys)

namespace Cpu

variable {cores : Nat}

def Sys.cell : Cell (Sys cores) UInt64 where
  get sys := sys.shared.counter
  set counter sys := { sys with shared := { sys.shared with counter := counter } }
  get_set _ _ := rfl
  set_get _ := rfl
  set_set _ _ _ := rfl

def Shared.credit (s : Shared) (d : UInt64) : Shared :=
  { s with counter := s.counter + d }

def Effect.credit (e : Effect) (d : UInt64) : Effect :=
  { e with shared := e.shared.credit d }

theorem claimStep_credit (job : Job) (s : Shared) (w : Worker) (d : UInt64) :
    claimStep job (s.credit d) w = (claimStep job s w).map fun e => e.credit d := by
  unfold claimStep
  by_cases beyond : job.end_ < s.next
  · rw [if_pos beyond, if_pos (show job.end_ < (s.credit d).next from beyond)]
    rfl
  · rw [if_neg beyond, if_neg (show ¬ job.end_ < (s.credit d).next from beyond)]
    change Option.bind (writeDecimal s.next w.digits) _ =
      (Option.bind (writeDecimal s.next w.digits) _).map _
    cases writeDecimal s.next w.digits <;> rfl

theorem scanStep_credit (job : Job) (s : Shared) (w : Worker) (base hi nonce d : UInt64) :
    scanStep job (s.credit d) w base hi nonce =
      (scanStep job s w base hi nonce).map fun e => e.credit d := by
  unfold scanStep
  cases nonceDigits w base nonce with
  | none => rfl
  | some shown =>
    obtain ⟨digits, nLen⟩ := shown
    cases tail : Buffer.sliceTo digits nLen with
    | none => simp [tail]
    | some tail' =>
      cases hashed : job.hash tail' with
      | none => simp [tail, hashed]
      | some state => simp [tail, hashed, Effect.credit]

theorem workerStep_credit (job : Job) (s : Shared) (w : Worker) (d : UInt64) :
    workerStep job (s.credit d) w = (workerStep job s w).map fun e => e.credit d := by
  have swap (c : UInt64) : s.counter + d + c = s.counter + c + d := by
    rw [UInt64.add_assoc, UInt64.add_comm d c, UInt64.add_assoc]
  obtain ⟨pc, localCount, digits, nLen⟩ := w
  cases pc with
  | claim => exact claimStep_credit job s _ d
  | scan base hi nonce => exact scanStep_credit job s _ base hi nonce d
  | creditHit => simp [workerStep, Effect.credit, Shared.credit, swap]
  | credit => simp [workerStep, Effect.credit, Shared.credit, swap]
  | creditExit => simp [workerStep, Effect.credit, Shared.credit, swap]
  | _ => rfl

theorem step_oblivious (job : Job) : (Sys.cell : Cell (Sys cores) UInt64).Oblivious (Step job) := by
  intro sys t d step
  cases step with
  | worker i e alive active moves =>
    have own := workerStep_credit job sys.shared (sys.workers i) d
    rw [moves] at own
    exact .worker _ i (e.credit d) alive active own
  | panic i alive active panics =>
    have own := workerStep_credit job sys.shared (sys.workers i) d
    rw [panics] at own
    exact .panic _ i alive active own
  | interrupt alive quiet => exact .interrupt _ alive quiet

end Cpu

theorem Cpu.hashes_credit {cores : Nat} {job : Cpu.Job} {sys t : Cpu.Sys cores} {nonce d : UInt64}
    (hashes : Cpu.Hashes job (Sys.cell.set (Sys.cell.get sys + d) sys)
      (Sys.cell.set (Sys.cell.get t + d) t) nonce) : Cpu.Hashes job sys t nonce := by
  obtain ⟨i, base, hi, pc, outcome⟩ := hashes
  refine ⟨i, base, hi, pc, ?_⟩
  have own : Cpu.workerStep job (sys.shared.credit d) (sys.workers i) = _ :=
    Cpu.workerStep_credit job sys.shared (sys.workers i) d
  rcases outcome with ⟨e, moves, after⟩ | ⟨panics, after⟩
  · obtain ⟨e', moves', rfl⟩ := Option.map_eq_some_iff.mp (own.symm.trans moves)
    exact .inl ⟨e', moves', Sys.cell.shift_inj d after⟩
  · have panics' := Option.map_eq_none_iff.mp (own.symm.trans panics)
    exact .inr ⟨panics', Sys.cell.shift_inj d after⟩

theorem Cpu.alignedStep_oblivious {cores : Nat} (message : List UInt8) (job : Cpu.Job) :
    (Sys.cell : Cell (Cpu.Sys cores) UInt64).Oblivious (Cpu.AlignedStep message job) := by
  rintro sys t d ⟨step, aligned⟩
  exact ⟨Cpu.step_oblivious job sys t d step, fun nonce hashes =>
    aligned nonce (Cpu.hashes_credit hashes)⟩

def Backend.cell : (b : Backend) -> Cell b.State UInt64
  | .cpu _ => Cpu.Sys.cell
  | .gpu _ _ => Gpu.GpuCall.cell

section
variable {task : Task} {b : Backend} {cores : Nat} {interrupted : Bool} {result : Option Solution}
  {c c' : UInt64} {k : Nat} {s t : b.State}

theorem Backend.step_oblivious (task : Task) (b : Backend) : b.cell.Oblivious (b.Step task) := by
  cases b with
  | cpu backend => exact Cpu.alignedStep_oblivious _ _
  | gpu dialect deviceName => exact Gpu.fitStep_oblivious _ _ _ _ _

theorem Backend.begins_set (begins : b.Begins task s) : b.Begins task (b.cell.set c s) := by
  cases b with
  | cpu backend =>
    obtain ⟨counter, early, rfl⟩ := begins
    refine ⟨c, early, ?_⟩
    unfold Cpu.Sys.enter
    split <;> rfl
  | gpu dialect deviceName => exact begins

theorem Backend.ends_set (c : UInt64) (t : b.State) :
    b.Ends task interrupted result (b.cell.set c t) ↔ b.Ends task interrupted result t := by
  cases b <;> rfl

theorem Backend.counts (within : b.Within cores) (range : task.InRange cores)
    (begins : b.Begins task s) (ends : b.Ends task interrupted result t)
    (run : Run (b.Step task) k s t) : ∃ count, task.Counts interrupted result count ∧
      b.cell.get t = b.cell.get s + UInt64.ofNat count := by
  cases b with
  | cpu backend =>
    obtain ⟨counter, early, rfl⟩ := begins
    obtain ⟨joined, rfl, rfl⟩ := ends
    have start : Sys.cell.get (Cpu.Sys.enter (.real task) backend.cores counter early) = counter := by
      unfold Cpu.Sys.enter
      split <;> rfl
    change ∃ count, _ ∧ Sys.cell.get t = Sys.cell.get _ + _
    rw [start]
    exact cpu_counts backend.positive (range.few within) run joined
  | gpu dialect deviceName =>
    obtain ⟨pc, device⟩ := s
    obtain ⟨pc', device'⟩ := t
    obtain rfl : pc = .enter := begins
    obtain ⟨rfl, rfl⟩ : interrupted = false ∧ pc' = .done (some result) := ends
    exact gpu_counts dialect range (Gpu.aligned_mined run)

theorem Backend.alone (within : b.Within cores) (range : task.InRange cores)
    (begins : b.Begins task s) (ends : b.Ends task interrupted result t)
    (run : Run (b.Step task) k (b.cell.set c s) (b.cell.set c' t)) :
    task.Replies interrupted result ∧
      ∃ count, task.Counts interrupted result count ∧ c' = c + UInt64.ofNat count := by
  have begun : b.Begins task (b.cell.set c s) := Backend.begins_set begins
  have ended := (Backend.ends_set c' t).mpr ends
  have mined : b.Mined task interrupted result := ⟨k, _, _, begun, run, ended⟩
  obtain ⟨count, counts, moved⟩ := Backend.counts within range begun ended run
  rw [b.cell.get_set, b.cell.get_set] at moved
  exact ⟨mined.replies within range, count, counts, moved⟩

theorem Backend.returns (b : Backend) (within : b.Within cores) (range : task.InRange cores)
    (short : task.prefixBytes.length ≤ 35) : ∃ s : b.State, b.Begins task s ∧
      ∀ c, ∃ k t, Run (b.Step task) k (b.cell.set c s) t ∧ ∃ result, b.Ends task false result t := by
  cases b with
  | cpu backend =>
    refine ⟨.enter (.real task) backend.cores 0 false, ⟨0, false, rfl⟩, fun c => ?_⟩
    obtain ⟨k, sys, run, joined, quiet⟩ := Cpu.short_returns backend (range.few within) short c
    have set : Sys.cell.set c (Cpu.Sys.enter (.real task) backend.cores 0 false) =
        .enter (.real task) backend.cores c false := by
      unfold Cpu.Sys.enter
      split <;> rfl
    refine ⟨k, sys, ?_, _, joined, quiet, rfl⟩
    exact set ▸ run
  | gpu dialect deviceName =>
    refine ⟨⟨.enter, .blank⟩, rfl, fun c => ?_⟩
    obtain ⟨k, t, result, run⟩ :=
      Gpu.short_returns dialect range short (Gpu.Device.cell.set c .blank)
    exact ⟨k, _, run, result, rfl, rfl⟩

end

theorem ofNat_sum {ι : Type} (s : Finset ι) (counts : ι -> Nat) :
    UInt64.ofNat (∑ i ∈ s, counts i) = ∑ i ∈ s, UInt64.ofNat (counts i) := by
  classical
  induction s using Finset.induction_on with
  | empty => rfl
  | insert i s fresh ih =>
    rw [Finset.sum_insert fresh, Finset.sum_insert fresh, UInt64.ofNat_add, ih]

section
variable {n : Nat} (tasks : Fin n -> Task) (backends : Fin n -> Backend)

-- Call `i` mines `tasks i` on `backends i`; all of them count into one counter.
def CallsStep : Together (fun i => (backends i).State) UInt64 ->
    Together (fun i => (backends i).State) UInt64 -> Prop :=
  Together.Step (fun i => (backends i).cell) fun i => (backends i).Step (tasks i)

variable {tasks backends}

/-- However the calls of a batch interleave, each answers as if it were alone, and the counter has
moved by what they count together. -/
theorem calls_counted {cores k : Nat} {s t : Together (fun i => (backends i).State) UInt64}
    (run : Run (CallsStep tasks backends) k s t) (within : ∀ i, (backends i).Within cores)
    (range : ∀ i, (tasks i).InRange cores)
    (begins : ∀ i, (backends i).Begins (tasks i) (s.parts i)) (interrupted : Fin n -> Bool)
    (results : Fin n -> Option Solution)
    (ends : ∀ i, (backends i).Ends (tasks i) (interrupted i) (results i) (t.parts i)) :
    (∀ i, (tasks i).Replies (interrupted i) (results i)) ∧
      ∃ counts : Fin n -> Nat, t.amount = s.amount + UInt64.ofNat (∑ i, counts i) ∧
        ∀ i, (tasks i).Counts (interrupted i) (results i) (counts i) := by
  obtain ⟨added, apart⟩ := Together.apart (fun i => (backends i).step_oblivious (tasks i)) run
  have own (i : Fin n) : (tasks i).Replies (interrupted i) (results i) ∧ ∃ count,
      (tasks i).Counts (interrupted i) (results i) count ∧ added i = UInt64.ofNat count := by
    obtain ⟨k, alone⟩ := apart.alone i
    obtain ⟨replies, count, counts, moved⟩ :=
      Backend.alone (within i) (range i) (begins i) (ends i) alone
    exact ⟨replies, count, counts, add_left_cancel moved⟩
  refine ⟨fun i => (own i).1, ?_⟩
  choose counts counted same using fun i => (own i).2
  refine ⟨counts, ?_, counted⟩
  rw [apart.amount, ofNat_sum]
  simp only [same]

theorem calls_return {cores : Nat} (within : ∀ i, (backends i).Within cores)
    (range : ∀ i, (tasks i).InRange cores) (short : ∀ i, (tasks i).prefixBytes.length ≤ 35)
    (amount : UInt64) :
    ∃ parts, (∀ i, (backends i).Begins (tasks i) (parts i)) ∧
      ∃ k t, Run (CallsStep tasks backends) k ⟨amount, parts⟩ t ∧
        ∀ i, ∃ result, (backends i).Ends (tasks i) false result (t.parts i) := by
  choose parts begins alone using fun i => (backends i).returns (within i) (range i) (short i)
  let ended (i : Fin n) (x : (backends i).State) : Prop :=
    ∃ result, (backends i).Ends (tasks i) false result x
  have kept (i : Fin n) (c : UInt64) (x : (backends i).State) :
      ended i ((backends i).cell.set c x) ↔ ended i x := by
    simp only [ended, Backend.ends_set]
  let first : Together (fun i => (backends i).State) UInt64 := ⟨amount, parts⟩
  exact ⟨parts, begins, Together.reaches kept alone⟩

end

theorem calls_counted_example : ∃ (amount : UInt64) (results : Fin 3 -> Option Solution)
    (counts : Fin 3 -> Nat), (∀ i, Task.Replies ⟨.num 1, "", 1, 5, 900⟩ false (results i)) ∧
      amount = 7 + UInt64.ofNat (∑ i, counts i) ∧
      ∀ i, Task.Counts ⟨.num 1, "", 1, 5, 900⟩ false (results i) (counts i) := by
  let tasks : Fin 3 -> Task := fun _ => ⟨.num 1, "", 1, 5, 900⟩
  let backends : Fin 3 -> Backend := ![.cpu (.new 2), .gpu .opencl "gfx1100", .gpu .wgsl "Arc A770"]
  have within : ∀ i, (backends i).Within 2 :=
    Fin.forall_fin_succ.mpr ⟨Nat.le_refl 2, Fin.forall_fin_two.mpr ⟨trivial, trivial⟩⟩
  have range : ∀ i, (tasks i).InRange 2 := fun _ => ⟨by decide, by decide⟩
  have short : (Task.prefixBytes ⟨.num 1, "", 1, 5, 900⟩).length ≤ 35 := by decide +kernel
  obtain ⟨parts, begins, k, t, run, ends⟩ := calls_return within range (fun _ => short) 7
  choose results ended using ends
  obtain ⟨replies, counts, moved, counted⟩ :=
    calls_counted run within range begins (fun _ => false) results ended
  exact ⟨t.amount, results, counts, replies, moved, counted⟩

end ScamMiner
