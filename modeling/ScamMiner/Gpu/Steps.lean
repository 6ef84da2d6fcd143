import ScamMiner.Gpu.Call
import ScamMiner.Shared.Interleave

set_option autoImplicit false

namespace ScamMiner.Gpu

open Fips180 (State Block)
open Transition (Cell Run Final)

def Device.cell : Cell Device UInt64 where
  get s := s.counter
  set counter s := { s with counter := counter }
  get_set _ _ := rfl
  set_get _ := rfl
  set_set _ _ _ := rfl

def Device.written (s : Device) (words : TailWords) (params : Params) : Device :=
  { s with constantBuf := words, paramsBuf := params }

section
variable {β : Type} {dialect : Dialect} {spurious : Bool} {s t : Device} {o : Option β}

theorem copy_bind (harmless : Device -> Prop) (write : Device -> Device)
    (rest : Bool -> Proc Device β) :
    (copyToDevice .none harmless write >>= rest) s o t ↔ rest true (write s) o t := by
  simp [Proc.bind_iff, copyToDevice, Faults.copyMayFail]

theorem launch_bind (n : Nat) (rest : Bool -> Proc Device β) :
    (launch dialect .none spurious n >>= rest) s o t ↔ ∃ after,
      KernelRun dialect spurious s.constantBuf s.paramsBuf n s.resultBuf after ∧
      rest true (s.landed n after) o t := by
  simp only [Proc.bind_iff, launch]
  constructor
  · rintro (⟨-, ⟨⟨⟩, -⟩ | ⟨-, ⟨⟩, -⟩⟩ | ⟨_, _, ⟨⟨⟩, after, ran, rfl⟩ | ⟨faulty, -⟩, outcome⟩)
    · exact ⟨after, ran, outcome⟩
    · exact absurd rfl faulty
  · rintro ⟨after, ran, outcome⟩
    exact .inr ⟨true, _, .inl ⟨rfl, after, ran, rfl⟩, outcome⟩

theorem read_bind (rest : Option Slot -> Proc Device β) :
    (readResult .none >>= rest) s o t ↔ rest (some s.resultBuf) s o t := by
  simp [Proc.bind_iff, readResult]

theorem ofOption_bind {α : Type} (result : Option α) (rest : α -> Proc Device β) :
    (Proc.ofOption result >>= rest) s o t ↔
      result = none ∧ o = none ∧ t = s ∨ ∃ a, result = some a ∧ rest a s o t := by
  cases result <;> simp [Proc.bind_iff, Proc.ofOption]

theorem gpuChunk_firm (mid : Midstate State) (task : Task) (d : Dispatch) (o : Option ChunkOutcome) :
    gpuChunk .none spurious dialect mid task d.1 d.2.1 d.2.2 s o t ↔
      dispatchData mid task.difficulty d = none ∧ o = none ∧ t = s ∨
      ∃ data, dispatchData mid task.difficulty d = some data ∧ ∃ after,
        KernelRun dialect spurious data.1 data.2 (globalSize d.2.1) s.resultBuf after ∧
        o = some (outcomeOf after) ∧ t = (s.written data.1 data.2).landed (globalSize d.2.1) after := by
  cases dialect <;>
    simp only [gpuChunk, vulkanChunk, openclChunk, hipChunk, writeConstant, writeParams,
      ofOption_bind, copy_bind, launch_bind, read_bind, if_true] <;>
    rfl

theorem gpuReset_firm (rest : Bool -> Proc Device β) :
    (gpuReset dialect .none >>= rest) s o t ↔ rest true { s with resultBuf := zeroSlot } o t := by
  cases dialect <;>
    simp only [gpuReset, ignoringErrors, resetResult, Proc.bind_assoc_eq, Proc.pure_bind_eq, copy_bind]

end

-- `head` stands before the loop condition, `dispatch` behind the `fetch_add`; a call that is
-- `running` waits for the threads of a launch.
inductive CallPc where
  | enter
  | head (mid : Midstate State) (off remaining : UInt64)
  | dispatch (mid : Midstate State) (off remaining : UInt64) (more : 0 < remaining)
  | running (mid : Midstate State) (off remaining : UInt64) {n : Nat} (race : Race n)
  | solved (nonce : UInt64)
  | done (o : Option (Option Solution))

structure GpuCall where
  pc : CallPc
  device : Device

def GpuCall.cell : Cell GpuCall UInt64 where
  get x := x.device.counter
  set counter x := { x with device := Device.cell.set counter x.device }
  get_set _ _ := rfl
  set_get _ := rfl
  set_set _ _ _ := rfl

def dispatchAt (task : Task) (off remaining : UInt64) : Dispatch :=
  (task.nonceStart + off, chunkSize (task.nonceStart + off) remaining,
    decimalDigits (task.nonceStart + off))

def CallPc.answered (mid : Midstate State) (off remaining c : UInt64) : ChunkOutcome -> CallPc
  | .notFound => .head mid (off + c) (remaining - c)
  | .found nonce => .solved nonce
  | .abort => .done (some none)

section
variable (host : State -> Block -> State) (spurious : Bool) (dialect : Dialect) (task : Task)

inductive CallStep : GpuCall -> GpuCall -> Prop
  | reversed (s : Device) (order : task.nonceEnd < task.nonceStart) :
    CallStep ⟨.enter, s⟩ ⟨.done (some none), s⟩
  | everything (s : Device) (forwards : ¬ task.nonceEnd < task.nonceStart)
      (zero : task.nonceEnd - task.nonceStart + 1 = 0) :
    CallStep ⟨.enter, s⟩ ⟨.done (some none), s⟩
  | stuck (s : Device) (forwards : ¬ task.nonceEnd < task.nonceStart)
      (more : task.nonceEnd - task.nonceStart + 1 ≠ 0)
      (panics : (Midstate.new IV).update host task.prefixBytes = none) :
    CallStep ⟨.enter, s⟩ ⟨.done none, s⟩
  | reset (s : Device) (forwards : ¬ task.nonceEnd < task.nonceStart)
      (more : task.nonceEnd - task.nonceStart + 1 ≠ 0) (mid : Midstate State)
      (made : (Midstate.new IV).update host task.prefixBytes = some mid) :
    CallStep ⟨.enter, s⟩ ⟨.head mid 0 (task.nonceEnd - task.nonceStart + 1),
      { s with resultBuf := zeroSlot }⟩
  | exhausted (mid : Midstate State) (off remaining : UInt64) (s : Device)
      (empty : ¬ 0 < remaining) : CallStep ⟨.head mid off remaining, s⟩ ⟨.done (some none), s⟩
  | count (mid : Midstate State) (off remaining : UInt64) (s : Device) (more : 0 < remaining) :
    CallStep ⟨.head mid off remaining, s⟩ ⟨.dispatch mid off remaining more,
      Device.cell.set (s.counter + (dispatchAt task off remaining).2.1.toUInt64) s⟩
  | outside (mid : Midstate State) (off remaining : UInt64) (more : 0 < remaining) (s : Device)
      (panics : dispatchData mid task.difficulty (dispatchAt task off remaining) = none) :
    CallStep ⟨.dispatch mid off remaining more, s⟩ ⟨.done none, s⟩
  | launch (mid : Midstate State) (off remaining : UInt64) (more : 0 < remaining) (s : Device)
      (data : TailWords × Params)
      (drawn : dispatchData mid task.difficulty (dispatchAt task off remaining) = some data)
      (uninit : Fin (globalSize (dispatchAt task off remaining).2.1) -> TailWords)
      (fails : Fin (globalSize (dispatchAt task off remaining).2.1) -> Bool)
      (firm : spurious = false -> ∀ i, fails i = false) :
    CallStep ⟨.dispatch mid off remaining more, s⟩ ⟨.running mid off remaining
      (raceStart dialect data.1 data.2 uninit fails s.resultBuf), s.written data.1 data.2⟩
  -- a thread has left an array, and the slot may hold anything
  | wild (mid : Midstate State) (off remaining : UInt64) (more : 0 < remaining) (s : Device)
      (data : TailWords × Params)
      (drawn : dispatchData mid task.difficulty (dispatchAt task off remaining) = some data)
      (uninit : TailWords) (i : Fin (globalSize (dispatchAt task off remaining).2.1))
      (fault : kernelThread dialect uninit data.1 data.2 (UInt32.ofNat i.val) = none) (after : Slot) :
    CallStep ⟨.dispatch mid off remaining more, s⟩ ⟨.answered mid off remaining
        (dispatchAt task off remaining).2.1.toUInt64 (outcomeOf after),
      (s.written data.1 data.2).landed (globalSize (dispatchAt task off remaining).2.1) after⟩
  | thread (mid : Midstate State) (off remaining : UInt64) {n : Nat} (race next : Race n)
      (s : Device) (moves : RaceStep dialect race next) :
    CallStep ⟨.running mid off remaining race, s⟩ ⟨.running mid off remaining next, s⟩
  | land (mid : Midstate State) (off remaining : UInt64) {n : Nat} (race : Race n) (s : Device)
      (complete : race.Complete) :
    CallStep ⟨.running mid off remaining race, s⟩ ⟨.answered mid off remaining
        (dispatchAt task off remaining).2.1.toUInt64 (outcomeOf race.slot), s.landed n race.slot⟩
  | solution (nonce : UInt64) (s : Device) :
    CallStep ⟨.solved nonce, s⟩ ⟨.done ((makeSolution host task nonce).map some), s⟩

-- A step that hands only nonces that are `fit` to `make_solution`.
def FitStep (fit : UInt64 -> Prop) (x y : GpuCall) : Prop :=
  CallStep host spurious dialect task x y ∧ ∀ nonce, x.pc = .solved nonce -> fit nonce

theorem fitStep_oblivious (fit : UInt64 -> Prop) :
    GpuCall.cell.Oblivious (FitStep host spurious dialect task fit) := by
  rintro x y d ⟨step, fits⟩
  refine ⟨?_, fits⟩
  cases step with
  | reversed s order => exact .reversed _ order
  | everything s forwards zero => exact .everything _ forwards zero
  | stuck s forwards more panics => exact .stuck _ forwards more panics
  | reset s forwards more mid made => exact .reset _ forwards more mid made
  | exhausted mid off remaining s empty => exact .exhausted mid off remaining _ empty
  | count mid off remaining s more =>
    change CallStep host spurious dialect task _ ⟨_, Device.cell.set (s.counter + _ + d) s⟩
    have swap (c : UInt64) : s.counter + c + d = s.counter + d + c := by
      rw [UInt64.add_assoc, UInt64.add_comm c d, UInt64.add_assoc]
    rw [swap]
    exact .count mid off remaining _ more
  | outside mid off remaining more s panics => exact .outside mid off remaining more _ panics
  | launch mid off remaining more s data drawn uninit fails firm =>
    exact .launch mid off remaining more _ data drawn uninit fails firm
  | wild mid off remaining more s data drawn uninit i fault after =>
    exact .wild mid off remaining more _ data drawn uninit i fault after
  | thread mid off remaining race next s moves => exact .thread mid off remaining race next _ moves
  | land mid off remaining race s complete => exact .land mid off remaining race _ complete
  | solution nonce s => exact .solution nonce _

def resumed (mid : Midstate State) (off remaining c : UInt64) (outcome : ChunkOutcome) :
    Proc Device (Option UInt64) :=
  match outcome with
  | .found nonce => pure (some nonce)
  | .abort => pure none
  | .notFound => chunkLoop fetchAdd (gpuChunk .none spurious dialect mid task) task.nonceStart
      (off + c) (remaining - c)

def Closes (fit : UInt64 -> Prop) (found : Option (Option UInt64)) (u : Device)
    (o : Option (Option Solution)) (t : Device) : Prop :=
  t = u ∧ match found with
    | none => o = none
    | some none => o = some none
    | some (some nonce) => fit nonce ∧ o = (makeSolution host task nonce).map some

def Follows (fit : UInt64 -> Prop) (search : Proc Device (Option UInt64)) (s : Device)
    (o : Option (Option Solution)) (t : Device) : Prop :=
  ∃ found u, search s found u ∧ Closes host task fit found u o t

def GpuCall.Leads (fit : UInt64 -> Prop) (x : GpuCall) (o : Option (Option Solution))
    (t : Device) : Prop :=
  match x.pc with
  | .enter => Follows host task fit (gpuSearch dialect .none spurious host task) x.device o t
  | .head mid off remaining => Follows host task fit
      (chunkLoop fetchAdd (gpuChunk .none spurious dialect mid task) task.nonceStart off remaining)
      x.device o t
  | .dispatch mid off remaining _ => Follows host task fit
      (gpuChunk .none spurious dialect mid task (dispatchAt task off remaining).1
          (dispatchAt task off remaining).2.1 (dispatchAt task off remaining).2.2 >>=
        resumed spurious dialect task mid off remaining
          (dispatchAt task off remaining).2.1.toUInt64) x.device o t
  | @CallPc.running mid off remaining n race => ∃ k last, Run (RaceStep dialect) k race last ∧
      last.Complete ∧ Follows host task fit
        (resumed spurious dialect task mid off remaining
          (dispatchAt task off remaining).2.1.toUInt64 (outcomeOf last.slot))
        (x.device.landed n last.slot) o t
  | .solved nonce => Closes host task fit (some (some nonce)) x.device o t
  | .done result => o = result ∧ t = x.device

variable {host spurious dialect task} {fit : UInt64 -> Prop} {mid : Midstate State}
  {off remaining : UInt64} {s t : Device} {o : Option (Option Solution)}

theorem loop_head (more : 0 < remaining) :
    chunkLoop fetchAdd (gpuChunk .none spurious dialect mid task) task.nonceStart off remaining =
      (do fetchAdd (dispatchAt task off remaining).2.1.toUInt64
          gpuChunk .none spurious dialect mid task (dispatchAt task off remaining).1
              (dispatchAt task off remaining).2.1 (dispatchAt task off remaining).2.2 >>=
            resumed spurious dialect task mid off remaining
              (dispatchAt task off remaining).2.1.toUInt64) := by
  rw [chunkLoop, dif_pos more]
  rfl

theorem search_enter (forwards : ¬ task.nonceEnd < task.nonceStart)
    (more : task.nonceEnd - task.nonceStart + 1 ≠ 0) (found : Option (Option UInt64)) :
    gpuSearch dialect .none spurious host task s found t ↔
      (Midstate.new IV).update host task.prefixBytes = none ∧ found = none ∧ t = s ∨
      ∃ mid, (Midstate.new IV).update host task.prefixBytes = some mid ∧
        mineChunks fetchAdd (gpuChunk .none spurious dialect mid task) task.nonceStart
          (task.nonceEnd - task.nonceStart + 1) { s with resultBuf := zeroSlot } found t := by
  unfold gpuSearch
  simp only [if_neg forwards, if_neg more, ofOption_bind, gpuReset_firm, if_true]

theorem answered_leads (c : UInt64) (outcome : ChunkOutcome) :
    GpuCall.Leads host spurious dialect task fit ⟨.answered mid off remaining c outcome, s⟩ o t ↔
      Follows host task fit (resumed spurious dialect task mid off remaining c outcome) s o t := by
  cases outcome with
  | notFound => rfl
  | found nonce =>
    constructor
    · exact fun closes => ⟨some (some nonce), s, ⟨rfl, rfl⟩, closes⟩
    · rintro ⟨_, _, ⟨rfl, rfl⟩, closes⟩
      exact closes
  | abort =>
    constructor
    · rintro ⟨rfl, rfl⟩
      exact ⟨some none, t, ⟨rfl, rfl⟩, rfl, rfl⟩
    · rintro ⟨_, _, ⟨rfl, rfl⟩, rfl, rfl⟩
      exact ⟨rfl, rfl⟩

-- A chunk has gone wrong on the host, or its launch has left a slot.
theorem dispatch_leads (rest : ChunkOutcome -> Proc Device (Option UInt64)) (d : Dispatch) :
    Follows host task fit (gpuChunk .none spurious dialect mid task d.1 d.2.1 d.2.2 >>= rest) s o t ↔
      dispatchData mid task.difficulty d = none ∧ o = none ∧ t = s ∨
      ∃ data, dispatchData mid task.difficulty d = some data ∧ ∃ after,
        KernelRun dialect spurious data.1 data.2 (globalSize d.2.1) s.resultBuf after ∧
        Follows host task fit (rest (outcomeOf after))
          ((s.written data.1 data.2).landed (globalSize d.2.1) after) o t := by
  constructor
  · rintro ⟨found, u, ⟨rfl, ran⟩ | ⟨outcome, v, ran, further⟩, closes⟩
    · obtain ⟨rfl, rfl⟩ := closes
      rcases (gpuChunk_firm mid task d _).mp ran with ⟨panics, -, rfl⟩ | ⟨_, _, _, _, ⟨⟩, _⟩
      exact .inl ⟨panics, rfl, rfl⟩
    · rcases (gpuChunk_firm mid task d _).mp ran with ⟨_, ⟨⟩, _⟩ | ⟨data, drawn, after, raced, ⟨⟩, rfl⟩
      exact .inr ⟨data, drawn, after, raced, found, u, further, closes⟩
  · rintro (⟨panics, rfl, rfl⟩ | ⟨data, drawn, after, ran, found, u, further, closes⟩)
    · refine ⟨none, t, .inl ⟨rfl, ?_⟩, rfl, rfl⟩
      exact (gpuChunk_firm mid task d _).mpr (.inl ⟨panics, rfl, rfl⟩)
    · refine ⟨found, u, .inr ⟨outcomeOf after, _, ?_, further⟩, closes⟩
      exact (gpuChunk_firm mid task d _).mpr (.inr ⟨data, drawn, after, ran, rfl, rfl⟩)

variable {x y : GpuCall}

theorem FitStep.leads (step : FitStep host spurious dialect task fit x y)
    (rest : y.Leads host spurious dialect task fit o t) :
    x.Leads host spurious dialect task fit o t := by
  obtain ⟨step, fits⟩ := step
  cases step with
  | reversed s order =>
    obtain ⟨rfl, rfl⟩ := rest
    refine ⟨some none, t, ?_, rfl, rfl⟩
    rw [gpuSearch, if_pos order]
    exact ⟨rfl, rfl⟩
  | everything s forwards zero =>
    obtain ⟨rfl, rfl⟩ := rest
    refine ⟨some none, t, ?_, rfl, rfl⟩
    rw [gpuSearch, if_neg forwards, if_pos zero]
    exact ⟨rfl, rfl⟩
  | stuck s forwards more panics =>
    obtain ⟨rfl, rfl⟩ := rest
    exact ⟨none, t, (search_enter forwards more _).mpr (.inl ⟨panics, rfl, rfl⟩), rfl, rfl⟩
  | reset s forwards more mid made =>
    obtain ⟨found, u, looped, closes⟩ := rest
    exact ⟨found, u, (search_enter forwards more _).mpr (.inr ⟨mid, made, looped⟩), closes⟩
  | exhausted mid off remaining s empty =>
    obtain ⟨rfl, rfl⟩ := rest
    refine ⟨some none, t, ?_, rfl, rfl⟩
    rw [chunkLoop, dif_neg empty]
    exact ⟨rfl, rfl⟩
  | count mid off remaining s more =>
    obtain ⟨found, u, ran, closes⟩ := rest
    refine ⟨found, u, ?_, closes⟩
    rw [loop_head more]
    exact .inr ⟨(), _, ⟨rfl, rfl⟩, ran⟩
  | outside mid off remaining more s panics =>
    obtain ⟨rfl, rfl⟩ := rest
    exact (dispatch_leads _ _).mpr (.inl ⟨panics, rfl, rfl⟩)
  | launch mid off remaining more s data drawn uninit fails firm =>
    obtain ⟨k, last, ran, complete, further⟩ := rest
    refine (dispatch_leads _ _).mpr (.inr ⟨data, drawn, last.slot, ?_, further⟩)
    exact ⟨uninit, fails, firm, .inr ⟨k, last, ran, complete, rfl⟩⟩
  | wild mid off remaining more s data drawn uninit i fault after =>
    refine (dispatch_leads _ _).mpr (.inr ⟨data, drawn, after, ?_, (answered_leads _ _).mp rest⟩)
    exact ⟨fun _ => uninit, fun _ => false, fun _ _ => rfl, .inl ⟨i, fault⟩⟩
  | thread mid off remaining race next s moves =>
    obtain ⟨k, last, ran, complete, further⟩ := rest
    exact ⟨_, last, .head moves ran, complete, further⟩
  | land mid off remaining race s complete =>
    exact ⟨0, race, .refl race, complete, (answered_leads _ _).mp rest⟩
  | solution nonce s =>
    obtain ⟨rfl, rfl⟩ := rest
    exact ⟨rfl, fits nonce rfl, rfl⟩

theorem run_leads {k : Nat} (run : Run (FitStep host spurious dialect task fit) k x y)
    (rest : y.Leads host spurious dialect task fit o t) :
    x.Leads host spurious dialect task fit o t := by
  induction run with
  | refl => exact rest
  | tail _ last ih => exact ih (last.leads rest)

theorem race_steps {n k : Nat} {race last : Race n} (run : Run (RaceStep dialect) k race last) :
    Run (FitStep host spurious dialect task fit) k ⟨.running mid off remaining race, s⟩
      ⟨.running mid off remaining last, s⟩ := by
  induction run with
  | refl race => exact .refl _
  | tail _ moves ih => exact .tail ih ⟨.thread mid off remaining _ _ s moves, by simp⟩

theorem kernel_steps (more : 0 < remaining) (data : TailWords × Params)
    (drawn : dispatchData mid task.difficulty (dispatchAt task off remaining) = some data)
    {after : Slot} (ran : KernelRun dialect spurious data.1 data.2
      (globalSize (dispatchAt task off remaining).2.1) s.resultBuf after) :
    ∃ k, Run (FitStep host spurious dialect task fit) k ⟨.dispatch mid off remaining more, s⟩
      ⟨.answered mid off remaining (dispatchAt task off remaining).2.1.toUInt64 (outcomeOf after),
        (s.written data.1 data.2).landed (globalSize (dispatchAt task off remaining).2.1) after⟩ := by
  obtain ⟨uninit, fails, firm, ⟨i, fault⟩ | ⟨k, last, run, complete, rfl⟩⟩ := ran
  · refine ⟨_, .tail (.refl _) ⟨?_, by simp⟩⟩
    exact .wild mid off remaining more s data drawn (uninit i) i fault after
  · have first : FitStep host spurious dialect task fit _ _ :=
      ⟨.launch mid off remaining more s data drawn uninit fails firm, by simp⟩
    exact ⟨_, .tail (.head first (race_steps run)) ⟨.land mid off remaining last _ complete, by simp⟩⟩

theorem loop_steps (mid : Midstate State) (off remaining : UInt64) (s : Device)
    (follows : Follows host task fit (chunkLoop fetchAdd (gpuChunk .none spurious dialect mid task)
      task.nonceStart off remaining) s o t) :
    ∃ k, Run (FitStep host spurious dialect task fit) k ⟨.head mid off remaining, s⟩
      ⟨.done o, t⟩ := by
  induction off, remaining using chunkLoop.induct task.nonceStart generalizing s with
  | case1 off remaining more chunkStart c ih =>
    rw [loop_head more] at follows
    obtain ⟨found, u, ⟨-, impossible, -⟩ | ⟨_, _, ⟨-, rfl⟩, chunk⟩, closes⟩ := follows
    · cases impossible
    have first : FitStep host spurious dialect task fit _ _ :=
      ⟨.count mid off remaining s more, by simp⟩
    rcases (dispatch_leads _ _).mp ⟨found, u, chunk, closes⟩ with
      ⟨panics, rfl, rfl⟩ | ⟨data, drawn, after, ran, further⟩
    · exact ⟨_, .head first (.head ⟨.outside mid off remaining more _ panics, by simp⟩ (.refl _))⟩
    · obtain ⟨k, run⟩ : ∃ k, Run (FitStep host spurious dialect task fit) k _ _ :=
        kernel_steps more data drawn ran
      have leads := (answered_leads _ _).mpr further
      cases answer : outcomeOf after with
      | notFound =>
        rw [answer] at run leads
        obtain ⟨l, rest⟩ := ih _ leads
        exact ⟨_, .head first (run.append rest)⟩
      | found nonce =>
        rw [answer] at run leads
        obtain ⟨rfl, fits, rfl⟩ := leads
        refine ⟨_, .head first (.tail run ⟨.solution nonce _, fun _ same => ?_⟩)⟩
        exact CallPc.solved.inj same ▸ fits
      | abort =>
        rw [answer] at run leads
        obtain ⟨rfl, rfl⟩ := leads
        exact ⟨_, .head first run⟩
  | case2 off remaining empty =>
    rw [chunkLoop, dif_neg empty] at follows
    obtain ⟨_, _, ⟨rfl, rfl⟩, rfl, rfl⟩ := follows
    exact ⟨_, .head ⟨.exhausted mid off remaining t empty, by simp⟩ (.refl _)⟩

theorem fitStep_outcomes (s : Device) :
    (∃ k, Run (FitStep host spurious dialect task fit) k ⟨.enter, s⟩ ⟨.done o, t⟩) ↔
      Follows host task fit (gpuSearch dialect .none spurious host task) s o t := by
  refine ⟨fun ⟨k, run⟩ => run_leads run ⟨rfl, rfl⟩, fun follows => ?_⟩
  obtain ⟨found, u, ran, closes⟩ := follows
  by_cases reversed : task.nonceEnd < task.nonceStart
  · rw [gpuSearch, if_pos reversed] at ran
    obtain ⟨rfl, rfl⟩ := ran
    obtain ⟨rfl, rfl⟩ := closes
    exact ⟨_, .head ⟨.reversed t reversed, by simp⟩ (.refl _)⟩
  by_cases zero : task.nonceEnd - task.nonceStart + 1 = 0
  · rw [gpuSearch, if_neg reversed, if_pos zero] at ran
    obtain ⟨rfl, rfl⟩ := ran
    obtain ⟨rfl, rfl⟩ := closes
    exact ⟨_, .head ⟨.everything t reversed zero, by simp⟩ (.refl _)⟩
  rcases (search_enter reversed zero _).mp ran with ⟨panics, rfl, rfl⟩ | ⟨mid, made, looped⟩
  · obtain ⟨rfl, rfl⟩ := closes
    exact ⟨_, .head ⟨.stuck t reversed zero panics, by simp⟩ (.refl _)⟩
  · obtain ⟨k, run⟩ := loop_steps mid 0 _ _ ⟨found, u, looped, closes⟩
    exact ⟨_, .head ⟨.reset s reversed zero mid made, by simp⟩ run⟩

theorem gpuMine_follows (s : Device) : gpuMine host .none spurious dialect task s o t ↔
    Follows host task (fun _ => True) (gpuSearch dialect .none spurious host task) s o t := by
  rw [gpuMine_search]
  constructor
  · rintro (⟨rfl, ran⟩ | ⟨found, u, ran, outcome⟩)
    · exact ⟨none, t, ran, rfl, rfl⟩
    · have own := (ensures_returned found (fun o' t' => o' = _ ∧ t' = u) u).mpr ⟨rfl, rfl⟩ o t outcome
      obtain ⟨rfl, rfl⟩ := own
      cases found <;> exact ⟨_, _, ran, rfl, by simp⟩
  · rintro ⟨found, u, ran, rfl, closes⟩
    rcases found with _ | _ | nonce
    · exact .inl ⟨closes, ran⟩
    · exact .inr ⟨none, t, ran, closes, rfl⟩
    · refine .inr ⟨some nonce, t, ran, ?_⟩
      cases made : makeSolution host task nonce with
      | none => exact .inl ⟨by rw [closes.2, made]; rfl, made.symm, rfl⟩
      | some sol => exact .inr ⟨sol, t, ⟨made.symm, rfl⟩, by rw [closes.2, made]; rfl, rfl⟩

/-- The runs of a call have exactly the outcomes of `mine`. -/
theorem gpuMine_iff_steps (s : Device) : gpuMine host .none spurious dialect task s o t ↔
    ∃ k, Run (CallStep host spurious dialect task) k ⟨.enter, s⟩ ⟨.done o, t⟩ := by
  rw [gpuMine_follows, ← fitStep_outcomes]
  constructor
  · exact fun ⟨k, run⟩ => ⟨k, run.mono fun _ _ step => step.1⟩
  · exact fun ⟨k, run⟩ => ⟨k, run.mono fun _ _ step => ⟨step, fun _ _ => trivial⟩⟩

variable (dialect) in
theorem raceStart_size {n : Nat} (words : TailWords) (params : Params) (uninit : Fin n -> TailWords)
    (fails : Fin n -> Bool) (slot : Slot) :
    (raceStart dialect words params uninit fails slot).size ≤ n * 3 := by
  refine Transition.total_le _ _ 3 fun i => ?_
  cases pc : ((raceStart dialect words params uninit fails slot).threads i).pc <;>
    simp [PublishPc.potential]

-- A dispatch of `c` nonces starts less than `c + 256` threads, each of them with three accesses.
def CallPc.size (task : Task) : CallPc -> Nat
  | .enter => (task.nonceEnd - task.nonceStart + 1).toNat * 1000 + 3
  | .head _ _ remaining => remaining.toNat * 1000 + 2
  | .dispatch _ _ remaining _ => remaining.toNat * 1000 + 1
  | .running _ off remaining race =>
    (remaining - (dispatchAt task off remaining).2.1.toUInt64).toNat * 1000 + 3 + race.size
  | .solved _ => 1
  | .done _ => 0

theorem answered_size (outcome : ChunkOutcome) :
    (CallPc.answered mid off remaining (dispatchAt task off remaining).2.1.toUInt64 outcome).size task <
      (remaining - (dispatchAt task off remaining).2.1.toUInt64).toNat * 1000 + 3 := by
  cases outcome with
  | notFound => exact Nat.lt_succ_self _
  | found nonce =>
    simp only [CallPc.answered, CallPc.size]
    omega
  | abort => exact Nat.succ_pos _

theorem CallStep.decreases (step : CallStep host spurious dialect task x y) :
    y.pc.size task < x.pc.size task := by
  have shrinks (off remaining : UInt64) (more : 0 < remaining) :
      (remaining - (dispatchAt task off remaining).2.1.toUInt64).toNat +
          (dispatchAt task off remaining).2.1.toNat = remaining.toNat ∧
        0 < (dispatchAt task off remaining).2.1.toNat := by
    have size := chunkSize_pos (task.nonceStart + off) remaining more
    have rest := rest_toNat (task.nonceStart + off) remaining more
    simp only [dispatchAt]
    omega
  cases step with
  | reversed => exact Nat.succ_pos _
  | everything => exact Nat.succ_pos _
  | stuck => exact Nat.succ_pos _
  | reset => exact Nat.lt_succ_self _
  | exhausted => exact Nat.succ_pos _
  | count => exact Nat.lt_succ_self _
  | outside => exact Nat.succ_pos _
  | launch mid off remaining more s data drawn uninit fails firm =>
    have less := shrinks off remaining more
    have most := raceStart_size dialect data.1 data.2 uninit fails s.resultBuf
    simp only [CallPc.size, globalSize] at most ⊢
    omega
  | wild mid off remaining more s data drawn uninit i fault after =>
    have less := shrinks off remaining more
    refine (answered_size (outcomeOf after)).trans ?_
    simp only [CallPc.size]
    omega
  | thread mid off remaining race next s moves =>
    have less := moves.decreases dialect race next
    simp only [CallPc.size]
    omega
  | land mid off remaining race s complete =>
    refine (answered_size (outcomeOf race.slot)).trans_le ?_
    simp only [CallPc.size]
    omega
  | solution => exact Nat.succ_pos _

theorem CallStep.progress (final : Final (CallStep host spurious dialect task) x) :
    ∃ o, x.pc = .done o := by
  obtain ⟨pc, s⟩ := x
  cases pc with
  | enter =>
    by_cases reversed : task.nonceEnd < task.nonceStart
    · exact absurd (.reversed s reversed) (final _)
    by_cases zero : task.nonceEnd - task.nonceStart + 1 = 0
    · exact absurd (.everything s reversed zero) (final _)
    cases made : (Midstate.new IV).update host task.prefixBytes with
    | none => exact absurd (.stuck s reversed zero made) (final _)
    | some mid => exact absurd (.reset s reversed zero mid made) (final _)
  | head mid off remaining =>
    by_cases more : 0 < remaining
    · exact absurd (.count mid off remaining s more) (final _)
    · exact absurd (.exhausted mid off remaining s more) (final _)
  | dispatch mid off remaining more =>
    cases drawn : dispatchData mid task.difficulty (dispatchAt task off remaining) with
    | none => exact absurd (.outside mid off remaining more s drawn) (final _)
    | some data =>
      refine absurd (.launch mid off remaining more s data drawn ?_ (fun _ => false) ?_) (final _)
      · exact fun _ => Vector.replicate 32 0
      · exact fun _ _ => rfl
  | running mid off remaining race =>
    by_cases complete : race.Complete
    · exact absurd (.land mid off remaining race s complete) (final _)
    · obtain ⟨i, active⟩ := not_forall.mp complete
      exact absurd (.thread mid off remaining race _ s (.thread race i active)) (final _)
  | solved nonce => exact absurd (.solution nonce s) (final _)
  | done o => exact ⟨o, rfl⟩

/-- However the kernel threads interleave, a call comes to an end. -/
theorem call_bounded {k : Nat} (run : Run (CallStep host spurious dialect task) k x y) :
    k ≤ x.pc.size task := by
  have kept (x y : GpuCall) (_ : True) (_ : CallStep host spurious dialect task x y) : True := trivial
  have decreases (x y : GpuCall) (_ : True) (step : CallStep host spurious dialect task x y) :
      y.pc.size task < x.pc.size task := step.decreases
  have bound := run.bounded kept decreases trivial
  omega

end

end ScamMiner.Gpu
