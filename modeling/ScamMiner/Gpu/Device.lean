import ScamMiner.Gpu.Refinement
import ScamMiner.Gpu.Slot
import ScamMiner.Sha.WriteDecimal

set_option autoImplicit false

namespace ScamMiner.Gpu

open Fips180 (State Block)

structure Launch where
  words : TailWords
  params : Params
  size : Nat
  before : Slot
  after : Slot

-- The buffers live on from task to task; `launches` is history, oldest first.
structure Device where
  constantBuf : TailWords
  paramsBuf : Params
  resultBuf : Slot
  counter : UInt64
  launches : List Launch

-- Which device calls may fail; a copy that fails is harmless when it would change nothing.
inductive Faults where
  | none
  | harmless
  | any
  deriving DecidableEq, Repr

def Faults.copyMayFail (faults : Faults) (harmless : Prop) : Prop :=
  match faults with
  | .none => False
  | .harmless => harmless
  | .any => True

-- A host-to-device copy: `true` when it succeeds, else the buffer keeps its contents.
def copyToDevice (faults : Faults) (harmless : Device -> Prop) (write : Device -> Device) :
    Proc Device Bool :=
  fun s o t => (o = some true ∧ t = write s) ∨
    (faults.copyMayFail (harmless s) ∧ o = some false ∧ t = s)

def writeConstant (faults : Faults) (words : TailWords) : Proc Device Bool :=
  copyToDevice faults (fun s => s.constantBuf = words) fun s => { s with constantBuf := words }

def writeParams (faults : Faults) (params : Params) : Proc Device Bool :=
  copyToDevice faults (fun s => s.paramsBuf = params) fun s => { s with paramsBuf := params }

def zeroSlot : Slot :=
  { lo := 0, hi := 0, flag := 0 }

-- Only the flag of the slot matters for what follows.
def resetResult (faults : Faults) : Proc Device Bool :=
  copyToDevice faults (fun s => s.resultBuf.flag = 0) fun s => { s with resultBuf := zeroSlot }

def publisher (thread : Option (Option Verdict)) (spurious : Bool) : Publisher :=
  match thread with
  | some (some v) =>
    { pc := if v.matched then .exchange else .done, nlo := v.nlo, nhi := v.nhi, spurious := spurious }
  | _ => { pc := .done, nlo := 0, nhi := 0, spurious := spurious }

def raceStart {n : Nat} (dialect : Dialect) (words : TailWords) (params : Params)
    (uninit : Fin n -> TailWords) (fails : Fin n -> Bool) (slot : Slot) : Race n :=
  { slot := slot
    threads := fun i =>
      publisher (kernelThread dialect (uninit i) words params (UInt32.ofNat i.val)) (fails i) }

-- A kernel run of `n` threads; after an access outside an array the slot may hold anything.
def KernelRun (dialect : Dialect) (spurious : Bool) (words : TailWords) (params : Params) (n : Nat)
    (before after : Slot) : Prop :=
  ∃ (uninit : Fin n -> TailWords) (fails : Fin n -> Bool),
    (spurious = false -> ∀ i, fails i = false) ∧
    ((∃ i, kernelThread dialect (uninit i) words params (UInt32.ofNat i.val) = none) ∨
      ∃ k last, Transition.Run (RaceStep dialect) k
        (raceStart dialect words params uninit fails before) last ∧
        last.Complete ∧ after = last.slot)

-- `c.div_ceil(WORKGROUP) * WORKGROUP`.
def globalSize (c : UInt32) : Nat :=
  (c.toNat + 255) / 256 * 256

def Device.landed (s : Device) (n : Nat) (after : Slot) : Device :=
  { s with
    resultBuf := after
    launches := s.launches ++ [{ words := s.constantBuf, params := s.paramsBuf, size := n
                                 before := s.resultBuf, after := after }] }

def launch (dialect : Dialect) (faults : Faults) (spurious : Bool) (n : Nat) : Proc Device Bool :=
  fun s o t =>
    (o = some true ∧ ∃ after,
      KernelRun dialect spurious s.constantBuf s.paramsBuf n s.resultBuf after ∧
      t = s.landed n after) ∨
    (faults ≠ .none ∧ o = some false ∧ t = s)

-- The blocking read of the slot; a read that fails leaves the host's buffer alone.
def readResult (faults : Faults) : Proc Device (Option Slot) :=
  fun s o t => t = s ∧ (o = some (some s.resultBuf) ∨ (faults ≠ .none ∧ o = some none))

def outcomeOf (slot : Slot) : ChunkOutcome :=
  if slot.flag ≠ 0 then .found slot.nonce else .notFound

section
variable (compress256 : State -> Block -> State) (faults : Faults) (spurious : Bool)

-- The closure of `VulkanBackend::mine`; `write_buffer` and the submission report no errors.
def vulkanChunk (mid : Midstate State) (task : Task) (chunkStart : UInt64) (c nd : UInt32) :
    Proc Device ChunkOutcome := do
  let (words, params) ← Proc.ofOption (dispatchData mid task.difficulty (chunkStart, c, nd))
  let _ ← writeConstant .none words
  let _ ← writeParams .none params
  let _ ← launch .wgsl .none spurious (globalSize c)
  match ← readResult faults with
  | some slot => return outcomeOf slot
  | none => return .abort

-- The closure of `OpenclBackend::mine`: every error aborts the task.
def openclChunk (mid : Midstate State) (task : Task) (chunkStart : UInt64) (c nd : UInt32) :
    Proc Device ChunkOutcome := do
  let (words, params) ← Proc.ofOption (dispatchData mid task.difficulty (chunkStart, c, nd))
  if ← writeConstant faults words then
    if ← writeParams faults params then
      if ← launch .opencl faults spurious (globalSize c) then
        match ← readResult faults with
        | some slot => return outcomeOf slot
        | none => return .abort
      else return .abort
    else return .abort
  else return .abort

-- The closure of `HipBackend::mine`: only the launch is checked, and `out` starts as zeros.
def hipChunk (mid : Midstate State) (task : Task) (chunkStart : UInt64) (c nd : UInt32) :
    Proc Device ChunkOutcome := do
  let (words, params) ← Proc.ofOption (dispatchData mid task.difficulty (chunkStart, c, nd))
  let _ ← writeConstant faults words
  let _ ← writeParams faults params
  if ← launch .hip faults spurious (globalSize c) then
    let out ← readResult faults
    return outcomeOf (out.getD zeroSlot)
  else return .abort

def makeSolution (task : Task) (nonce : UInt64) : Option Solution := do
  let mid ← (Midstate.new IV).update compress256 task.prefixBytes
  let (n, digits) ← writeDecimal nonce (Vector.replicate 20 0)
  let tail ← Buffer.sliceTo digits n
  let hash ← mid.finish compress256 tail
  return { taskId := task.id, nonce := nonce, hash := hexLower hash }

def fetchAdd (c : UInt64) : Proc Device Unit :=
  Proc.modify fun s => { s with counter := s.counter + c }

-- The common text of the three `mine` functions.
def mineWith (reset : Proc Device Bool)
    (chunk : Midstate State -> Task -> UInt64 -> UInt32 -> UInt32 -> Proc Device ChunkOutcome)
    (task : Task) : Proc Device (Option Solution) :=
  let start := task.nonceStart
  let end_ := task.nonceEnd
  if end_ < start then return none
  else
    let count := end_ - start + 1
    if count = 0 then return none
    else do
      let mid ← Proc.ofOption ((Midstate.new IV).update compress256 task.prefixBytes)
      if ← reset then
        match ← mineChunks fetchAdd (chunk mid task) start count with
        | some nonce => return some (← Proc.ofOption (makeSolution compress256 task nonce))
        | none => return none
      else return none

def ignoringErrors (copy : Proc Device Bool) : Proc Device Bool := do
  let _ ← copy
  return true

def vulkanMine (task : Task) : Proc Device (Option Solution) :=
  mineWith compress256 (ignoringErrors (resetResult .none)) (vulkanChunk faults spurious) task

def openclMine (task : Task) : Proc Device (Option Solution) :=
  mineWith compress256 (resetResult faults) (openclChunk faults spurious) task

def hipMine (task : Task) : Proc Device (Option Solution) :=
  mineWith compress256 (ignoringErrors (resetResult faults)) (hipChunk faults spurious) task

def gpuMine (dialect : Dialect) (task : Task) : Proc Device (Option Solution) :=
  match dialect with
  | .wgsl => vulkanMine compress256 faults spurious task
  | .opencl => openclMine compress256 faults spurious task
  | .hip => hipMine compress256 faults spurious task

structure Answered where
  task : Task
  result : Option Solution
  launches : List Launch

def mineEach (dialect : Dialect) : List Task -> Proc Device (List Answered)
  | [] => return []
  | task :: rest => do
    let before ← Proc.read
    let result ← gpuMine compress256 faults spurious dialect task
    let after ← Proc.read
    let answers ← mineEach dialect rest
    return { task := task, result := result
             launches := after.launches.drop before.launches.length } :: answers

end

end ScamMiner.Gpu
