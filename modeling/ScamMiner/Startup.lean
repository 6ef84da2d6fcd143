import ScamMiner.Account
import ScamMiner.Orchestrator.Exact

set_option autoImplicit false

namespace ScamMiner

open Transition (Run)
open Account (bank parseAccount)
open Gpu (Dialect)
open Orchestrator (Batch Exhaustive Miner MinerStep quiet_exhaustive short_served submitted_valid)

section
variable {α β : Type}

def Vulkan.detect (fromAdapter : α -> Option β) (adapters : List α) (index : Option Nat) :
    Option β :=
  adapters[index.getD 0]?.bind fromAdapter

def Vulkan.detectAll (fromAdapter : α -> Option β) (adapters : List α) : List β :=
  adapters.filterMap fromAdapter

-- `none` is a failure of `get_all_devices`.
def Opencl.detect (isAmd : α -> Bool) (build : α -> Option β) (ids : Option (List α))
    (index : Option Nat) : Option β :=
  match ids with
  | none | some [] => none
  | some (first :: rest) =>
    match index with
    | some i => (first :: rest)[i]?.bind build
    | none => build (((first :: rest).find? isAmd).getD first)

def Opencl.detectAll (build : α -> Option β) (ids : Option (List α)) : List β :=
  (ids.getD []).filterMap build

-- `count` is `none` without the library or when it does not count; `build` is all that follows.
def Hip.detect (build : Int32 -> Option β) (count : Option Int32) (index : Option Nat) :
    Option β := do
  let count ← count
  if count ≤ 0 then none
  else
    -- `as c_int` keeps the low 32 bits
    let idx := Int32.ofNat (index.getD 0)
    if idx < 0 ∨ count ≤ idx then none else build idx

def Hip.detectAll (build : Int32 -> Option β) (count : Option Int32) : List β :=
  match count with
  | none => []
  | some n =>
    if n ≤ 0 then []
    else (List.range n.toNatClampNeg).filterMap fun i => Hip.detect build count (some i)

end

def Hip.devices (count : Int32) : List Int32 :=
  (List.range count.toNatClampNeg).map Int32.ofNat

theorem Hip.devices_get (count : Int32) (i : Nat) :
    (Hip.devices count)[i]? = if i < count.toNatClampNeg then some (Int32.ofNat i) else none := by
  rw [Hip.devices, List.getElem?_map]
  split
  · rename_i below
    rw [List.getElem?_range below]
    rfl
  · rename_i above
    rw [List.getElem?_eq_none (by simpa using above)]
    rfl

theorem Hip.inRange_iff (count : Int32) (i : Nat) :
    (¬ count ≤ 0 ∧ ¬ (Int32.ofNat i < 0 ∨ count ≤ Int32.ofNat i)) ↔
      i % 2 ^ 32 < count.toNatClampNeg := by
  have low : (Int32.ofNat i).toInt = (i : Int).bmod (2 ^ 32) := Int32.toInt_ofNat'
  have zero : (0 : Int32).toInt = 0 := by decide
  have clamp : count.toNatClampNeg = count.toInt.toNat := rfl
  have large := count.toInt_lt
  rw [Int32.le_iff_toInt_le, Int32.lt_iff_toInt_lt, Int32.le_iff_toInt_le, low, zero, clamp,
    Int.bmod_eq_emod]
  split <;> omega

theorem Hip.detect_eq {β : Type} (build : Int32 -> Option β) (count : Int32) (index : Nat) :
    Hip.detect build (some count) (some index) =
      (Hip.devices count)[index % 2 ^ 32]?.bind build := by
  have same : Int32.ofNat (index % 2 ^ 32) = Int32.ofNat index := by
    apply Int32.toInt.inj
    rw [Int32.toInt_ofNat', Int32.toInt_ofNat', Int.natCast_mod]
    exact Int.emod_bmod index Int32.size
  have range := Hip.inRange_iff count index
  rw [Hip.devices_get, same]
  by_cases below : index % 2 ^ 32 < count.toNatClampNeg
  · obtain ⟨positive, inside⟩ := range.mpr below
    rw [if_pos below]
    simp [Hip.detect, positive, inside]
  · rw [if_neg below]
    by_cases positive : count ≤ 0
    · simp [Hip.detect, positive]
    · have outside := not_and.mp (mt range.mp below) positive
      rw [not_not] at outside
      simp [Hip.detect, positive, outside]

theorem Hip.detectAll_eq {β : Type} (build : Int32 -> Option β) (count : Int32) :
    Hip.detectAll build (some count) = (Hip.devices count).filterMap build := by
  rw [Hip.detectAll, Hip.devices, List.filterMap_map]
  split
  · rename_i none
    have empty : count.toNatClampNeg = 0 := by
      have upper := Int32.le_iff_toInt_le.mp none
      rw [show (0 : Int32).toInt = 0 by decide] at upper
      exact Int.toNat_of_nonpos upper
    rw [empty]
    rfl
  · refine List.filterMap_congr fun i member => ?_
    have below := List.mem_range.mp member
    have small : i < 2 ^ 32 :=
      Nat.lt_trans (Nat.lt_trans below count.toNatClampNeg_lt) (by decide)
    rw [Hip.detect_eq, Nat.mod_eq_of_lt small, Hip.devices_get, if_pos below]
    rfl

/-- `detect_all` goes through the devices, and `--device` selects by position among them, as on the
other drivers, but for an index whose low 32 bits are a device number. -/
theorem Hip.detect_position (count : Int32) :
    (∀ build : Int32 -> Option Int32,
        Hip.detectAll build (some count) = (Hip.devices count).filterMap build) ∧
      ∀ index : Nat, (∀ build : Int32 -> Option Int32,
          Hip.detect build (some count) (some index) = (Hip.devices count)[index]?.bind build) ↔
        index < 2 ^ 32 ∨ count.toNatClampNeg ≤ index % 2 ^ 32 := by
  refine ⟨fun build => Hip.detectAll_eq build count, fun index => ?_⟩
  simp only [Hip.detect_eq]
  constructor
  · intro same
    by_contra wrapped
    rw [not_or, not_lt, not_le] at wrapped
    have own := same some
    have far : ¬ index < count.toNatClampNeg := by
      have large := count.toNatClampNeg_lt
      omega
    rw [Hip.devices_get, Hip.devices_get, if_pos wrapped.2, if_neg far] at own
    cases own
  · rintro (small | outside) build
    · rw [Nat.mod_eq_of_lt small]
    · have far : ¬ index < count.toNatClampNeg := by
        have least := Nat.mod_le index (2 ^ 32)
        omega
      rw [Hip.devices_get, Hip.devices_get, if_neg (not_lt.mpr outside), if_neg far]

inductive BackendKind where
  | auto
  | cpu
  | vulkan
  | opencl
  | hip
  deriving DecidableEq, Repr

structure Features where
  vulkan : Bool
  opencl : Bool
  hip : Bool

-- A backend that is built has the device's name.
structure Drivers (Adapter ClDevice : Type) where
  adapters : List Adapter
  fromAdapter : Adapter -> Option String
  clDevices : Option (List ClDevice)
  isAmd : ClDevice -> Bool
  buildFromDevice : ClDevice -> Option String
  hipCount : Option Int32
  hipBuild : Int32 -> Option String

def featureBackends (feature all : Bool) (device : Option Nat) (dialect : Dialect)
    (detectAll : List String) (detect : Option Nat -> Option String) : List Backend :=
  if feature then
    (if all && device.isNone then detectAll else (detect device).toList).map (.gpu dialect)
  else []

section
variable {Adapter ClDevice : Type} (features : Features) (drivers : Drivers Adapter ClDevice)

-- `none` is the exit with status 1.
def buildBackends (kind : BackendKind) (cores : Nat) (device : Option Nat) (all : Bool) :
    Option (List Backend) :=
  let cpu := Backend.cpu (.new cores)
  let vulkan := featureBackends features.vulkan all device .wgsl
    (Vulkan.detectAll drivers.fromAdapter drivers.adapters)
    (Vulkan.detect drivers.fromAdapter drivers.adapters)
  let opencl := featureBackends features.opencl all device .opencl
    (Opencl.detectAll drivers.buildFromDevice drivers.clDevices)
    (Opencl.detect drivers.isAmd drivers.buildFromDevice drivers.clDevices)
  let hip := featureBackends features.hip all device .hip
    (Hip.detectAll drivers.hipBuild drivers.hipCount)
    (Hip.detect drivers.hipBuild drivers.hipCount)
  match kind with
  | .cpu => some [cpu]
  | .vulkan => if vulkan.isEmpty then none else some vulkan
  | .opencl => if opencl.isEmpty then none else some opencl
  | .hip => if hip.isEmpty then none else some hip
  | .auto => some (vulkan ++ opencl ++ hip ++ [cpu])

structure MineArgs where
  url : String
  token : String
  difficulty : UInt32
  batchSize : UInt32
  cores : Option Nat
  account : Option String
  backend : BackendKind
  device : Option Nat

structure Started (Client : Type) where
  client : Client
  backends : List Backend
  difficulty : UInt32
  batchSize : UInt32
  account : Option String

def clamp (x low high : Nat) : Nat :=
  if x < low then low else if high < x then high else x

/-- Up to `orch.run()`; `none` is the exit of `build_backends`. -/
def runMiner {Client : Type} (upper : Char -> List Char)
    (newClient : String -> String -> Except String Client) (defaultCores : Nat) (args : MineArgs) :
    Except String (Option (Started Client)) := do
  let cores := clamp (args.cores.getD defaultCores) 1 (max defaultCores 1)
  let account ← args.account.mapM (parseAccount upper)
  let client ← newClient args.url args.token
  return (buildBackends features drivers args.backend cores args.device false).map fun backends =>
    { client, backends, difficulty := args.difficulty, batchSize := args.batchSize, account }

end

theorem featureBackends_within {feature all : Bool} {device : Option Nat} {dialect : Dialect}
    {detectAll : List String} {detect : Option Nat -> Option String} {cores : Nat} :
    ∀ backend ∈ featureBackends feature all device dialect detectAll detect,
      backend.Within cores := by
  intro backend member
  rw [featureBackends] at member
  split at member
  · obtain ⟨name, -, rfl⟩ := List.mem_map.mp member
    trivial
  · cases member

theorem buildBackends_within {Adapter ClDevice : Type} {features : Features}
    {drivers : Drivers Adapter ClDevice} {kind : BackendKind} {cores : Nat} {device : Option Nat}
    {all : Bool} {backends : List Backend} (positive : 1 ≤ cores)
    (built : buildBackends features drivers kind cores device all = some backends) :
    1 ≤ backends.length ∧ ∀ backend ∈ backends, backend.Within cores := by
  have cpu : (Backend.cpu (.new cores)).Within cores := Nat.max_le.mpr ⟨Nat.le_refl _, positive⟩
  have chosen {own : List Backend} (within : ∀ backend ∈ own, backend.Within cores)
      (taken : (if own.isEmpty then none else some own) = some backends) :
      1 ≤ backends.length ∧ ∀ backend ∈ backends, backend.Within cores := by
    split at taken
    · cases taken
    · rename_i some
      cases taken
      exact ⟨List.length_pos_iff.mpr fun empty => some (by rw [empty]; rfl), within⟩
  cases kind with
  | cpu =>
    cases built
    exact ⟨Nat.le_refl 1, by simpa using cpu⟩
  | vulkan => exact chosen featureBackends_within built
  | opencl => exact chosen featureBackends_within built
  | hip => exact chosen featureBackends_within built
  | auto =>
    cases built
    refine ⟨?_, fun backend member => ?_⟩
    · rw [List.length_append]
      exact Nat.le_add_left 1 _
    · simp only [List.mem_append, List.mem_singleton] at member
      rcases member with ((vulkan | opencl) | hip) | rfl
      · exact featureBackends_within backend vulkan
      · exact featureBackends_within backend opencl
      · exact featureBackends_within backend hip
      · exact cpu

theorem clamp_within (x high : Nat) (positive : 1 ≤ high) :
    1 ≤ clamp x 1 high ∧ clamp x 1 high ≤ high := by
  rw [clamp]
  split_ifs <;> omega

theorem parseAccount_shape {upper : Char -> List Char} {input account : String}
    (parsed : parseAccount upper input = .ok account) :
    bank <+: account.toList ∧ account.utf8ByteSize = 24 := by
  rw [Account.parseAccount_cleaned] at parsed
  split_ifs at parsed with digits accepted
  · obtain rfl := Except.ok.inj parsed
    have narrow : Account.utf8Len (bank ++ Account.cleaned upper input) = 24 := by
      rw [(Account.utf8Len_ascii _).mpr fun c member => (Account.banked_ascii digits.2 c member).1,
        List.length_append, Account.bank_length, digits.1]
    rw [String.toList_ofList, Account.utf8ByteSize_ofList]
    exact ⟨List.prefix_append _ _, narrow⟩
  · obtain rfl := Except.ok.inj parsed
    rw [String.toList_ofList, Account.utf8ByteSize_ofList]
    exact accepted

theorem bind_ok {ε α β : Type} {x : Except ε α} {f : α -> Except ε β} {r : β}
    (ok : (x >>= f) = .ok r) : ∃ a, x = .ok a ∧ f a = .ok r := by
  cases x with
  | error e => cases ok
  | ok a => exact ⟨a, rfl, ok⟩

structure Started.Sound {Client : Type} (started : Started Client) (cores : Nat) : Prop where
  backed : 1 ≤ started.backends.length
  within : ∀ backend ∈ started.backends, backend.Within cores
  account : ∀ account, started.account = some account ->
    bank <+: account.toList ∧ account.utf8ByteSize = 24

section
variable {Client Adapter ClDevice : Type} {features : Features}
  {drivers : Drivers Adapter ClDevice} {upper : Char -> List Char}
  {newClient : String -> String -> Except String Client} {defaultCores : Nat} {args : MineArgs}
  {started : Started Client}

theorem runMiner_ok
    (ok : runMiner features drivers upper newClient defaultCores args = .ok (some started)) :
    (∀ account, started.account = some account ->
        ∃ input, parseAccount upper input = .ok account) ∧
      ∃ cores, 1 ≤ cores ∧ cores ≤ max defaultCores 1 ∧
        buildBackends features drivers args.backend cores args.device false =
          some started.backends := by
  obtain ⟨positive, most⟩ :=
    clamp_within (args.cores.getD defaultCores) (max defaultCores 1) (Nat.le_max_right _ _)
  rw [runMiner] at ok
  obtain ⟨account, parsed, ok⟩ := bind_ok ok
  obtain ⟨client, -, ok⟩ := bind_ok ok
  obtain ⟨backends, built, rfl⟩ := Option.map_eq_some_iff.mp (Except.ok.inj ok)
  refine ⟨fun own same => ?_, _, positive, most, built⟩
  obtain rfl : account = some own := same
  cases given : args.account with
  | none =>
    rw [given] at parsed
    cases parsed
  | some input =>
    rw [given, Option.mapM_some] at parsed
    cases accepted : parseAccount upper input with
    | error e => simp [accepted] at parsed
    | ok cleaned =>
      obtain rfl : cleaned = own := by simpa [accepted] using parsed
      exact ⟨input, accepted⟩

theorem runMiner_sound
    (ok : runMiner features drivers upper newClient defaultCores args = .ok (some started)) :
    started.Sound (max defaultCores 1) := by
  obtain ⟨account, cores, positive, most, built⟩ := runMiner_ok ok
  obtain ⟨backed, within⟩ := buildBackends_within positive built
  refine ⟨backed, fun backend member => ?_, fun own same => ?_⟩
  · exact (within backend member).mono most
  · obtain ⟨input, parsed⟩ := account own same
    exact parseAccount_shape parsed

end

end ScamMiner
