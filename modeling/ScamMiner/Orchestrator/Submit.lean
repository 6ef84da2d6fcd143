import ScamMiner.Shared.Proc
import ScamMiner.Task

set_option autoImplicit false

namespace ScamMiner.Orchestrator

structure SubmitResult where
  status : String
  error : Option String

structure SubmitResponse where
  accepted : UInt64
  results : List SubmitResult

structure Call where
  backend : Nat
  index : Nat
  task : Task
  result : Option Solution

-- The session statistics; `calls` and `submits` are history, oldest first.
structure Session where
  tasksCompleted : UInt64
  racesLost : UInt64
  calls : List Call
  submits : List (Solution × Option SubmitResponse)

def Session.start (tasksCompleted racesLost : UInt64) : Session :=
  { tasksCompleted := tasksCompleted, racesLost := racesLost, calls := [], submits := [] }

def Session.called (session : Session) (call : Call) : Session :=
  { session with calls := session.calls ++ [call] }

def Session.submitted (session : Session) (sol : Solution) (reply : Option SubmitResponse) :
    Session :=
  { session with submits := session.submits ++ [(sol, reply)] }

-- `&text[..bytes]`: it panics past the end and inside a character.
def sliceBytes : List Char -> Nat -> Option (List Char)
  | _, 0 => some []
  | [], _ + 1 => none
  | c :: rest, bytes + 1 =>
    if c.utf8Size ≤ bytes + 1 then (sliceBytes rest (bytes + 1 - c.utf8Size)).map (c :: ·)
    else none

def hashHead (hash : String) : Option (List Char) :=
  sliceBytes hash.toList 16

def HexText (hash : String) : Prop :=
  hash.length = 64 ∧ ∀ c ∈ hash.toList, c ∈ "0123456789abcdefABCDEF".toList

theorem sliceBytes_ascii (text : List Char) (bytes : Nat) (ascii : ∀ c ∈ text, c.utf8Size = 1)
    (enough : bytes ≤ text.length) : sliceBytes text bytes = some (text.take bytes) := by
  induction text generalizing bytes with
  | nil =>
    obtain rfl : bytes = 0 := by simpa using enough
    rfl
  | cons c rest ih =>
    cases bytes with
    | zero => rfl
    | succ bytes =>
      have one := ascii c (by simp)
      have taken := ih bytes (fun d member => ascii d (by simp [member])) (by simpa using enough)
      simp [sliceBytes, one, taken]

theorem hashHead_hex (hash : String) (hex : HexText hash) : (hashHead hash).isSome = true := by
  have ascii : ∀ c ∈ hash.toList, c.utf8Size = 1 := by
    have digits : ∀ c ∈ "0123456789abcdefABCDEF".toList, c.utf8Size = 1 := by simp [Char.utf8Size]
    exact fun c member => digits c (hex.2 c member)
  have long : 16 ≤ hash.toList.length := by
    rw [String.length_toList, hex.1]
    omega
  rw [hashHead, sliceBytes_ascii _ _ ascii long]
  rfl

theorem hexLower_hex (bytes : List UInt8) (length : bytes.length = 32) :
    HexText (hexLower bytes) := by
  have digits : ∀ d : Fin 16, hexDigit (UInt8.ofNat d.val) ∈ "0123456789abcdefABCDEF".toList := by
    decide
  have digit (d : UInt8) (small : d.toNat < 16) : hexDigit d ∈ "0123456789abcdefABCDEF".toList := by
    have := digits ⟨d.toNat, small⟩
    rwa [UInt8.ofNat_toNat] at this
  constructor
  · simp [hexLower, List.length_flatMap, length]
  · intro c member
    simp only [hexLower, String.toList_ofList, List.mem_flatMap, List.mem_cons, List.not_mem_nil,
      or_false] at member
    obtain ⟨b, -, rfl | rfl⟩ := member
    · exact digit _ (by rw [nibble_high]; have := b.toNat_lt; omega)
    · exact digit _ (by rw [nibble_low]; omega)

inductive Tally where
  | claimed (accepted : UInt64)
  | lostRace
  | unchanged
  deriving DecidableEq, Repr

def lossReason (resp : SubmitResponse) : String :=
  ((resp.results.filter fun r => r.status ≠ "solved").filterMap SubmitResult.error).head?.getD
    "Another miner submitted first!"

section
variable (toLowercase : String -> String)

def rateLimited (resp : SubmitResponse) : Bool :=
  decide ("rate limit".toList <:+: (toLowercase (lossReason resp)).toList)

-- `none` is an error of the request.
def tally : Option SubmitResponse -> Tally
  | some resp =>
    if 0 < resp.accepted then .claimed resp.accepted
    else if rateLimited toLowercase resp then .unchanged
    else .lostRace
  | none => .unchanged

def Session.record (session : Session) : Tally -> Session
  | .claimed accepted => { session with tasksCompleted := session.tasksCompleted + accepted }
  | .lostRace => { session with racesLost := session.racesLost + 1 }
  | .unchanged => session

theorem Session.record_histories (session : Session) (due : Tally) :
    (session.record due).calls = session.calls ∧ (session.record due).submits = session.submits := by
  cases due <;> exact ⟨rfl, rfl⟩

def acceptedOf : Option SubmitResponse -> Nat
  | some resp => resp.accepted.toNat
  | none => 0

-- An Ok reply that accepts nothing, for a reason other than a rate limit.
def losesRace : Option SubmitResponse -> Bool
  | some resp => resp.accepted == 0 && !rateLimited toLowercase resp
  | none => false

def Tally.accepted : Tally -> Nat
  | .claimed accepted => accepted.toNat
  | .lostRace => 0
  | .unchanged => 0

def Tally.lost : Tally -> Nat
  | .claimed _ => 0
  | .lostRace => 1
  | .unchanged => 0

theorem tally_accepted (reply : Option SubmitResponse) :
    (tally toLowercase reply).accepted = acceptedOf reply := by
  cases reply with
  | none => rfl
  | some resp =>
    by_cases some_ : 0 < resp.accepted
    · simp [tally, some_, Tally.accepted, acceptedOf]
    · have none : resp.accepted.toNat = 0 := by
        rw [UInt64.lt_iff_toNat_lt] at some_
        simp only [UInt64.reduceToNat] at some_
        omega
      simp only [tally, some_, if_false, acceptedOf, none]
      split <;> rfl

theorem tally_lost (reply : Option SubmitResponse) :
    (tally toLowercase reply).lost = (losesRace toLowercase reply).toNat := by
  cases reply with
  | none => rfl
  | some resp =>
    by_cases some_ : 0 < resp.accepted
    · have more : (resp.accepted == 0) = false := by
        rw [beq_eq_false_iff_ne]
        rintro none
        simp [none] at some_
      simp [tally, some_, Tally.lost, losesRace, more]
    · have none : resp.accepted = 0 := by
        apply UInt64.toNat.inj
        rw [UInt64.lt_iff_toNat_lt] at some_
        simp only [UInt64.reduceToNat] at some_ ⊢
        omega
      cases limited : rateLimited toLowercase resp <;>
        simp [tally, Tally.lost, losesRace, none, limited]

def acceptedSum (submits : List (Solution × Option SubmitResponse)) : Nat :=
  (submits.map fun s => acceptedOf s.2).sum

def lostCount (submits : List (Solution × Option SubmitResponse)) : Nat :=
  (submits.map fun s => (losesRace toLowercase s.2).toNat).sum

@[simp]
theorem acceptedSum_append (submits : List (Solution × Option SubmitResponse)) (sol : Solution)
    (reply : Option SubmitResponse) :
    acceptedSum (submits ++ [(sol, reply)]) = acceptedSum submits + acceptedOf reply := by
  simp [acceptedSum]

@[simp]
theorem lostCount_append (submits : List (Solution × Option SubmitResponse)) (sol : Solution)
    (reply : Option SubmitResponse) : lostCount toLowercase (submits ++ [(sol, reply)]) =
      lostCount toLowercase submits + (losesRace toLowercase reply).toNat := by
  simp [lostCount]

/-- Every task went to one call, every solution to one submission, and the statistics add up. -/
structure Distributed (tasks : List Task) (completed lost : UInt64) (session : Session)
    (found : Nat) : Prop where
  once : (session.calls.map Call.index).Perm (List.range tasks.length)
  own : ∀ call ∈ session.calls, tasks[call.index]? = some call.task
  submitted : (session.submits.map Prod.fst).Perm (session.calls.filterMap Call.result)
  counted : found = (session.calls.filterMap Call.result).length
  credited : session.tasksCompleted = completed + UInt64.ofNat (acceptedSum session.submits)
  raced : session.racesLost = lost + UInt64.ofNat (lostCount toLowercase session.submits)

-- Any backend: it may answer anything, with a hash of 64 hex digits.
def backendMine (backend index : Nat) (task : Task) : Proc Session (Option Solution) :=
  fun s o t => ∃ result : Option Solution, (∀ sol, result = some sol -> HexText sol.hash) ∧
    o = some result ∧
    t = s.called { backend := backend, index := index, task := task, result := result }

def clientSubmit (sol : Solution) : Proc Session (Option SubmitResponse) :=
  fun s o t => ∃ reply, o = some reply ∧ t = s.submitted sol reply

def submitSolution (sol : Solution) : Proc Session Unit := do
  let reply ← clientSubmit sol
  Proc.modify fun s => s.record (tally toLowercase reply)

def plainLoop (index found : Nat) : List Task -> Proc Session Nat
  | [] => return found
  | task :: rest => do
    match ← backendMine 0 index task with
    | some sol => do
      let _ ← Proc.ofOption (hashHead sol.hash)
      submitSolution toLowercase sol
      plainLoop (index + 1) (found + 1) rest
    | none => plainLoop (index + 1) found rest

end

end ScamMiner.Orchestrator
