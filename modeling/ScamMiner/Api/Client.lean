import Mathlib.Data.List.DropRight
import ScamMiner.Startup

set_option autoImplicit false

namespace ScamMiner.Orchestrator

def Miner.posts {n : Nat} (m : Miner n) : List (Solution × Option SubmitResponse) :=
  m.work.flatMap fun b => b.session.submits

section
variable {toLowercase : String -> String} {n : Nat} {tasks : List Task} {m v : Miner n}

theorem WorkerStep.submits {backend : Nat} {s t : Shared} {pc next : Pc}
    (step : WorkerStep toLowercase tasks backend s pc t next) :
    t.session.submits = s.session.submits ∨
      ∃ sol reply, t.session.submits = s.session.submits ++ [(sol, reply)] := by
  cases step with
  | submit sol reply => exact .inr ⟨sol, reply, rfl⟩
  | tally due => exact .inl (s.session.record_histories due).2
  | _ => exact .inl rfl

theorem PlainStep.submits {s t : Shared} {pc next : Pc}
    (step : PlainStep toLowercase tasks s pc t next) : t.session.submits = s.session.submits ∨
      ∃ sol reply, t.session.submits = s.session.submits ++ [(sol, reply)] := by
  cases step with
  | body inBody moves => exact moves.submits
  | _ => exact .inl rfl

theorem WatchStep.submits {w u : Watch n} (step : WatchStep toLowercase tasks w u) :
    u.sys.shared.session.submits = w.sys.shared.session.submits ∨ ∃ sol reply,
      u.sys.shared.session.submits = w.sys.shared.session.submits ++ [(sol, reply)] := by
  cases step with
  | worker i s pc alive returned moves =>
    rw [LoopStep] at moves
    split_ifs at moves with single
    · exact PlainStep.submits moves
    · exact WorkerStep.submits moves
  | _ => exact .inl rfl

theorem Miner.received_inHand (m : Miner n) (result : Except ApiError (List Task)) :
    (m.received result).inHand.flatMap (fun b => b.session.submits) = [] ∧
      ∀ b ∈ (m.received result).inHand, result = .ok b.tasks := by
  cases result with
  | error e => cases e <;> exact ⟨rfl, fun b member => (List.not_mem_nil member).elim⟩
  | ok served =>
    cases served with
    | nil => exact ⟨rfl, fun b member => (List.not_mem_nil member).elim⟩
    | cons task rest =>
      refine ⟨?_, fun b member => ?_⟩
      · cases down : m.shutdown <;>
          simp [Miner.received, Phase.inHand, Watch.launch, Watch.batch, Watch.start,
            Watch.interrupted, Sys.start, Session.start, down]
      · obtain rfl := List.mem_singleton.mp member
        rfl

-- Only a reply brings a new batch, and only a worker changes the one in hand.
theorem MinerStep.work (step : MinerStep toLowercase m v) : v.work = m.work ∨
    (∃ result, m.phase = .requesting ∧ v = { m with phase := m.received result }) ∨
    ∃ tasks w u, m.phase = .mining tasks w ∧ WatchStep toLowercase tasks w u ∧
      v = { m with shutdown := u.sys.shared.shutdown, phase := .mining tasks u } := by
  have idle (before : m.phase.inHand = []) (after : v.phase.inHand = [])
      (same : v.batches = m.batches) : v.work = m.work := by
    rw [v.work_idle after, m.work_idle before, same]
  cases step with
  | reply place result => exact .inr (.inl ⟨result, place, rfl⟩)
  | @mine tasks w u place moves => exact .inr (.inr ⟨tasks, w, u, place, moves, rfl⟩)
  | @finish tasks w place joined =>
    refine .inl ?_
    rw [Miner.work, Miner.work, place]
    exact List.append_nil _
  | interrupt quiet alive =>
    refine .inl ?_
    rw [Miner.work, Miner.work, Miner.interrupted]
    cases m.phase <;> rfl
  | leave place down => exact .inl (idle (by rw [place]; rfl) rfl rfl)
  | request place quiet => exact .inl (idle (by rw [place]; rfl) rfl rfl)
  | giveUp place down => exact .inl (idle (by rw [place]; rfl) rfl rfl)
  | retry place quiet => exact .inl (idle (by rw [place]; rfl) rfl rfl)
  | pause place short quiet => exact .inl (idle (by rw [place]; rfl) rfl rfl)
  | awake place enough => exact .inl (idle (by rw [place]; rfl) rfl rfl)

theorem Miner.posts_received (m : Miner n) (place : m.phase = .requesting)
    (result : Except ApiError (List Task)) : ({ m with phase := m.received result }).posts = m.posts := by
  have none := (m.received_inHand result).1
  have before : m.work = m.batches := m.work_idle (by rw [place]; rfl)
  rw [Miner.posts, Miner.posts, before, Miner.work, List.flatMap_append]
  exact (congrArg _ none).trans (List.append_nil _)

theorem MinerStep.posts (step : MinerStep toLowercase m v) : v.posts = m.posts ∨
    (∃ tasks w, m.phase = .mining tasks w) ∧ ∃ sol reply, v.posts = m.posts ++ [(sol, reply)] := by
  rcases step.work with same | ⟨result, place, rfl⟩ | ⟨tasks, w, u, place, moves, rfl⟩
  · exact .inl (by rw [Miner.posts, Miner.posts, same])
  · exact .inl (m.posts_received place result)
  · rcases moves.submits with same | ⟨sol, reply, more⟩
    · exact .inl (by simp [Miner.posts, Miner.work, Phase.inHand, Watch.batch, place, same])
    · refine .inr ⟨⟨tasks, w, place⟩, sol, reply, ?_⟩
      simp [Miner.posts, Miner.work, Phase.inHand, Watch.batch, place, more]

theorem MinerStep.served (step : MinerStep toLowercase m v)
    (waiting : m.phase = .requesting -> v.phase = .requesting) :
    v.work.map Batch.tasks = m.work.map Batch.tasks := by
  rcases step.work with same | ⟨result, place, rfl⟩ | ⟨tasks, w, u, place, moves, rfl⟩
  · rw [same]
  · have kept : m.received result = .requesting := waiting place
    simp [Miner.work, Phase.inHand, place, kept]
  · simp [Miner.work, Phase.inHand, Watch.batch, place]

def Phase.waiting : Phase n -> Nat
  | .requesting => 1
  | _ => 0

theorem Miner.received_waiting (m : Miner n) (result : Except ApiError (List Task)) :
    (m.received result).waiting = 0 := by
  rcases result with e | served
  · cases e <;> rfl
  · cases served <;> rfl

theorem Phase.interrupted_waiting (phase : Phase n) : phase.interrupted.waiting = phase.waiting := by
  cases phase <;> rfl

theorem MinerStep.waiting (step : MinerStep toLowercase m v) :
    v.requests + m.phase.waiting = m.requests + v.phase.waiting ∨
      v.requests = m.requests ∧ m.phase = .requesting ∧ v.phase.waiting = 0 := by
  cases step with
  | reply place result => exact .inr ⟨rfl, place, m.received_waiting result⟩
  | interrupt quiet alive =>
    refine .inl ?_
    rw [Miner.interrupted, Phase.interrupted_waiting]
  | leave place down => exact .inl (by rw [place]; rfl)
  | request place quiet => exact .inl (by rw [place]; rfl)
  | giveUp place down => exact .inl (by rw [place]; rfl)
  | retry place quiet => exact .inl (by rw [place]; rfl)
  | pause place short quiet => exact .inl (by rw [place]; rfl)
  | awake place enough => exact .inl (by rw [place]; rfl)
  | mine place moves => exact .inl (by rw [place]; rfl)
  | finish place joined => exact .inl (by rw [place]; rfl)

theorem MinerStep.exits (step : MinerStep toLowercase m v) (exited : v.phase = .exited) :
    m.phase = .requesting := by
  cases step with
  | reply place result => exact place
  | interrupt quiet alive =>
    cases place : m.phase <;> simp [Miner.interrupted, Phase.interrupted, place] at exited
    exact absurd (by rw [place]; trivial) alive
  | _ => cases exited

theorem MinerStep.answered (step : MinerStep toLowercase m v) (place : m.phase = .requesting) :
    v.phase = .requesting ∨ ∃ result, v = { m with phase := m.received result } := by
  cases step with
  | reply own result => exact .inr ⟨result, rfl⟩
  | interrupt quiet alive =>
    refine .inl ?_
    rw [Miner.interrupted, place]
    rfl
  | leave own _ => cases own.symm.trans place
  | request own _ => cases own.symm.trans place
  | giveUp own _ => cases own.symm.trans place
  | retry own _ => cases own.symm.trans place
  | pause own _ _ => cases own.symm.trans place
  | awake own _ => cases own.symm.trans place
  | mine own _ => cases own.symm.trans place
  | finish own _ => cases own.symm.trans place

theorem MinerStep.grows (step : MinerStep toLowercase m v) :
    (∀ served ∈ m.work.map Batch.tasks, served ∈ v.work.map Batch.tasks) ∧
      ∀ s ∈ m.posts, s ∈ v.posts := by
  refine ⟨fun served member => ?_, fun s member => ?_⟩
  · rcases step.work with same | ⟨result, place, rfl⟩ | ⟨tasks, w, u, place, moves, rfl⟩
    · exact same ▸ member
    · simp only [Miner.work, place, Phase.inHand, List.append_nil] at member
      exact List.map_subset _ (List.subset_append_left _ _) member
    · simpa [Miner.work, Phase.inHand, Watch.batch, place] using member
  · rcases step.posts with same | ⟨-, sol, reply, more⟩
    · exact same ▸ member
    · exact more ▸ List.mem_append_left _ member

theorem Miner.received_exited {result : Except ApiError (List Task)}
    (exited : m.received result = .exited) : result = .error .unauthorized := by
  rcases result with e | served
  · cases e with
    | unauthorized => rfl
    | _ => cases exited
  · cases served <;> cases exited

end

end ScamMiner.Orchestrator

namespace ScamMiner

open Orchestrator
open Transition (Run)

structure Client where
  base : String
  token : String

def Client.new (base token : String) : Client :=
  { base := .ofList (base.toList.rdropWhile fun c => c == '/'), token := token }

structure Request (Value : Type) where
  url : String
  token : String
  query : List (String × UInt32)
  payload : Option Value

-- What is used of the HTTP and JSON libraries, which may do anything.
structure Wire (Response Value : Type) where
  status : Response -> Nat
  statusText : Response -> String
  text : Response -> Option String
  tasks : Response -> Except String (List Task)
  json : Response -> Option Value
  parse : String -> Option Value
  reply : Value -> Option SubmitResponse
  null : Value
  get : Value -> String -> Option Value
  asStr : Value -> Option String
  solutions : List Solution -> Value
  set : Value -> String -> Value -> Value
  string : String -> Value

section
variable {Response Value : Type} (wire : Wire Response Value) (client : Client)

def Wire.isSuccess (resp : Response) : Bool :=
  decide (200 ≤ wire.status resp ∧ wire.status resp < 300)

def extractError (body : String) : Option String := do
  let v ← wire.parse body
  let e ← wire.get v "error"
  wire.asStr e

def Client.taskRequest (difficulty count : UInt32) : Request Value :=
  { url := client.base ++ "/api/mining/task"
    token := client.token
    query := [("difficulty", difficulty), ("count", count)]
    payload := none }

def getTasks (sent : Except String Response) : Except ApiError (List Task) :=
  match sent with
  | .error e => .error (.other ("Request failed: " ++ e))
  | .ok resp =>
    if wire.status resp = 401 then .error .unauthorized
    else if wire.isSuccess resp then
      match wire.tasks resp with
      | .ok tasks => .ok tasks
      | .error e => .error (.other ("Invalid response: " ++ e))
    else
      let body := (wire.text resp).getD ""
      let error := (extractError wire body).getD body
      if wire.status resp = 429 then .error (.rateLimited error)
      else .error (.other ("Server returned HTTP " ++ wire.statusText resp ++ ": " ++ body))

def Client.submitRequest (solutions : List Solution) (account : Option String) : Request Value :=
  let payload := wire.solutions solutions
  { url := client.base ++ "/api/mining/submit_batch"
    token := client.token
    query := []
    payload := some (match account with
      | some a => wire.set payload "account_number" (wire.string a)
      | none => payload) }

def submit (sent : Except String Response) : Except String SubmitResponse :=
  match sent with
  | .error _ => .error "submit request failed"
  | .ok resp =>
    let data := (wire.json resp).getD wire.null
    if wire.isSuccess resp then
      match wire.reply data with
      | some reply => .ok reply
      | none => .error "invalid submit response"
    else .error (((wire.get data "error").bind wire.asStr).getD "batch rejected")

def Wire.decoded (sent : Except String Response) : Option SubmitResponse :=
  match sent with
  | .error _ => none
  | .ok resp => if wire.isSuccess resp then wire.reply ((wire.json resp).getD wire.null) else none

theorem submit_decoded (sent : Except String Response) :
    (submit wire sent).toOption = wire.decoded sent := by
  cases sent with
  | error e => rfl
  | ok resp =>
    simp only [submit, Wire.decoded]
    by_cases success : wire.isSuccess resp = true
    · cases own : wire.reply ((wire.json resp).getD wire.null) <;> simp [success, Except.toOption]
    · simp [success, Except.toOption]

theorem getTasks_ok {sent : Except String Response} {tasks : List Task}
    (served : getTasks wire sent = .ok tasks) :
    ∃ resp, sent = .ok resp ∧ wire.isSuccess resp = true ∧ wire.tasks resp = .ok tasks := by
  cases sent with
  | error e => cases served
  | ok resp =>
    simp only [getTasks] at served
    split_ifs at served with unauthorized success limited
    cases decoded : wire.tasks resp with
    | error e => simp [decoded] at served
    | ok own =>
      obtain rfl : own = tasks := by simpa [decoded] using served
      exact ⟨resp, rfl, success, decoded⟩

theorem getTasks_unauthorized {sent : Except String Response}
    (refused : getTasks wire sent = .error .unauthorized) :
    ∃ resp, sent = .ok resp ∧ wire.status resp = 401 := by
  cases sent with
  | error e => cases refused
  | ok resp =>
    refine ⟨resp, rfl, ?_⟩
    by_contra other
    simp only [getTasks, if_neg other] at refused
    split_ifs at refused with success limited
    · cases decoded : wire.tasks resp <;> simp [decoded] at refused
    · cases refused
    · cases refused

end

-- A session and what it has exchanged with the server, oldest first.
structure Wired (Response Value : Type) (n : Nat) where
  miner : Miner n
  fetches : List (Request Value × Except String Response)
  posts : List (Request Value × Except String Response)

def Wired.start (Response Value : Type) (n : Nat) : Wired Response Value n :=
  { miner := .start n, fetches := [], posts := [] }

section
variable {Response Value : Type} {n : Nat} (toLowercase : String -> String)
  (wire : Wire Response Value) (orch : Started Client)

def Started.fetch : Request Value :=
  orch.client.taskRequest orch.difficulty orch.batchSize

def Started.post (sol : Solution) : Request Value :=
  orch.client.submitRequest wire [sol] orch.account

/-- The steps of a session whose answers are those of its client; the server may send anything. -/
inductive WiredStep : Wired Response Value n -> Wired Response Value n -> Prop
  | fetch (x : Wired Response Value n) (sent : Except String Response)
      (place : x.miner.phase = .requesting) :
    WiredStep x
      { x with miner := { x.miner with phase := x.miner.received (getTasks wire sent) }
               fetches := x.fetches ++ [(orch.fetch, sent)] }
  | post (x : Wired Response Value n) (m : Miner n) (sol : Solution)
      (sent : Except String Response) (mining : ∃ tasks w, x.miner.phase = .mining tasks w)
      (step : MinerStep toLowercase x.miner m)
      (submitted : m.posts = x.miner.posts ++ [(sol, (submit wire sent).toOption)]) :
    WiredStep x { x with miner := m, posts := x.posts ++ [(orch.post wire sol, sent)] }
  | inside (x : Wired Response Value n) (m : Miner n) (step : MinerStep toLowercase x.miner m)
      (waiting : x.miner.phase = .requesting -> m.phase = .requesting)
      (silent : m.posts = x.miner.posts) : WiredStep x { x with miner := m }

def Started.Posted (s : Solution × Option SubmitResponse)
    (e : Request Value × Except String Response) : Prop :=
  e.1 = orch.post wire s.1 ∧ (submit wire e.2).toOption = s.2

structure OnWire (x : Wired Response Value n) : Prop where
  asked : ∀ e ∈ x.fetches, e.1 = orch.fetch
  counted : x.miner.requests = x.fetches.length + x.miner.phase.waiting
  served : ∀ tasks ∈ x.miner.work.map Batch.tasks, ∃ e ∈ x.fetches, ∃ resp, e.2 = .ok resp ∧
    wire.isSuccess resp = true ∧ wire.tasks resp = .ok tasks
  posted : List.Forall₂ (orch.Posted wire) x.miner.posts x.posts
  refused : x.miner.phase = .exited -> ∃ e resp, x.fetches.getLast? = some e ∧ e.2 = .ok resp ∧
    wire.status resp = 401

variable {toLowercase wire orch} {x y : Wired Response Value n}

theorem WiredStep.miner (step : WiredStep toLowercase wire orch x y) :
    MinerStep toLowercase x.miner y.miner := by
  cases step with
  | fetch sent place => exact .reply place (getTasks wire sent)
  | post m sol sent mining step submitted => exact step
  | inside m step waiting silent => exact step

theorem wired_miner {k : Nat} (run : Run (WiredStep toLowercase wire orch) k x y) :
    Run (MinerStep toLowercase) k x.miner y.miner := by
  induction run with
  | refl => exact .refl _
  | tail _ last ih => exact .tail ih last.miner

theorem start_onWire (wire : Wire Response Value) (orch : Started Client) (n : Nat) :
    OnWire wire orch (.start Response Value n) where
  asked := fun e member => (List.not_mem_nil member).elim
  counted := rfl
  served := fun tasks member => (List.not_mem_nil member).elim
  posted := .nil
  refused := fun exited => by cases exited

theorem OnWire.fetch {sent : Except String Response} (wired : OnWire wire orch x)
    (place : x.miner.phase = .requesting) : OnWire wire orch
      { x with miner := { x.miner with phase := x.miner.received (getTasks wire sent) }
               fetches := x.fetches ++ [(orch.fetch, sent)] } where
  asked e member := by
    rcases List.mem_append.mp member with old | new
    · exact wired.asked e old
    · rw [List.mem_singleton.mp new]
  counted := by
    have counted := wired.counted
    rw [place] at counted
    simp only [Miner.received_waiting, List.length_append, List.length_singleton]
    exact counted
  served tasks member := by
    obtain ⟨b, worked, rfl⟩ := List.mem_map.mp member
    rcases List.mem_append.mp worked with old | current
    · obtain ⟨e, own, rest⟩ := wired.served b.tasks (List.mem_map_of_mem (List.mem_append_left _ old))
      exact ⟨e, List.mem_append_left _ own, rest⟩
    · have answered := (x.miner.received_inHand (getTasks wire sent)).2 b current
      obtain ⟨resp, rfl, success, decoded⟩ := getTasks_ok wire answered
      exact ⟨_, List.mem_append_right _ (List.mem_singleton_self _), resp, rfl, success, decoded⟩
  posted := by
    rw [x.miner.posts_received place]
    exact wired.posted
  refused exited := by
    obtain ⟨resp, rfl, status⟩ := getTasks_unauthorized wire (Miner.received_exited exited)
    exact ⟨_, resp, List.getLast?_concat, rfl, status⟩

theorem OnWire.inside {m : Miner n} {posts : List (Request Value × Except String Response)}
    (wired : OnWire wire orch x) (step : MinerStep toLowercase x.miner m)
    (waiting : x.miner.phase = .requesting -> m.phase = .requesting)
    (posted : List.Forall₂ (orch.Posted wire) m.posts posts) :
    OnWire wire orch { x with miner := m, posts := posts } where
  asked := wired.asked
  counted := by
    have counted := wired.counted
    rcases step.waiting with own | ⟨-, place, gone⟩
    · dsimp only
      omega
    · rw [waiting place] at gone
      cases gone
  served := by
    rw [step.served waiting]
    exact wired.served
  posted := posted
  refused exited := by
    have kept := waiting (step.exits exited)
    rw [exited] at kept
    cases kept

theorem OnWire.step (wired : OnWire wire orch x) (step : WiredStep toLowercase wire orch x y) :
    OnWire wire orch y := by
  cases step with
  | fetch sent place => exact wired.fetch place
  | post m sol sent mining step submitted =>
    refine wired.inside step (fun place => ?_) ?_
    · obtain ⟨tasks, w, busy⟩ := mining
      rw [busy] at place
      cases place
    · rw [submitted]
      exact List.rel_append wired.posted (.cons ⟨rfl, rfl⟩ .nil)
  | inside m step waiting silent => exact wired.inside step waiting (silent ▸ wired.posted)

theorem wired_run {k : Nat} (run : Run (WiredStep toLowercase wire orch) k (.start _ _ n) x) :
    OnWire wire orch x :=
  run.invariant (fun _ _ wired step => wired.step step) (start_onWire wire orch n)

structure Wire.Serves (wire : Wire Response Value) (m : Miner n) : Prop where
  limited : ∃ sent error, getTasks wire sent = .error (.rateLimited error)
  refused : ∃ sent, getTasks wire sent = .error .unauthorized
  idle : ∃ sent, getTasks wire sent = .ok []
  tasks : ∀ served ∈ m.work.map Batch.tasks, ∃ sent, getTasks wire sent = .ok served
  replies : ∀ s ∈ m.posts, ∃ sent, (submit wire sent).toOption = s.2

theorem Wire.Serves.received {m : Miner n} {result : Except ApiError (List Task)}
    (serves : wire.Serves { m with phase := m.received result }) :
    ∃ sent, m.received (getTasks wire sent) = m.received result := by
  rcases result with (error | - | error) | (- | ⟨task, rest⟩)
  · obtain ⟨sent, own, same⟩ := serves.limited
    exact ⟨sent, by rw [same]; rfl⟩
  · obtain ⟨sent, same⟩ := serves.refused
    exact ⟨sent, by rw [same]⟩
  · exact ⟨.error error, rfl⟩
  · obtain ⟨sent, same⟩ := serves.idle
    exact ⟨sent, by rw [same]⟩
  · obtain ⟨sent, same⟩ := serves.tasks (task :: rest)
      (List.mem_map_of_mem (List.mem_append_right _ (List.mem_singleton_self _)))
    exact ⟨sent, by rw [same]⟩

theorem WiredStep.lifts {m : Miner n} (step : MinerStep toLowercase x.miner m)
    (serves : wire.Serves m) : ∃ y, WiredStep toLowercase wire orch x y ∧ y.miner = m := by
  rcases step.posts with silent | ⟨mining, sol, reply, submitted⟩
  · by_cases waiting : x.miner.phase = .requesting -> m.phase = .requesting
    · exact ⟨_, .inside x m step waiting silent, rfl⟩
    · obtain ⟨place, gone⟩ := Classical.not_imp.mp waiting
      obtain ⟨result, rfl⟩ := (step.answered place).resolve_left gone
      obtain ⟨sent, same⟩ := serves.received
      exact ⟨_, .fetch x sent place, by rw [same]⟩
  · obtain ⟨sent, same⟩ := serves.replies (sol, reply)
      (submitted ▸ List.mem_append_right _ (List.mem_singleton_self _))
    exact ⟨_, .post x m sol sent mining step (same ▸ submitted), rfl⟩

/-- Every session whose replies a server can send is one on the wire. -/
theorem wired_lifts {m : Miner n} {k : Nat} (run : Run (MinerStep toLowercase) k (.start n) m)
    (serves : wire.Serves m) : ∃ x, Run (WiredStep toLowercase wire orch) k (.start _ _ n) x ∧
      x.miner = m := by
  generalize first : Miner.start n = start at run
  induction run with
  | refl => exact ⟨_, .refl _, first⟩
  | @tail k start m v _ last ih =>
    have grows := last.grows
    have before : wire.Serves m :=
      { serves with
        tasks := fun served member => serves.tasks served (grows.1 served member)
        replies := fun s member => serves.replies s (grows.2 s member) }
    obtain ⟨x, run, rfl⟩ := ih before first
    obtain ⟨y, step, same⟩ : ∃ y, WiredStep toLowercase wire orch x y ∧ y.miner = _ :=
      WiredStep.lifts last serves
    exact ⟨y, run.tail step, same⟩

theorem posted_replies {submits : List (Solution × Option SubmitResponse)}
    {posts : List (Request Value × Except String Response)}
    (posted : List.Forall₂ (orch.Posted wire) submits posts) :
    submits.map Prod.snd = posts.map fun e => wire.decoded e.2 := by
  induction posted with
  | nil => rfl
  | cons own _ ih =>
    rw [List.map_cons, List.map_cons, ih, ← own.2, submit_decoded]

def sampleTasks : List Task :=
  [⟨.num 1, "", 0, 5, 900⟩, ⟨.num 2, "", 0, 0, 70000000⟩]

inductive Sample where
  | listing
  | nothing
  | unauthorized
  | limited
  | accepted

inductive SampleValue where
  | null
  | string (s : String)
  | payload (solutions : List Solution) (account : Option SampleValue)
  | reply

def Sample.status : Sample -> Nat
  | .listing | .nothing | .accepted => 200
  | .unauthorized => 401
  | .limited => 429

def sampleWire : Wire Sample SampleValue where
  status := Sample.status
  statusText resp := toString resp.status
  text resp := if resp.status = 429 then some "Too many requests" else some ""
  tasks
    | .listing => .ok sampleTasks
    | .nothing | .accepted => .ok []
    | .unauthorized | .limited => .error "error decoding response body"
  json
    | .accepted => some .reply
    | _ => none
  parse _ := none
  reply
    | .reply => some ⟨1, []⟩
    | _ => none
  null := .null
  get _ _ := none
  asStr
    | .string s => some s
    | _ => none
  solutions sols := .payload sols none
  set
    | .payload sols _, "account_number", a => .payload sols (some a)
    | v, _, _ => v
  string := .string

def sampleOrch (account : Option String) : Started Client :=
  { client := .new "https://scam.dn42/" ""
    backends := [.cpu (.new 2), .gpu .opencl "gfx1100"]
    difficulty := 8
    batchSize := 100
    account := account }

theorem sampleTasks_found {session : Session} {found : Nat}
    (exhaustive : Exhaustive sampleTasks session found) : session.submits.length = 2 := by
  obtain ⟨sols, valid, order⟩ := exhaustive.submitted
  rw [solvable_free sampleTasks (by decide)] at valid
  rw [← List.length_map, order.length_eq, ← valid.length_eq]
  rfl

theorem sample_session (orch : Started Client) : ∃ k, ∃ x : Wired Sample SampleValue 2,
    Run (WiredStep String.toLower sampleWire orch) k (.start _ _ 2) x ∧
      x.miner.Served ![.cpu (.new 2), .gpu .opencl "gfx1100"] 2 ∧
      x.miner.phase = .head ∧ x.miner.posts.map Prod.snd = List.replicate 2 (some ⟨1, []⟩) := by
  have within : ∀ i, ((![.cpu (.new 2), .gpu .opencl "gfx1100"] : Fin 2 -> Backend) i).Within 2 :=
    Fin.forall_fin_two.mpr ⟨Nat.le_refl 2, trivial⟩
  have range : ∀ task ∈ sampleTasks, task.InRange 2 :=
    List.forall_mem_cons.mpr ⟨⟨by decide, by decide⟩,
      List.forall_mem_singleton.mpr ⟨by decide, by decide⟩⟩
  have short : ∀ task ∈ sampleTasks, task.prefixBytes.length ≤ 35 := by decide +kernel
  obtain ⟨k, m, run, place, quiet, one, served, replies⟩ :=
    short_served String.toLower (fun _ => some ⟨1, []⟩) within (List.cons_ne_nil _ _) range short
  have work : m.work = m.batches := m.work_idle (by rw [place]; rfl)
  obtain ⟨b, batches, tasks⟩ : ∃ b, m.batches = [b] ∧ b.tasks = sampleTasks := by
    obtain ⟨b, rest, batches, same, none⟩ := List.map_eq_cons_iff.mp one
    exact ⟨b, by rw [batches, List.map_eq_nil_iff.mp none], same⟩
  have posts : m.posts = b.session.submits := by
    rw [Miner.posts, work, batches]
    exact List.append_nil _
  have accepted : ∀ s ∈ m.posts, s.2 = some ⟨1, []⟩ := by
    intro s member
    obtain ⟨own, worked, submitted⟩ := List.mem_flatMap.mp member
    exact replies own worked s submitted
  have serves : sampleWire.Serves m :=
    { limited := ⟨.ok .limited, _, rfl⟩
      refused := ⟨.ok .unauthorized, rfl⟩
      idle := ⟨.ok .nothing, rfl⟩
      tasks := fun own member => ⟨.ok .listing, by
        rw [work, one, List.mem_singleton] at member
        rw [member]
        rfl⟩
      replies := fun s member => ⟨.ok .accepted, by rw [accepted s member]; rfl⟩ }
  obtain ⟨x, wired, rfl⟩ : ∃ x, Run (WiredStep String.toLower sampleWire orch) k (.start _ _ 2) x ∧
      x.miner = m := wired_lifts run serves
  have exhaustive := quiet_exhaustive run (by decide) served quiet b (by simp [batches])
  refine ⟨k, x, wired, served, place, List.eq_replicate_iff.mpr ⟨?_, fun reply member => ?_⟩⟩
  · rw [List.length_map, posts]
    exact sampleTasks_found (tasks ▸ exhaustive)
  · obtain ⟨s, listed, rfl⟩ := List.mem_map.mp member
    exact accepted s listed

theorem post_submitted {submits : List (Solution × Option SubmitResponse)}
    {posts : List (Request Value × Except String Response)}
    (posted : List.Forall₂ (orch.Posted wire) submits posts)
    {e : Request Value × Except String Response} (member : e ∈ posts) :
    ∃ s ∈ submits, orch.Posted wire s e := by
  induction posted with
  | nil => cases member
  | @cons s _ _ _ own _ ih =>
    rcases List.mem_cons.mp member with rfl | later
    · exact ⟨s, List.mem_cons_self, own⟩
    · obtain ⟨s, listed, own⟩ := ih later
      exact ⟨s, List.mem_cons_of_mem _ listed, own⟩

end

end ScamMiner
