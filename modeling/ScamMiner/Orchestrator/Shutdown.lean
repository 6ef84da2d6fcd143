import ScamMiner.Orchestrator.Plain

set_option autoImplicit false

namespace ScamMiner.Orchestrator

open Transition (Run Final)

-- `busy` are the backends inside a call; `begun` lists the calls with their tasks, oldest first.
structure Watch (n : Nat) where
  sys : Sys n
  busy : Fin n -> Bool
  begun : List (Fin n × Nat)

section
variable {n : Nat}

def Watch.start (n : Nat) (session : Session) : Watch n :=
  { sys := Sys.start n session, busy := fun _ => false, begun := [] }

def Watch.interrupted (w : Watch n) : Watch n :=
  { w with sys := { w.sys with shared := { w.sys.shared with shutdown := true } } }

def Watch.enter (w : Watch n) (i : Fin n) (idx : Nat) : Watch n :=
  { w with busy := Function.update w.busy i true, begun := w.begun ++ [(i, idx)] }

def Watch.after (w : Watch n) (i : Fin n) (s : Shared) (pc : Pc) : Watch n :=
  { w with sys := w.sys.after i s pc, busy := Function.update w.busy i false }

def Watch.since (w u : Watch n) : List (Fin n × Nat) :=
  u.begun.drop w.begun.length

def unmined (tasks : List Task) (u : Watch n) : List Nat :=
  (List.range tasks.length).filter fun k => decide (k ∉ u.begun.map Prod.snd)

structure Stopped (tasks : List Task) (w u : Watch n) : Prop where
  each : ∀ i, ((w.since u).map Prod.fst).count i ≤ 1
  rest : tasks.length ≤ w.begun.length + n + (unmined tasks u).length

variable (toLowercase : String -> String) (tasks : List Task)

inductive WatchStep : Watch n -> Watch n -> Prop
  | call (w : Watch n) (i : Fin n) (idx : Nat) (alive : w.sys.aborted = false)
      (entering : w.sys.pcs i = .mining idx) (idle : w.busy i = false) :
    WatchStep w (w.enter i idx)
  | worker (w : Watch n) (i : Fin n) (s : Shared) (pc : Pc) (alive : w.sys.aborted = false)
      (returned : ∀ idx, w.sys.pcs i = .mining idx -> w.busy i = true)
      (moves : LoopStep toLowercase tasks n i.val w.sys.shared (w.sys.pcs i) s pc) :
    WatchStep w (w.after i s pc)
  | panic (w : Watch n) (i : Fin n) (alive : w.sys.aborted = false)
      (panics : Panics (w.sys.pcs i)) :
    WatchStep w { w with sys := { w.sys with aborted := true } }
  | interrupt (w : Watch n) (alive : w.sys.aborted = false)
      (quiet : w.sys.shared.shutdown = false) : WatchStep w w.interrupted

variable {toLowercase tasks} {w u v : Watch n}

theorem WatchStep.projects (step : WatchStep toLowercase tasks w u) :
    u.sys = w.sys ∨ MineStep toLowercase tasks w.sys u.sys := by
  cases step with
  | call i idx alive entering idle => exact .inl rfl
  | worker i s pc alive returned moves => exact .inr (.worker w.sys i s pc alive moves)
  | panic i alive panics => exact .inr (.panic w.sys i alive panics)
  | interrupt alive quiet => exact .inr (.interrupt w.sys alive quiet)

theorem watch_projects {k : Nat} (run : Run (WatchStep toLowercase tasks) k w u) :
    ∃ m, Run (MineStep toLowercase tasks) m w.sys u.sys := by
  induction run with
  | refl => exact ⟨0, .refl _⟩
  | tail _ last ih =>
    obtain ⟨m, run⟩ := ih
    rcases last.projects with same | step
    · exact ⟨m, same ▸ run⟩
    · exact ⟨m + 1, run.tail step⟩

theorem entering_or_returned (pc : Pc) (busy : Bool) :
    (∃ idx, pc = .mining idx ∧ busy = false) ∨ ∀ idx, pc = .mining idx -> busy = true := by
  cases busy with
  | true => exact .inr fun _ _ => rfl
  | false =>
    cases pc with
    | mining idx => exact .inl ⟨idx, rfl, rfl⟩
    | _ => exact .inr fun _ same => by cases same

theorem MineStep.lifts {sys : Sys n} (step : MineStep toLowercase tasks w.sys sys) :
    ∃ m u, Run (WatchStep toLowercase tasks) m w u ∧ u.sys = sys := by
  cases step with
  | worker i s pc alive moves =>
    rcases entering_or_returned (w.sys.pcs i) (w.busy i) with ⟨idx, mining, idle⟩ | returned
    · refine ⟨2, _, .tail (.tail (.refl w) (.call w i idx alive mining idle))
        (.worker _ i s pc alive ?_ moves), rfl⟩
      intro _ _
      exact Function.update_self ..
    · exact ⟨1, _, .tail (.refl w) (.worker w i s pc alive returned moves), rfl⟩
  | panic i alive panics => exact ⟨1, _, .tail (.refl w) (.panic w i alive panics), rfl⟩
  | interrupt alive quiet => exact ⟨1, _, .tail (.refl w) (.interrupt w alive quiet), rfl⟩

theorem mineRun_lifts {k : Nat} {sys : Sys n}
    (run : Run (MineStep toLowercase tasks) k w.sys sys) :
    ∃ m u, Run (WatchStep toLowercase tasks) m w u ∧ u.sys = sys := by
  generalize start : w.sys = first at run
  induction run with
  | refl => exact ⟨0, w, .refl w, start⟩
  | tail _ last ih =>
    obtain ⟨m, v, run, rfl⟩ := ih start
    obtain ⟨m', u, more, same⟩ := last.lifts
    exact ⟨m + m', u, run.append more, same⟩

theorem mineTasks_iff_watched (before : Session) (found : Option Nat) (after : Session) :
    mineTasks toLowercase tasks n before found after ↔
      ∃ k, ∃ w : Watch n, Run (WatchStep toLowercase tasks) k (Watch.start n before) w ∧
        w.sys.shared.shutdown = false ∧ w.sys.Outcome found after := by
  rw [mineTasks_iff_runs]
  constructor
  · rintro ⟨k, sys, run, quiet, ends⟩
    obtain ⟨m, w, watched, rfl⟩ := mineRun_lifts (w := Watch.start n before) run
    exact ⟨m, w, watched, quiet, ends⟩
  · rintro ⟨k, w, run, quiet, ends⟩
    obtain ⟨m, projected⟩ := watch_projects run
    exact ⟨m, w.sys, projected, quiet, ends⟩

-- A worker past the check whose call has not begun yet.
def Pc.due : Pc -> Bool -> Nat
  | .mining _, false => 1
  | _, _ => 0

theorem due_le (pc : Pc) (busy : Bool) : pc.due busy ≤ 1 := by
  unfold Pc.due
  split <;> omega

theorem due_returned {pc : Pc} {busy : Bool} (returned : ∀ idx, pc = .mining idx -> busy = true) :
    pc.due busy = 0 := by
  cases pc with
  | mining idx =>
    rw [returned idx rfl]
    rfl
  | _ => rfl

theorem unmined_count (tasks : List Task) (u : Watch n) :
    tasks.length ≤ u.begun.length + (unmined tasks u).length := by
  have within : ((List.range tasks.length).filter fun k =>
      decide (k ∈ u.begun.map Prod.snd)).length ≤ (u.begun.map Prod.snd).length := by
    refine (List.subperm_of_subset (List.nodup_range.filter _) ?_).length_le
    intro k member
    simpa using (List.mem_filter.mp member).2
  have split := List.length_eq_length_filter_add (l := List.range tasks.length)
    fun k => decide (k ∈ u.begun.map Prod.snd)
  have rest : (List.range tasks.length).filter (fun k => !decide (k ∈ u.begun.map Prod.snd)) =
      unmined tasks u := by
    simp only [unmined, decide_not]
  rw [rest, List.length_range] at split
  rw [List.length_map] at within
  omega

theorem Stopped.of_each (each : ∀ i, ((w.since u).map Prod.fst).count i ≤ 1) :
    Stopped tasks w u where
  each := each
  rest := by
    have distinct : ((w.since u).map Prod.fst).Nodup := List.nodup_iff_count_le_one.mpr each
    have few : (w.since u).length ≤ n := by
      have bound := distinct.length_le_card
      rwa [List.length_map, Fintype.card_fin] at bound
    have counted := unmined_count tasks u
    simp only [Watch.since, List.length_drop] at few
    omega

/-- After a shutdown at `w`: each backend has begun one more call, or is on its way into one. -/
structure Down (w u : Watch n) : Prop where
  down : u.sys.shared.shutdown = true
  grown : w.begun.length ≤ u.begun.length
  each : ∀ i, ((w.since u).map Prod.fst).count i + (u.sys.pcs i).due (u.busy i) ≤ 1

theorem interrupted_down (w : Watch n) : Down w w.interrupted where
  down := rfl
  grown := Nat.le_refl _
  each := by
    intro i
    have none : w.since w.interrupted = [] := List.drop_length
    rw [none, List.map_nil, List.count_nil, Nat.zero_add]
    exact due_le _ _

-- With the flag set no worker gets past the check.
theorem WorkerStep.stopped {backend : Nat} {s t : Shared} {pc next : Pc}
    (step : WorkerStep toLowercase tasks backend s pc t next) (down : s.shutdown = true)
    (busy : Bool) : next.due busy = 0 := by
  cases step with
  | take idx inside quiet => simp [down] at quiet
  | _ => rfl

theorem since_enter (grown : w.begun.length ≤ u.begun.length) (i : Fin n) (idx : Nat) :
    w.since (u.enter i idx) = w.since u ++ [(i, idx)] :=
  List.drop_append_of_le_length grown

theorem Down.step (many : n ≠ 1) (before : Down w u) (step : WatchStep toLowercase tasks u v) :
    Down w v := by
  have grown := before.grown
  cases step with
  | call i idx alive entering idle =>
    refine ⟨before.down, ?_, fun j => ?_⟩
    · simp only [Watch.enter, List.length_append]
      omega
    · have each := before.each j
      rw [since_enter grown, List.map_append, List.count_append]
      by_cases same : j = i
      · subst same
        rw [entering, idle, Pc.due] at each
        simp only [Watch.enter, Function.update_self, entering, Pc.due, List.map_cons,
          List.map_nil, List.count_singleton_self]
        omega
      · have other : List.count j [i] = 0 := by simp [Ne.symm same]
        simp only [Watch.enter, Function.update_of_ne same, List.map_cons, List.map_nil, other]
        omega
  | worker i s pc alive returned moves =>
    rw [LoopStep, if_neg many] at moves
    refine ⟨moves.shutdown.trans before.down, grown, fun j => ?_⟩
    have each := before.each j
    have kept : w.since (u.after i s pc) = w.since u := rfl
    rw [kept]
    by_cases same : j = i
    · subst same
      have stopped := moves.stopped before.down false
      simp only [Watch.after, Sys.after, Function.update_self, stopped]
      exact Nat.le_of_add_right_le each
    · simpa only [Watch.after, Sys.after, Function.update_of_ne same] using each
  | panic i alive panics => exact ⟨before.down, grown, before.each⟩
  | interrupt alive quiet => exact absurd before.down (by simp [quiet])

theorem several_stop (many : n ≠ 1) {m : Nat}
    (run : Run (WatchStep toLowercase tasks) m w.interrupted u) : Stopped tasks w u := by
  have down : Down w u :=
    run.invariant (fun _ _ before step => before.step many step) (interrupted_down w)
  exact .of_each fun i => Nat.le_of_add_right_le (down.each i)

theorem PlainStep.places {s t : Shared} {pc next : Pc}
    (step : PlainStep toLowercase tasks s pc t next) (within : s.taskIdx ≤ tasks.length) :
    t.taskIdx = s.taskIdx + next.due false ∧ t.taskIdx ≤ tasks.length ∧
      (next = .done -> tasks.length ≤ t.taskIdx) := by
  cases step with
  | next inside => exact ⟨rfl, inside, fun ended => by cases ended⟩
  | exit past => exact ⟨rfl, within, fun _ => past⟩
  | body inBody moves =>
    cases moves with
    | claim => exact inBody.elim
    | beyond _ _ => exact inBody.elim
    | interrupted _ _ _ => exact inBody.elim
    | take _ _ _ => exact inBody.elim
    | _ => exact ⟨rfl, within, fun ended => by cases ended⟩

structure Single (tasks : List Task) (u : Watch 1) : Prop where
  alive : u.sys.aborted = false
  plain : PlainOk tasks u.sys.shared (u.sys.pcs 0)
  counted : u.begun.length + (u.sys.pcs 0).due (u.busy 0) = u.sys.shared.taskIdx
  within : u.sys.shared.taskIdx ≤ tasks.length
  ended : u.sys.pcs 0 = .done -> tasks.length ≤ u.sys.shared.taskIdx

theorem start_single (session : Session) : Single tasks (Watch.start 1 session) where
  alive := rfl
  plain := start_plain session
  counted := rfl
  within := Nat.zero_le _
  ended := fun same => by cases same

theorem Single.firm {u : Watch 1} (before : Single tasks u) (i : Fin 1) :
    ¬ Panics (u.sys.pcs i) := by
  obtain rfl : i = 0 := Subsingleton.elim i 0
  exact PcOk.firm tasks before.plain.ok

theorem Single.interrupted {u : Watch 1} (before : Single tasks u) :
    Single tasks u.interrupted :=
  { before with plain := { before.plain with positioned := before.plain.positioned } }

theorem Single.step (u v : Watch 1) (before : Single tasks u)
    (step : WatchStep toLowercase tasks u v) : Single tasks v := by
  cases step with
  | call i idx alive entering idle =>
    obtain rfl : i = 0 := Subsingleton.elim i 0
    refine { before with counted := ?_ }
    have counted := before.counted
    rw [entering, idle, Pc.due] at counted
    simpa [Watch.enter, entering, Pc.due] using counted
  | worker i s pc alive returned moves =>
    obtain ⟨rfl, plain⟩ := MineStep.plain moves
    have counted := before.counted
    rw [due_returned returned] at counted
    obtain ⟨position, within, ended⟩ := plain.places before.within
    have here : (u.sys.after 0 s pc).pcs 0 = pc := by simp [Sys.after]
    exact {
      alive := alive
      plain := by
        simp only [Watch.after, here]
        exact plain.kept
      counted := by
        simp only [Watch.after, here, Function.update_self]
        exact (congrArg (· + pc.due false) counted).trans position.symm
      within := within
      ended := by
        simp only [Watch.after, here]
        exact ended }
  | panic i alive panics => exact absurd panics (before.firm i)
  | interrupt alive quiet => exact before.interrupted

def Watch.size (tasks : List Task) (u : Watch n) (i : Fin n) : Nat :=
  2 * loopSize tasks u.sys.shared (u.sys.pcs i) + (!u.busy i).toNat +
    (!u.sys.shared.shutdown).toNat

theorem Single.decreases (u v : Watch 1) (before : Single tasks u)
    (step : WatchStep toLowercase tasks u v) : v.size tasks 0 < u.size tasks 0 := by
  cases step with
  | call i idx alive entering idle =>
    obtain rfl : i = 0 := Subsingleton.elim i 0
    simp [Watch.size, Watch.enter, idle]
  | worker i s pc alive returned moves =>
    obtain ⟨rfl, plain⟩ := MineStep.plain moves
    have smaller := plain.decreases
    simp only [Watch.size, Watch.after, Sys.after, Function.update_self, plain.shutdown,
      Bool.not_false, Bool.toNat_true]
    omega
  | panic i alive panics => exact absurd panics (before.firm i)
  | interrupt alive quiet =>
    have same : loopSize tasks u.interrupted.sys.shared (u.interrupted.sys.pcs 0) =
        loopSize tasks u.sys.shared (u.sys.pcs 0) := rfl
    have down : u.interrupted.sys.shared.shutdown = true := rfl
    have busy : u.interrupted.busy 0 = u.busy 0 := rfl
    simp [Watch.size, same, down, busy, quiet]

theorem Single.final {u : Watch 1} (before : Single tasks u)
    (final : Final (WatchStep toLowercase tasks) u) : u.sys.pcs 0 = .done := by
  by_contra active
  rcases entering_or_returned (u.sys.pcs 0) (u.busy 0) with ⟨idx, mining, idle⟩ | returned
  · exact final _ (.call u 0 idx before.alive mining idle)
  · have place : PlaceOk tasks u.sys 0 := ⟨before.plain.ok, fun _ => before.plain⟩
    obtain ⟨t, next, moves⟩ := LoopStep.exists toLowercase place active
    exact final _ (.worker u 0 t next before.alive returned moves)

theorem single_count (w u : Watch 1) :
    ((w.since u).map Prod.fst).count 0 = u.begun.length - w.begun.length := by
  have all : ∀ i ∈ (w.since u).map Prod.fst, 0 = i := fun i _ => Subsingleton.elim 0 i
  rw [List.count_eq_length.mpr all, List.length_map, Watch.since, List.length_drop]

theorem single_stops {w u : Watch 1} {m : Nat} (before : Single tasks w)
    (few : tasks.length ≤ w.begun.length + 1)
    (run : Run (WatchStep toLowercase tasks) m w.interrupted u) : Stopped tasks w u := by
  have single := run.invariant Single.step before.interrupted
  have counted := single.counted
  have within := single.within
  refine .of_each fun i => ?_
  obtain rfl : i = 0 := Subsingleton.elim i 0
  rw [single_count]
  omega

theorem single_goes_on (toLowercase : String -> String) {w : Watch 1} (before : Single tasks w)
    (many : w.begun.length + 1 < tasks.length) :
    ∃ m u, Run (WatchStep toLowercase tasks) m w.interrupted u ∧ ¬ Stopped tasks w u := by
  obtain ⟨m, u, run, final⟩ : ∃ m u, Run (WatchStep toLowercase tasks) m w.interrupted u ∧
      Final (WatchStep toLowercase tasks) u :=
    Transition.finishes Single.step Single.decreases w.interrupted before.interrupted
  have single := run.invariant Single.step before.interrupted
  have done := single.final final
  have all := single.ended done
  have counted := single.counted
  rw [done, Pc.due] at counted
  · refine ⟨m, u, run, fun stopped => ?_⟩
    have one := stopped.each 0
    rw [single_count] at one
    omega
  · simp

/-- A shutdown at `w` stops the batch: always with several backends, and with a single one only
where no more than one task was left to begin. -/
theorem mineTasks_stops_iff (toLowercase : String -> String) (tasks : List Task)
    {session : Session} {k : Nat}
    (run : Run (WatchStep toLowercase tasks) k (Watch.start n session) w) :
    (∀ m u, Run (WatchStep toLowercase tasks) m w.interrupted u -> Stopped tasks w u) ↔
      n ≠ 1 ∨ tasks.length ≤ w.begun.length + 1 := by
  by_cases single : n = 1
  · subst single
    have before := run.invariant Single.step (start_single session)
    constructor
    · intro stops
      right
      by_contra many
      obtain ⟨m, u, late, goesOn⟩ := single_goes_on toLowercase before (Nat.lt_of_not_le many)
      exact goesOn (stops m u late)
    · rintro (several | few) m u late
      · exact absurd rfl several
      · exact single_stops before few late
  · constructor
    · intro _
      exact .inl single
    · intro _ m u late
      exact several_stop single late

theorem mineTasks_stops_iff_two :
    (∀ m u, Run (WatchStep String.toLower [⟨.num 1, "a", 1, 5, 9⟩, ⟨.num 2, "b", 1, 0, 3⟩]) m
        (Watch.start 2 (.start 3 0)).interrupted u ->
      Stopped [⟨.num 1, "a", 1, 5, 9⟩, ⟨.num 2, "b", 1, 0, 3⟩] (Watch.start 2 (.start 3 0)) u) ↔
      2 ≠ 1 ∨ 2 ≤ 0 + 1 :=
  mineTasks_stops_iff String.toLower [⟨.num 1, "a", 1, 5, 9⟩, ⟨.num 2, "b", 1, 0, 3⟩] (.refl _)

theorem mineTasks_goes_on :
    ¬ ∀ m u, Run (WatchStep String.toLower [⟨.num 1, "a", 1, 5, 9⟩, ⟨.num 2, "b", 1, 0, 3⟩]) m
        (Watch.start 1 (.start 3 0)).interrupted u ->
      Stopped [⟨.num 1, "a", 1, 5, 9⟩, ⟨.num 2, "b", 1, 0, 3⟩] (Watch.start 1 (.start 3 0)) u := by
  intro stops
  have first : Single [⟨.num 1, "a", 1, 5, 9⟩, ⟨.num 2, "b", 1, 0, 3⟩]
      (Watch.start 1 (.start 3 0)) := start_single (.start 3 0)
  obtain ⟨m, u, late, goesOn⟩ := single_goes_on String.toLower first (by decide)
  exact goesOn (stops m u late)

end

end ScamMiner.Orchestrator
