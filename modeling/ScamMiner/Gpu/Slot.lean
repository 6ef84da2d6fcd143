import ScamMiner.Gpu.Kernel
import ScamMiner.Shared.Transition

set_option autoImplicit false

namespace ScamMiner.Gpu

open Transition (Run Final total total_update)

-- `result[0]`, `result[1]` and `result[2]`.
structure Slot where
  lo : UInt32
  hi : UInt32
  flag : UInt32
  deriving DecidableEq, Repr

def Slot.nonce (slot : Slot) : UInt64 :=
  slot.lo.toUInt64 ||| (slot.hi.toUInt64 <<< 32)

inductive PublishPc where
  | exchange
  | storeLo
  | storeHi
  | done
  deriving DecidableEq, Repr

-- A thread that comes to publish; `spurious` is the choice of a weak exchange to fail.
structure Publisher where
  pc : PublishPc
  nlo : UInt32
  nhi : UInt32
  spurious : Bool
  deriving DecidableEq, Repr

-- Only WGSL has a weak exchange.
def Publisher.mayFail (dialect : Dialect) (thread : Publisher) : Bool :=
  match dialect with
  | .wgsl => thread.spurious
  | .opencl => false
  | .hip => false

def exchange (dialect : Dialect) (slot : Slot) (thread : Publisher) : Slot × Bool :=
  if thread.mayFail dialect then (slot, false)
  else if slot.flag = 0 then ({ slot with flag := 1 }, true)
  else (slot, false)

def publishStep (dialect : Dialect) (slot : Slot) (thread : Publisher) : Slot × Publisher :=
  match thread.pc with
  | .exchange =>
    let (slot, exchanged) := exchange dialect slot thread
    (slot, { thread with pc := if exchanged then .storeLo else .done })
  | .storeLo => ({ slot with lo := thread.nlo }, { thread with pc := .storeHi })
  | .storeHi => ({ slot with hi := thread.nhi }, { thread with pc := .done })
  | .done => (slot, thread)

structure Race (n : Nat) where
  slot : Slot
  threads : Fin n -> Publisher

variable {n : Nat}

def Race.after (dialect : Dialect) (race : Race n) (i : Fin n) : Race n :=
  { slot := (publishStep dialect race.slot (race.threads i)).1
    threads := Function.update race.threads i
      (publishStep dialect race.slot (race.threads i)).2 }

inductive RaceStep (dialect : Dialect) : Race n -> Race n -> Prop
  | thread (race : Race n) (i : Fin n) (active : (race.threads i).pc ≠ .done) :
    RaceStep dialect race (race.after dialect i)

def Race.Complete (race : Race n) : Prop :=
  ∀ i, (race.threads i).pc = .done

def Race.Fresh (race : Race n) : Prop :=
  ∀ i, (race.threads i).pc = .exchange ∨ (race.threads i).pc = .done

def Publisher.Matched (thread : Publisher) : Prop :=
  thread.pc = .exchange

def PublishPc.potential : PublishPc -> Nat
  | .exchange => 3
  | .storeLo => 2
  | .storeHi => 1
  | .done => 0

def Race.size (race : Race n) : Nat :=
  total (fun thread => thread.pc.potential) race.threads

theorem RaceStep.decreases (dialect : Dialect) (race next : Race n)
    (step : RaceStep dialect race next) : next.size < race.size := by
  cases step with
  | thread i active =>
    have change := total_update (fun thread : Publisher => thread.pc.potential) race.threads i
      (publishStep dialect race.slot (race.threads i)).2
    have less : (publishStep dialect race.slot (race.threads i)).2.pc.potential <
        (race.threads i).pc.potential := by
      unfold publishStep
      cases pc : (race.threads i).pc with
      | exchange =>
        simp only
        split <;> simp [PublishPc.potential]
      | storeLo => simp [PublishPc.potential]
      | storeHi => simp [PublishPc.potential]
      | done => exact absurd pc active
    simp only [Race.size, Race.after]
    omega

theorem race_completes (dialect : Dialect) (race : Race n) :
    ∃ k next, Run (RaceStep dialect) k race next ∧ next.Complete := by
  have kept (s t : Race n) (_ : True) (_ : RaceStep dialect s t) : True := trivial
  have decreases (s t : Race n) (_ : True) (step : RaceStep dialect s t) : t.size < s.size :=
    step.decreases dialect s t
  obtain ⟨k, next, run, final⟩ := Transition.finishes kept decreases race trivial
  refine ⟨k, next, run, fun i => ?_⟩
  by_contra active
  exact final _ (.thread next i active)

structure Winner (dialect : Dialect) (start : Fin n -> Publisher) (race : Race n) (w : Fin n) :
    Prop where
  matched : (start w).Matched
  firm : (start w).mayFail dialect = false
  stored : (race.threads w).pc = .storeLo ∨
    (race.threads w).pc = .storeHi ∧ race.slot.lo = (start w).nlo ∨
    (race.threads w).pc = .done ∧ race.slot.lo = (start w).nlo ∧ race.slot.hi = (start w).nhi
  others : ∀ i, i ≠ w -> (race.threads i).pc = .exchange ∨ (race.threads i).pc = .done

structure RaceInv (dialect : Dialect) (start : Fin n -> Publisher) (race : Race n) : Prop where
  fixed : ∀ i, ∃ pc, race.threads i = { start i with pc := pc }
  waiting : ∀ i, (race.threads i).pc = .exchange -> (start i).Matched
  free : race.slot.flag = 0 -> race.Fresh ∧
    ∀ i, (race.threads i).pc = .done -> (start i).Matched -> (start i).mayFail dialect = true
  taken : race.slot.flag ≠ 0 -> race.slot.flag = 1 ∧ ∃ w, Winner dialect start race w

theorem RaceInv.initial (dialect : Dialect) (race : Race n) (fresh : race.Fresh)
    (reset : race.slot.flag = 0) : RaceInv dialect race.threads race where
  fixed i := ⟨(race.threads i).pc, rfl⟩
  waiting i pc := pc
  free _ := ⟨fresh, fun i finished matched => by simp_all [Publisher.Matched]⟩
  taken set := absurd reset set

inductive Publishes (dialect : Dialect) (slot : Slot) (thread : Publisher) :
    Slot -> Publisher -> Prop
  | lost (pc : thread.pc = .exchange) (why : thread.mayFail dialect = true ∨ slot.flag ≠ 0) :
    Publishes dialect slot thread slot { thread with pc := .done }
  | won (pc : thread.pc = .exchange) (firm : thread.mayFail dialect = false)
      (free : slot.flag = 0) :
    Publishes dialect slot thread { slot with flag := 1 } { thread with pc := .storeLo }
  | low (pc : thread.pc = .storeLo) :
    Publishes dialect slot thread { slot with lo := thread.nlo } { thread with pc := .storeHi }
  | high (pc : thread.pc = .storeHi) :
    Publishes dialect slot thread { slot with hi := thread.nhi } { thread with pc := .done }

theorem publishStep_correct (dialect : Dialect) (slot : Slot) (thread : Publisher)
    (active : thread.pc ≠ .done) :
    Publishes dialect slot thread (publishStep dialect slot thread).1
      (publishStep dialect slot thread).2 := by
  unfold publishStep
  cases pc : thread.pc with
  | exchange =>
    cases fail : thread.mayFail dialect with
    | true =>
      simp only [exchange, fail, if_true, Bool.false_eq_true, if_false]
      exact .lost pc (.inl fail)
    | false =>
      by_cases free : slot.flag = 0
      · simp only [exchange, fail, Bool.false_eq_true, if_false, free, if_true]
        exact .won pc fail free
      · simp only [exchange, fail, Bool.false_eq_true, if_false, free]
        exact .lost pc (.inr free)
  | storeLo => exact .low pc
  | storeHi => exact .high pc
  | done => exact absurd pc active

section
variable {dialect : Dialect} {start : Fin n -> Publisher} {race : Race n} {i : Fin n}

theorem RaceInv.storing (inv : RaceInv dialect start race)
    (storing : (race.threads i).pc = .storeLo ∨ (race.threads i).pc = .storeHi) :
    race.slot.flag = 1 ∧ Winner dialect start race i := by
  have set : race.slot.flag ≠ 0 := by
    intro free
    rcases (inv.free free).1 i with pc | pc <;> simp [pc] at storing
  obtain ⟨one, w, winner⟩ := inv.taken set
  have same : i = w := by
    by_contra other
    rcases winner.others i other with pc | pc <;> simp [pc] at storing
  subst same
  exact ⟨one, winner⟩

theorem RaceInv.fixed_after (inv : RaceInv dialect start race) {slot : Slot} {moved : Publisher}
    (move : Publishes dialect race.slot (race.threads i) slot moved) (j : Fin n) :
    ∃ pc, Function.update race.threads i moved j = { start j with pc := pc } := by
  by_cases here : j = i
  · subst here
    obtain ⟨before, same⟩ := inv.fixed j
    rw [Function.update_self]
    cases move <;> exact ⟨_, by rw [same]⟩
  · rw [Function.update_of_ne here]
    exact inv.fixed j

theorem RaceInv.waiting_after (inv : RaceInv dialect start race) {slot : Slot} {moved : Publisher}
    (move : Publishes dialect race.slot (race.threads i) slot moved) (j : Fin n)
    (waiting : (Function.update race.threads i moved j).pc = .exchange) : (start j).Matched := by
  by_cases here : j = i
  · subst here
    rw [Function.update_self] at waiting
    cases move <;> simp at waiting
  · rw [Function.update_of_ne here] at waiting
    exact inv.waiting j waiting

theorem RaceInv.free_after (inv : RaceInv dialect start race) {slot : Slot} {moved : Publisher}
    (move : Publishes dialect race.slot (race.threads i) slot moved) (free : slot.flag = 0)
    (j : Fin n) : ((Function.update race.threads i moved j).pc = .exchange ∨
      (Function.update race.threads i moved j).pc = .done) ∧
    ((Function.update race.threads i moved j).pc = .done -> (start j).Matched ->
      (start j).mayFail dialect = true) := by
  cases move with
  | lost pc why =>
    obtain ⟨fresh, failed⟩ := inv.free free
    by_cases here : j = i
    · subst here
      rw [Function.update_self]
      refine ⟨.inr rfl, fun _ _ => ?_⟩
      obtain ⟨before, same⟩ := inv.fixed j
      rw [same] at why
      rcases why with fail | set
      · cases dialect <;> exact fail
      · exact absurd free set
    · rw [Function.update_of_ne here]
      exact ⟨fresh j, failed j⟩
  | won => simp at free
  | low pc =>
    have one := (inv.storing (.inl pc)).1
    simp [one] at free
  | high pc =>
    have one := (inv.storing (.inr pc)).1
    simp [one] at free

theorem RaceInv.taken_after (inv : RaceInv dialect start race) {slot : Slot} {moved : Publisher}
    (move : Publishes dialect race.slot (race.threads i) slot moved) (set : slot.flag ≠ 0) :
    slot.flag = 1 ∧ ∃ w, Winner dialect start
      { slot := slot, threads := Function.update race.threads i moved } w := by
  obtain ⟨before, same⟩ := inv.fixed i
  cases move with
  | lost pc why =>
    obtain ⟨one, w, winner⟩ := inv.taken set
    have differ : w ≠ i := by
      rintro rfl
      rcases winner.stored with stored | ⟨stored, -⟩ | ⟨stored, -⟩ <;> simp [pc] at stored
    refine ⟨one, w, winner.matched, winner.firm, ?_, fun j other => ?_⟩
    · simpa only [Function.update_of_ne differ] using winner.stored
    · by_cases here : j = i
      · subst here
        simp
      · simpa only [Function.update_of_ne here] using winner.others j other
  | won pc firm free =>
    refine ⟨rfl, i, inv.waiting i pc, ?_, .inl (by simp), fun j other => ?_⟩
    · rw [same] at firm
      cases dialect <;> exact firm
    · simpa only [Function.update_of_ne other] using (inv.free free).1 j
  -- a thread that stores is the winner, so no other thread touches the two halves
  | low pc =>
    obtain ⟨one, winner⟩ := inv.storing (.inl pc)
    refine ⟨one, i, winner.matched, winner.firm, .inr (.inl ⟨by simp, ?_⟩), fun j other => ?_⟩
    · simp only [same]
    · simpa only [Function.update_of_ne other] using winner.others j other
  | high pc =>
    obtain ⟨one, winner⟩ := inv.storing (.inr pc)
    refine ⟨one, i, winner.matched, winner.firm, .inr (.inr ⟨by simp, ?_, ?_⟩), fun j other => ?_⟩
    · rcases winner.stored with stored | ⟨-, low⟩ | ⟨stored, -⟩
      · simp [pc] at stored
      · exact low
      · simp [pc] at stored
    · simp only [same]
    · simpa only [Function.update_of_ne other] using winner.others j other

end

theorem RaceInv.step (dialect : Dialect) (start : Fin n -> Publisher) (race next : Race n)
    (inv : RaceInv dialect start race) (step : RaceStep dialect race next) :
    RaceInv dialect start next := by
  cases step with
  | thread i active =>
    have move := publishStep_correct dialect race.slot (race.threads i) active
    exact
      { fixed := inv.fixed_after move
        waiting := inv.waiting_after move
        free := fun free => ⟨fun j => (inv.free_after move free j).1,
          fun j => (inv.free_after move free j).2⟩
        taken := inv.taken_after move }

theorem race_stale (dialect : Dialect) (race next : Race n) (fresh : race.Fresh)
    (set : race.slot.flag ≠ 0) (k : Nat) (run : Run (RaceStep dialect) k race next) :
    next.slot = race.slot := by
  have preserved (s t : Race n) (kept : s.slot = race.slot ∧ s.Fresh) (step : RaceStep dialect s t) :
      t.slot = race.slot ∧ t.Fresh := by
    obtain ⟨same, fresh⟩ := kept
    cases step with
    | thread i active =>
      have move := publishStep_correct dialect s.slot (s.threads i) active
      simp only [Race.after, Race.Fresh]
      generalize (publishStep dialect s.slot (s.threads i)).1 = slot at *
      generalize (publishStep dialect s.slot (s.threads i)).2 = moved at *
      cases move with
      | lost pc why =>
        refine ⟨same, fun j => ?_⟩
        by_cases here : j = i
        · subst here
          simp
        · simpa only [Function.update_of_ne here] using fresh j
      | won pc firm free => exact absurd free (same ▸ set)
      | low pc => rcases fresh i with other | other <;> simp [pc] at other
      | high pc => rcases fresh i with other | other <;> simp [pc] at other
  exact (run.invariant preserved ⟨rfl, fresh⟩).1

section
variable (dialect : Dialect) (race next : Race n) (fresh : race.Fresh)
  (reset : race.slot.flag = 0) (k : Nat) (run : Run (RaceStep dialect) k race next)
  (complete : next.Complete)
include fresh reset run complete

theorem race_winner (set : next.slot.flag ≠ 0) :
    ∃ w, (race.threads w).Matched ∧ next.slot.lo = (race.threads w).nlo ∧
      next.slot.hi = (race.threads w).nhi := by
  have inv := run.invariant (RaceInv.step dialect race.threads) (.initial dialect race fresh reset)
  obtain ⟨-, w, winner⟩ := inv.taken set
  rcases winner.stored with stored | ⟨stored, -⟩ | ⟨-, low, high⟩
  · simp [complete w] at stored
  · simp [complete w] at stored
  · exact ⟨w, winner.matched, low, high⟩

theorem race_flag_iff :
    next.slot.flag = 1 ↔
      ∃ i, (race.threads i).Matched ∧ (race.threads i).mayFail dialect = false := by
  have inv := run.invariant (RaceInv.step dialect race.threads) (.initial dialect race fresh reset)
  constructor
  · intro one
    obtain ⟨-, w, winner⟩ := inv.taken (by simp [one])
    exact ⟨w, winner.matched, winner.firm⟩
  · rintro ⟨i, matched, firm⟩
    by_contra lower
    have free : next.slot.flag = 0 := by
      by_contra set
      exact lower (inv.taken set).1
    have failed := (inv.free free).2 i (complete i) matched
    simp [firm] at failed

/-- A match is lost exactly when WGSL lets the exchange of every matching thread fail. -/
theorem match_kept_iff (needed : ∃ i, (race.threads i).Matched) :
    next.slot.flag = 1 ↔
      dialect ≠ .wgsl ∨ ∃ i, (race.threads i).Matched ∧ (race.threads i).spurious = false := by
  rw [race_flag_iff dialect race next fresh reset k run complete]
  cases dialect with
  | wgsl => simp [Publisher.mayFail]
  | opencl => simpa [Publisher.mayFail] using needed
  | hip => simpa [Publisher.mayFail] using needed

end

def lonelyMatch : Race 1 :=
  { slot := { lo := 0, hi := 0, flag := 0 }
    threads := fun _ => { pc := .exchange, nlo := 5, nhi := 0, spurious := true } }

theorem match_lost : ¬ ∀ (n : Nat) (race next : Race n) (k : Nat), race.Fresh ->
    race.slot.flag = 0 -> (∃ i, (race.threads i).Matched) -> Run (RaceStep .wgsl) k race next ->
    next.Complete -> next.slot.flag = 1 := by
  intro all
  have lost := all 1 lonelyMatch (lonelyMatch.after .wgsl 0) 1 (fun _ => .inl rfl) rfl ⟨0, rfl⟩
    (.tail (.refl _) (.thread _ 0 (by decide))) (by intro i; fin_cases i; rfl)
  exact absurd lost (by decide)

def twoMatches : Race 2 :=
  { slot := { lo := 0, hi := 0, flag := 0 }
    threads := fun i => { pc := .exchange, nlo := 5, nhi := 0, spurious := i = 0 } }

theorem match_kept_two : ∃ k next, Run (RaceStep .wgsl) k twoMatches next ∧ next.Complete ∧
    next.slot.flag = 1 := by
  obtain ⟨k, next, run, complete⟩ := race_completes .wgsl twoMatches
  exact ⟨k, next, run, complete, (match_kept_iff .wgsl twoMatches next (fun _ => .inl rfl) rfl k run
    complete ⟨0, rfl⟩).mpr (.inr ⟨1, rfl, rfl⟩)⟩

end ScamMiner.Gpu
