import Mathlib.Tactic.Abel
import ScamMiner.Shared.Transition

set_option autoImplicit false

namespace Transition

structure Cell (σ G : Type) where
  get : σ -> G
  set : G -> σ -> σ
  get_set : ∀ g s, get (set g s) = g
  set_get : ∀ s, set (get s) s = s
  set_set : ∀ g h s, set g (set h s) = set g s

/-- A step adds the same whatever the cell holds, and depends on it in no other way. -/
def Cell.Oblivious {σ G : Type} [Add G] (cell : Cell σ G) (step : σ -> σ -> Prop) : Prop :=
  ∀ s t d, step s t -> step (cell.set (cell.get s + d) s) (cell.set (cell.get t + d) t)

theorem Cell.shift_inj {σ G : Type} [AddGroup G] (cell : Cell σ G) {s t : σ} (d : G)
    (same : cell.set (cell.get s + d) s = cell.set (cell.get t + d) t) : s = t := by
  have amounts := congrArg cell.get same
  rw [cell.get_set, cell.get_set] at amounts
  have back := congrArg (cell.set (cell.get s)) same
  rwa [cell.set_set, cell.set_set, cell.set_get, add_right_cancel amounts, cell.set_get] at back

section
variable {ι G : Type} {σ : ι -> Type}

/-- What the cell holds, and the systems; the cells in their own states are out of date. -/
structure Together (σ : ι -> Type) (G : Type) where
  amount : G
  parts : ∀ i, σ i

-- The system whose turn it is finds in its cell what the last one has left there.
inductive Together.Step [DecidableEq ι] (cells : ∀ i, Cell (σ i) G)
    (steps : ∀ i, σ i -> σ i -> Prop) : Together σ G -> Together σ G -> Prop
  | turn (s : Together σ G) (i : ι) (t : σ i)
      (moves : steps i ((cells i).set s.amount (s.parts i)) t) :
    Step cells steps s ⟨(cells i).get t, Function.update s.parts i t⟩

/-- Each of the systems has run alone from `s` to `t`, where it has added its share. -/
structure Together.Apart [Fintype ι] [AddCommGroup G] (cells : ∀ i, Cell (σ i) G)
    (steps : ∀ i, σ i -> σ i -> Prop) (s t : Together σ G) (added : ι -> G) : Prop where
  amount : t.amount = s.amount + ∑ i, added i
  alone : ∀ i, ∃ k, Run (steps i) k ((cells i).set s.amount (s.parts i))
    ((cells i).set (s.amount + added i) (t.parts i))

variable [DecidableEq ι] [Fintype ι] [AddCommGroup G] {cells : ∀ i, Cell (σ i) G}
  {steps : ∀ i, σ i -> σ i -> Prop} {s t u : Together σ G} {added : ι -> G}

theorem sum_more (added : ι -> G) (i : ι) (more : G) :
    ∑ j, Function.update added i (added i + more) j = ∑ j, added j + more := by
  rw [Finset.sum_update_of_mem (Finset.mem_univ i),
    Finset.sum_eq_add_sum_sdiff_singleton_of_mem (Finset.mem_univ i) added]
  abel

theorem Together.Apart.step (oblivious : ∀ i, (cells i).Oblivious (steps i))
    (apart : Together.Apart cells steps s t added) (last : Together.Step cells steps t u) :
    ∃ added', Together.Apart cells steps s u added' := by
  obtain ⟨i, next, moves⟩ := last
  let more := (cells i).get next - t.amount
  refine ⟨Function.update added i (added i + more), ?_, fun j => ?_⟩
  · rw [sum_more, ← add_assoc, ← apart.amount]
    exact (add_sub_cancel t.amount _).symm
  · by_cases same : j = i
    · subst same
      obtain ⟨k, run⟩ := apart.alone j
      have own := oblivious j _ _ (s.amount + added j - t.amount) moves
      rw [(cells j).get_set, (cells j).set_set, add_sub_cancel] at own
      have moved : (cells j).get next + (s.amount + added j - t.amount) =
          s.amount + (added j + more) := by
        simp only [more]
        abel
      rw [moved] at own
      refine ⟨k + 1, ?_⟩
      simp only [Function.update_self]
      exact .tail run own
    · simp only [Function.update_of_ne same]
      exact apart.alone j

/-- Nothing that one of the systems adds is lost, and none of them notices the others. -/
theorem Together.apart (oblivious : ∀ i, (cells i).Oblivious (steps i)) {k : Nat}
    (run : Run (Together.Step cells steps) k s t) :
    ∃ added, Together.Apart cells steps s t added := by
  induction run with
  | refl s => exact ⟨fun _ => 0, by simp, fun i => ⟨0, by rw [add_zero]; exact .refl _⟩⟩
  | tail _ last ih =>
    obtain ⟨added, apart⟩ := ih
    exact apart.step oblivious last

omit [Fintype ι] [AddCommGroup G] in
theorem Together.solo {i : ι} {k : Nat} {x : σ i}
    (run : Run (steps i) k ((cells i).set s.amount (s.parts i)) x) :
    ∃ u, Run (Together.Step cells steps) k s u ∧ (cells i).set u.amount (u.parts i) = x ∧
      ∀ j, j ≠ i -> u.parts j = s.parts j := by
  generalize first : (cells i).set s.amount (s.parts i) = start at run
  induction run with
  | refl start => exact ⟨s, .refl s, first, fun _ _ => rfl⟩
  | @tail k start y z _ last ih =>
    obtain ⟨u, run, here, others⟩ := ih first
    refine ⟨_, .tail run (.turn u i z (here ▸ last)), ?_, fun j other => ?_⟩
    · simp only [Function.update_self]
      exact (cells i).set_get z
    · simp only [Function.update_of_ne other]
      exact others j other

omit [AddCommGroup G] in
/-- Where each of the systems can get alone, all of them can get together. -/
theorem Together.reaches {goal : ∀ i, σ i -> Prop}
    (kept : ∀ i g x, goal i ((cells i).set g x) ↔ goal i x)
    (alone : ∀ i g, ∃ k x, Run (steps i) k ((cells i).set g (s.parts i)) x ∧ goal i x) :
    ∃ k u, Run (Together.Step cells steps) k s u ∧ ∀ i, goal i (u.parts i) := by
  have some_ (ready : Finset ι) : ∃ k u, Run (Together.Step cells steps) k s u ∧
      (∀ i ∈ ready, goal i (u.parts i)) ∧ ∀ i, i ∉ ready -> u.parts i = s.parts i := by
    induction ready using Finset.induction_on with
    | empty => exact ⟨0, s, .refl s, by simp, fun _ _ => rfl⟩
    | insert i ready fresh ih =>
      obtain ⟨k, u, run, done, waiting⟩ := ih
      obtain ⟨l, x, own, there⟩ := alone i u.amount
      rw [← waiting i fresh] at own
      obtain ⟨v, more, here, others⟩ := Together.solo own
      refine ⟨_, v, run.append more, fun j member => ?_, fun j missing => ?_⟩
      · by_cases same : j = i
        · subst same
          exact (kept j v.amount _).mp (here ▸ there)
        · rw [others j same]
          exact done j (Finset.mem_of_mem_insert_of_ne member same)
      · rw [Finset.mem_insert, not_or] at missing
        rw [others j missing.1, waiting j missing.2]
  obtain ⟨k, u, run, done, -⟩ := some_ Finset.univ
  exact ⟨k, u, run, fun i => done i (Finset.mem_univ i)⟩

end

end Transition
