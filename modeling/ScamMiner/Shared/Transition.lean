import Mathlib.Algebra.BigOperators.Fin
import Mathlib.Algebra.Order.BigOperators.Group.Finset
import Mathlib.Tactic.Common

set_option autoImplicit false

namespace Transition

variable {S : Type}

/-- `Run step n s t`: `n` steps lead from `s` to `t`. -/
inductive Run (step : S -> S -> Prop) : Nat -> S -> S -> Prop
  | refl (s : S) : Run step 0 s s
  | tail {n : Nat} {s t u : S} (run : Run step n s t) (last : step t u) : Run step (n + 1) s u

def Final (step : S -> S -> Prop) (s : S) : Prop :=
  ∀ t, ¬ step s t

variable {step : S -> S -> Prop} {inv : S -> Prop} {size : S -> Nat}

theorem Run.append {m n : Nat} {s t u : S} (left : Run step m s t) (right : Run step n t u) :
    Run step (m + n) s u := by
  induction right with
  | refl => exact left
  | tail _ last ih => exact .tail (ih left) last

theorem Run.head {n : Nat} {s t u : S} (first : step s t) (run : Run step n t u) :
    Run step (1 + n) s u :=
  (Run.tail (.refl s) first).append run

theorem Run.mono {weaker : S -> S -> Prop} (implies : ∀ s t, step s t -> weaker s t) {n : Nat}
    {s t : S} (run : Run step n s t) : Run weaker n s t := by
  induction run with
  | refl => exact .refl _
  | tail _ last ih => exact .tail ih (implies _ _ last)

theorem Run.invariant (preserved : ∀ s t, inv s -> step s t -> inv t) {n : Nat} {s t : S}
    (run : Run step n s t) (initial : inv s) : inv t := by
  induction run with
  | refl => exact initial
  | tail _ last ih => exact preserved _ _ (ih initial) last

theorem Run.bounded (preserved : ∀ s t, inv s -> step s t -> inv t)
    (decreases : ∀ s t, inv s -> step s t -> size t < size s) {n : Nat} {s t : S}
    (run : Run step n s t) (initial : inv s) : n + size t ≤ size s := by
  induction run with
  | refl => omega
  | @tail n s t u before last ih =>
    have kept := before.invariant preserved initial
    have less := decreases t u kept last
    have bound := ih initial
    omega

theorem finishes (preserved : ∀ s t, inv s -> step s t -> inv t)
    (decreases : ∀ s t, inv s -> step s t -> size t < size s) (s : S) (initial : inv s) :
    ∃ n t, Run step n s t ∧ Final step t := by
  by_cases final : Final step s
  · exact ⟨0, s, .refl s, final⟩
  · obtain ⟨t, first⟩ := not_forall_not.mp final
    have less := decreases s t initial first
    obtain ⟨n, u, rest, ends⟩ := finishes preserved decreases t (preserved s t initial first)
    exact ⟨1 + n, u, (Run.tail (.refl s) first).append rest, ends⟩
termination_by size s

theorem finishes_of_bounded {s : S} {bound : Nat} (bounded : ∀ n t, Run step n s t -> n ≤ bound) :
    ∃ n t, Run step n s t ∧ Final step t := by
  by_contra endless
  have longer (n : Nat) : ∃ t, Run step n s t := by
    induction n with
    | zero => exact ⟨s, .refl s⟩
    | succ n ih =>
      obtain ⟨t, run⟩ := ih
      obtain ⟨u, last⟩ : ∃ u, step t u := by
        by_contra stuck
        exact endless ⟨n, t, run, fun u last => stuck ⟨u, last⟩⟩
      exact ⟨u, .tail run last⟩
  obtain ⟨t, run⟩ := longer (bound + 1)
  have within := bounded _ t run
  omega

def Terminates (step : S -> S -> Prop) (s : S) : Prop :=
  Acc (fun t s => step s t) s

theorem terminates_of_measure {M : Type} {below : M -> M -> Prop} (founded : WellFounded below)
    (measure : S -> M) (preserved : ∀ s t, inv s -> step s t -> inv t)
    (decreases : ∀ s t, inv s -> step s t -> below (measure t) (measure s)) (s : S)
    (initial : inv s) : Terminates step s := by
  generalize value : measure s = bound
  induction bound using founded.induction generalizing s with
  | _ bound ih =>
    refine .intro s fun t first => ?_
    exact ih (measure t) (value ▸ decreases s t initial first) t (preserved s t initial first) rfl

theorem Terminates.no_endless {s : S} (terminates : Terminates step s) :
    ¬ ∃ states : Nat -> S, states 0 = s ∧ ∀ k, step (states k) (states (k + 1)) := by
  induction terminates with
  | intro s _ ih =>
    rintro ⟨states, rfl, steps⟩
    exact ih (states 1) (steps 0) ⟨fun k => states (k + 1), rfl, fun k => steps (k + 1)⟩

section
variable {W : Type} {n : Nat}

def total (weight : W -> Nat) (threads : Fin n -> W) : Nat :=
  ∑ i, weight (threads i)

theorem total_update (weight : W -> Nat) (threads : Fin n -> W) (i : Fin n) (moved : W) :
    total weight (Function.update threads i moved) + weight (threads i) =
      total weight threads + weight moved := by
  have shares : (fun j => weight (Function.update threads i moved j)) =
      Function.update (fun j => weight (threads j)) i (weight moved) :=
    Function.comp_update weight threads i moved
  have split := Finset.sum_erase_add Finset.univ (fun j => weight (threads j)) (Finset.mem_univ i)
  rw [total, total, shares, Finset.sum_update_of_mem (Finset.mem_univ i), ← split,
    Finset.sdiff_singleton_eq_erase]
  omega

/-- A wrapping counter that nobody owes anything agrees with what it counts. -/
theorem counter_settled (counter initial : UInt64) (counted : Nat)
    (agree : counter.toNat % 2 ^ 64 = (initial.toNat + counted) % 2 ^ 64) :
    counter = initial + UInt64.ofNat counted := by
  apply UInt64.toNat.inj
  have bound := counter.toNat_lt
  rw [UInt64.toNat_add, UInt64.toNat_ofNat']
  omega

theorem total_const (weight : W -> Nat) (threads : Fin n -> W) (share : Nat)
    (same : ∀ i, weight (threads i) = share) : total weight threads = n * share := by
  simp [total, same]

theorem total_lt (weight : W -> Nat) (threads : Fin n -> W) (limit : Nat)
    (within : ∀ j, weight (threads j) ≤ limit) (i : Fin n) (less : weight (threads i) < limit) :
    total weight threads < n * limit := by
  have strict := Finset.sum_lt_sum (s := Finset.univ) (fun j _ => within j)
    ⟨i, Finset.mem_univ i, less⟩
  simpa [total] using strict

theorem total_mono (light heavy : W -> Nat) (threads : Fin n -> W)
    (less : ∀ i, light (threads i) ≤ heavy (threads i)) : total light threads ≤ total heavy threads :=
  Finset.sum_le_sum fun i _ => less i

theorem total_le (weight : W -> Nat) (threads : Fin n -> W) (limit : Nat)
    (within : ∀ j, weight (threads j) ≤ limit) : total weight threads ≤ n * limit := by
  have bound := Finset.sum_le_sum (s := Finset.univ) (fun j _ => within j)
  simpa [total] using bound

end

end Transition
