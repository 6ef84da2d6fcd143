import Mathlib.Data.Nat.Size
import Mathlib.Tactic

set_option autoImplicit false

namespace Positional

/-- The value of a digit list in base `base`, most significant digit first. -/
def value (base : Nat) : List Nat -> Nat
  | [] => 0
  | digit :: rest => digit * base ^ rest.length + value base rest

theorem value_lt (base : Nat) (digits : List Nat) (small : ∀ digit ∈ digits, digit < base) :
    value base digits < base ^ digits.length := by
  induction digits with
  | nil => simp [value]
  | cons digit rest ih =>
    have tail := ih fun d member => small d (List.mem_cons_of_mem _ member)
    have head : digit + 1 ≤ base := small digit (by simp)
    calc value base (digit :: rest)
        < digit * base ^ rest.length + base ^ rest.length := Nat.add_lt_add_left tail _
      _ = (digit + 1) * base ^ rest.length := by ring
      _ ≤ base * base ^ rest.length := Nat.mul_le_mul_right _ head
      _ = base ^ (digit :: rest).length := by rw [List.length_cons, pow_succ']

theorem value_append (base : Nat) (left right : List Nat) :
    value base (left ++ right) = value base left * base ^ right.length + value base right := by
  induction left with
  | nil => simp [value]
  | cons digit rest ih =>
    rw [List.cons_append, value, ih, value, List.length_append, pow_add]
    ring

theorem flatMap_length (count : Nat) (expand : Nat -> List Nat) (digits : List Nat)
    (size : ∀ digit ∈ digits, (expand digit).length = count) :
    (digits.flatMap expand).length = count * digits.length := by
  rw [List.length_flatMap, List.map_congr_left (g := fun _ => count) size]
  simp [Nat.mul_comm]

theorem value_flatMap (base count : Nat) (expand : Nat -> List Nat) (digits : List Nat)
    (size : ∀ digit ∈ digits, (expand digit).length = count)
    (same : ∀ digit ∈ digits, value base (expand digit) = digit) :
    value base (digits.flatMap expand) = value (base ^ count) digits := by
  induction digits with
  | nil => rfl
  | cons digit rest ih =>
    have restSize := fun d member => size d (List.mem_cons_of_mem _ member)
    have restSame := fun d member => same d (List.mem_cons_of_mem _ member)
    rw [List.flatMap_cons, value_append, same digit (by simp), ih restSize restSame, value,
      flatMap_length count expand rest restSize, pow_mul]

theorem zeros_prefix_iff (base count : Nat) (digits : List Nat) (positive : 0 < base)
    (small : ∀ digit ∈ digits, digit < base) (within : count ≤ digits.length) :
    List.replicate count 0 <+: digits ↔ value base digits < base ^ (digits.length - count) := by
  induction digits generalizing count with
  | nil =>
    have none_left : count = 0 := by simpa using within
    simp [none_left, value]
  | cons digit rest ih =>
    have restSmall := fun d member => small d (List.mem_cons_of_mem _ member)
    cases count with
    | zero =>
      simp only [List.replicate_zero, List.nil_prefix, Nat.sub_zero, true_iff]
      exact value_lt base _ small
    | succ count =>
      have bound : count ≤ rest.length := by simpa using within
      rw [List.replicate_succ, List.cons_prefix_cons, ih count restSmall bound, value,
        List.length_cons, Nat.add_sub_add_right]
      by_cases zero : digit = 0
      · simp [zero]
      · have large : base ^ (rest.length - count) ≤ digit * base ^ rest.length := by
          calc base ^ (rest.length - count)
              ≤ base ^ rest.length := Nat.pow_le_pow_right positive (Nat.sub_le _ _)
            _ ≤ digit * base ^ rest.length := Nat.le_mul_of_pos_left _ (Nat.pos_of_ne_zero zero)
        constructor
        · intro both
          exact absurd both.1.symm zero
        · intro below
          omega

theorem replicate_map_prefix {α β : Type} (f : α -> β) (zero : α) (items : List α) (count : Nat)
    (only : ∀ item ∈ items, f item = f zero ↔ item = zero) :
    List.replicate count (f zero) <+: items.map f ↔ List.replicate count zero <+: items := by
  induction items generalizing count with
  | nil => cases count <;> simp [List.replicate_succ]
  | cons item rest ih =>
    cases count with
    | zero => simp
    | succ count =>
      have head := only item (by simp)
      rw [List.replicate_succ, List.replicate_succ, List.map_cons, List.cons_prefix_cons,
        List.cons_prefix_cons, ih count fun i member => only i (List.mem_cons_of_mem _ member),
        eq_comm, head, eq_comm]

def leadingBits (width : Nat) : List Nat -> Nat
  | [] => 0
  | digit :: rest => if digit = 0 then width + leadingBits width rest else width - digit.size

theorem leadingBits_le (width : Nat) (digits : List Nat) :
    leadingBits width digits ≤ width * digits.length := by
  induction digits with
  | nil => exact Nat.le_refl _
  | cons digit rest ih =>
    rw [leadingBits, List.length_cons, Nat.mul_succ]
    split_ifs
    · omega
    · omega

theorem le_leadingBits_head (width count digit : Nat) (rest : List Nat) (within : count ≤ width) :
    count ≤ leadingBits width (digit :: rest) ↔ count ≤ width - digit.size := by
  rw [leadingBits]
  by_cases zero : digit = 0
  · simp only [zero, if_true, Nat.size_zero]
    omega
  · rw [if_neg zero]

theorem le_leadingBits_tail (width count digit : Nat) (rest : List Nat) (beyond : width < count) :
    count ≤ leadingBits width (digit :: rest) ↔
      digit = 0 ∧ count - width ≤ leadingBits width rest := by
  rw [leadingBits]
  by_cases zero : digit = 0
  · simp only [zero, if_true, true_and]
    omega
  · simp only [zero, if_false, false_and, iff_false]
    omega

theorem lt_scaled_iff (digit lower high low : Nat) (small : lower < 2 ^ low) :
    digit * 2 ^ low + lower < 2 ^ (high + low) ↔ digit < 2 ^ high := by
  rw [pow_add]
  constructor
  · intro below
    by_contra large
    have scaled := Nat.mul_le_mul_right (2 ^ low) (Nat.not_lt.mp large)
    omega
  · intro below
    have scaled := Nat.mul_le_mul_right (2 ^ low) (Nat.succ_le_of_lt below)
    rw [Nat.succ_mul] at scaled
    omega

theorem le_leadingBits_iff (width count : Nat) (digits : List Nat)
    (small : ∀ digit ∈ digits, digit < 2 ^ width) (within : count ≤ width * digits.length) :
    count ≤ leadingBits width digits ↔
      value (2 ^ width) digits < 2 ^ (width * digits.length - count) := by
  induction digits generalizing count with
  | nil =>
    have none_left : count = 0 := by simpa using within
    simp [none_left, value, leadingBits]
  | cons digit rest ih =>
    have restSmall := fun d member => small d (List.mem_cons_of_mem _ member)
    have tail := value_lt (2 ^ width) rest restSmall
    rw [← pow_mul] at tail
    rw [List.length_cons, Nat.mul_succ] at within ⊢
    rw [leadingBits, value, ← pow_mul]
    by_cases zero : digit = 0
    -- a zero digit gives all its bits and leaves the rest of the count to the tail
    · rw [if_pos zero, zero, Nat.zero_mul, Nat.zero_add]
      by_cases first : count ≤ width
      · have wide : 2 ^ (width * rest.length) ≤ 2 ^ (width * rest.length + width - count) :=
          Nat.pow_le_pow_right (by omega) (by omega)
        constructor
        · intro _
          omega
        · intro _
          omega
      · have split : width * rest.length + width - count = width * rest.length - (count - width) := by
          omega
        rw [split, ← ih (count - width) restSmall (by omega)]
        omega
    -- any other digit ends the count inside itself
    · have positive : 0 < digit.size := Nat.size_pos.mpr (Nat.pos_of_ne_zero zero)
      have sized : digit.size ≤ width := Nat.size_le.mpr (small digit (by simp))
      rw [if_neg zero]
      by_cases first : count ≤ width
      · have split : width * rest.length + width - count =
            (width - count) + width * rest.length := by omega
        rw [split, lt_scaled_iff _ _ _ _ tail, ← Nat.size_le]
        omega
      · have narrow : 2 ^ (width * rest.length + width - count) ≤ 2 ^ (width * rest.length) :=
          Nat.pow_le_pow_right (by omega) (by omega)
        have large := Nat.le_mul_of_pos_left (2 ^ (width * rest.length)) (Nat.pos_of_ne_zero zero)
        constructor
        · intro _
          omega
        · intro below
          omega

end Positional
