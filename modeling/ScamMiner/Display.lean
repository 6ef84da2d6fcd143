import ScamMiner.Shared.Decimal

set_option autoImplicit false

namespace ScamMiner.Display

open Decimal (ascii digits text)

def comma : UInt8 := 44

def separated (length : Nat) : Nat -> List UInt8 -> List UInt8
  | _, [] => []
  | i, b :: rest =>
    if 0 < i ∧ (length - i) % 3 = 0 then comma :: b :: separated length (i + 1) rest
    else b :: separated length (i + 1) rest

def formatThousands (n : UInt64) : List UInt8 :=
  separated (text n.toNat).length 0 (text n.toNat)

def three (n : Nat) : List UInt8 :=
  [ascii (n / 100 % 10), ascii (n / 10 % 10), ascii (n % 10)]

def grouped (n : Nat) : List UInt8 :=
  if n < 1000 then text n else grouped (n / 1000) ++ comma :: three n
termination_by n

theorem text_three (n : Nat) (large : 1000 ≤ n) : text n = text (n / 1000) ++ three n := by
  have hundreds : n / 10 / 10 = n / 100 := by omega
  have thousands : n / 10 / 10 / 10 = n / 1000 := by omega
  rw [text, Decimal.digits_step n (by omega), Decimal.digits_step (n / 10) (by omega),
    Decimal.digits_step (n / 10 / 10) (by omega), thousands, hundreds]
  simp [text, three]

theorem separated_append (length i : Nat) (front back : List UInt8) :
    separated length i (front ++ back) =
      separated length i front ++ separated length (i + front.length) back := by
  induction front generalizing i with
  | nil => rfl
  | cons b rest ih =>
    have next := ih (i + 1)
    simp only [List.cons_append, separated, List.length_cons] at next ⊢
    rw [next, Nat.add_assoc i 1, Nat.add_comm 1]
    split <;> rfl

theorem separated_grow (length i : Nat) (front : List UInt8) (inside : i + front.length ≤ length) :
    separated (length + 3) i front = separated length i front := by
  induction front generalizing i with
  | nil => rfl
  | cons b rest ih =>
    rw [List.length_cons] at inside
    have next := ih (i + 1) (by omega)
    have place : (length + 3 - i) % 3 = (length - i) % 3 := by omega
    rw [separated, separated, next, place]

theorem separated_short (length i : Nat) (front : List UInt8) (short : length ≤ 3)
    (inside : i + front.length = length) : separated length i front = front := by
  induction front generalizing i with
  | nil => rfl
  | cons b rest ih =>
    rw [List.length_cons] at inside
    rw [separated, ih (i + 1) (by omega), if_neg (by omega)]

theorem separated_three (length : Nat) (n : Nat) (some_ : 0 < length) :
    separated (length + 3) length (three n) = comma :: three n := by
  have second : ¬ (length + 3 - (length + 1)) % 3 = 0 := by omega
  have third : ¬ (length + 3 - (length + 1 + 1)) % 3 = 0 := by omega
  rw [three, separated, separated, separated, separated, if_pos ⟨some_, by omega⟩,
    if_neg fun both => second both.2, if_neg fun both => third both.2]

theorem separated_grouped (n : Nat) : separated (text n).length 0 (text n) = grouped n := by
  induction n using Nat.strongRecOn with
  | ind n ih =>
    rw [grouped]
    split
    · rename_i small
      have short := (Decimal.digits_length_le n 3 (by omega)).mpr small
      rw [← Decimal.text_length] at short
      exact separated_short _ 0 _ short (Nat.zero_add _)
    · rename_i large
      have front := ih (n / 1000) (by omega)
      have some_ := List.length_pos_iff.mpr (Decimal.text_ne_nil (n / 1000))
      have length : (three n).length = 3 := rfl
      rw [text_three n (by omega), List.length_append, length, separated_append,
        separated_grow _ 0 _ (by omega), front, Nat.zero_add, separated_three _ n some_]

theorem separated_digits (length i : Nat) (front : List UInt8) (plain : comma ∉ front) :
    (separated length i front).filter (· ≠ comma) = front := by
  induction front generalizing i with
  | nil => rfl
  | cons b rest ih =>
    rw [List.mem_cons, not_or] at plain
    obtain ⟨first, others⟩ := plain
    have kept : decide (b ≠ comma) = true := by simpa using Ne.symm first
    have next := ih (i + 1) others
    rw [separated]
    split
    · simp only [List.filter_cons, ne_eq, not_true_eq_false, decide_false, Bool.false_eq_true,
        if_false]
      rw [if_pos kept, next]
    · rw [List.filter_cons, if_pos kept, next]

/-- The loop writes the groups of three, and the digits without the commas are the number. -/
theorem formatThousands_grouped (n : UInt64) : formatThousands n = grouped n.toNat ∧
    (formatThousands n).filter (· ≠ comma) = text n.toNat := by
  refine ⟨separated_grouped n.toNat, separated_digits _ 0 _ fun member => ?_⟩
  have range := (Decimal.text_range n.toNat comma member).1
  exact absurd range (by decide)

example : formatThousands 16776960 = "16,776,960".toUTF8.toList := by
  decide +kernel

end ScamMiner.Display
