import Mathlib.Data.List.GetD
import Mathlib.Data.Nat.Digits.Lemmas
import Mathlib.Tactic

set_option autoImplicit false

namespace Decimal

def ascii (digit : Nat) : UInt8 :=
  UInt8.ofNat (48 + digit)

-- The least significant digit comes first, and zero has one digit.
def digits (n : Nat) : List Nat :=
  if n = 0 then [0] else Nat.digits 10 n

def text (n : Nat) : List UInt8 :=
  ((digits n).map ascii).reverse

def increment : List Nat -> List Nat
  | [] => [1]
  | digit :: rest => if digit < 9 then (digit + 1) :: rest else 0 :: increment rest

def readBack (bytes : List UInt8) : Nat :=
  bytes.foldl (fun n byte => 10 * n + (byte.toNat - 48)) 0

theorem digits_small (n : Nat) (small : n < 10) : digits n = [n] := by
  by_cases zero : n = 0
  · simp [digits, zero]
  · rw [digits, if_neg zero, Nat.digits_of_lt 10 n zero small]

theorem digits_step (n : Nat) (large : 10 ≤ n) : digits n = n % 10 :: digits (n / 10) := by
  rw [digits, if_neg (by omega), Nat.digits_eq_cons_digits_div (by omega) (by omega), digits,
    if_neg (by omega)]

theorem digits_lt (n digit : Nat) (member : digit ∈ digits n) : digit < 10 := by
  by_cases zero : n = 0
  · simp_all [digits]
  · rw [digits, if_neg zero] at member
    exact Nat.digits_lt_base (by omega) member

theorem digits_length_pos (n : Nat) : 0 < (digits n).length := by
  by_cases zero : n = 0
  · simp [digits, zero]
  · rw [digits, if_neg zero]
    exact List.length_pos_iff.mpr (Nat.digits_ne_nil_iff_ne_zero.mpr zero)

theorem digits_length_le (n k : Nat) (some_digit : 0 < k) :
    (digits n).length ≤ k ↔ n < 10 ^ k := by
  by_cases zero : n = 0
  · have positive : 0 < 10 ^ k := by positivity
    simp only [digits, zero, if_true, List.length_singleton]
    omega
  · rw [digits, if_neg zero, Nat.digits_length_le_iff (by omega)]

theorem digits_length_u64 (n : Nat) (bound : n < 2 ^ 64) : (digits n).length ≤ 20 :=
  (digits_length_le n 20 (by omega)).mpr (by omega)

theorem digits_getD (n i : Nat) : (digits n).getD i 0 = n / 10 ^ i % 10 := by
  by_cases zero : n = 0
  · cases i <;> simp [digits, zero]
  · rw [digits, if_neg zero, Nat.getD_digits n i (by omega)]

theorem digits_value (n : Nat) : Nat.ofDigits 10 (digits n) = n := by
  by_cases zero : n = 0
  · simp [digits, zero]
  · rw [digits, if_neg zero, Nat.ofDigits_digits]

theorem digits_succ (n : Nat) : digits (n + 1) = increment (digits n) := by
  induction n using Nat.strongRecOn with
  | ind n ih =>
    by_cases small : n < 10
    · by_cases nine : n = 9
      · subst nine
        rfl
      · rw [digits_small n small, digits_small (n + 1) (by omega), increment, if_pos (by omega)]
    · rw [digits_step n (by omega), digits_step (n + 1) (by omega), increment]
      by_cases carry : n % 10 < 9
      · rw [if_pos carry]
        congr 1
        · omega
        · congr 1
          omega
      · have next : (n + 1) / 10 = n / 10 + 1 := by omega
        rw [if_neg carry, next, ih (n / 10) (by omega)]
        congr 1
        omega

@[simp]
theorem text_length (n : Nat) : (text n).length = (digits n).length := by
  simp [text]

theorem text_ne_nil (n : Nat) : text n ≠ [] := by
  rw [← List.length_pos_iff, text_length]
  exact digits_length_pos n

theorem ascii_toNat (digit : Nat) (small : digit < 10) : (ascii digit).toNat = 48 + digit := by
  rw [ascii, UInt8.toNat_ofNat']
  exact Nat.mod_eq_of_lt (by omega)

theorem text_range (n : Nat) (byte : UInt8) (member : byte ∈ text n) : 48 ≤ byte ∧ byte ≤ 57 := by
  obtain ⟨digit, inDigits, rfl⟩ := List.mem_map.mp (List.mem_reverse.mp member)
  have small := digits_lt n digit inDigits
  rw [UInt8.le_iff_toNat_le, UInt8.le_iff_toNat_le, ascii_toNat digit small]
  simp only [UInt8.reduceToNat]
  omega

theorem readBack_digits (list : List Nat) (small : ∀ digit ∈ list, digit < 10) :
    readBack (list.map ascii).reverse = Nat.ofDigits 10 list := by
  rw [readBack, List.foldl_reverse]
  induction list with
  | nil => rfl
  | cons digit rest ih =>
    rw [List.map_cons, List.foldr_cons, ih fun d member => small d (List.mem_cons_of_mem _ member),
      ascii_toNat digit (small digit (by simp)), Nat.ofDigits_cons]
    omega

theorem readBack_text (n : Nat) : readBack (text n) = n := by
  rw [text, readBack_digits _ (digits_lt n), digits_value]

theorem text_injective (left right : Nat) (same : text left = text right) : left = right := by
  rw [← readBack_text left, same, readBack_text]

theorem text_getD (n i : Nat) (bound : i < (digits n).length) :
    (text n).getD i 0 = ascii (n / 10 ^ ((digits n).length - 1 - i) % 10) := by
  rw [← digits_getD, List.getD_eq_getElem _ _ (by rw [text_length]; exact bound),
    List.getD_eq_getElem _ _ (by omega)]
  simp [text, List.getElem_reverse]

theorem text_leading (n : Nat) (positive : 0 < n) : (text n).head? ≠ some 48 := by
  have count := digits_length_pos n
  have below := (digits_length_le n _ count).mp (Nat.le_refl _)
  have first := text_getD n 0 count
  let top := n / 10 ^ ((digits n).length - 1)
  have least : 10 ^ ((digits n).length - 1) ≤ n := by
    by_cases single : (digits n).length = 1
    · rw [single]
      exact positive
    · by_contra small
      have short := (digits_length_le n ((digits n).length - 1) (by omega)).mpr (by omega)
      omega
  have nonzero : 0 < top := Nat.div_pos least (by positivity)
  have single : top < 10 := by
    refine Nat.div_lt_of_lt_mul ?_
    rwa [← pow_succ, Nat.sub_add_cancel count]
  intro zero
  obtain ⟨rest, split⟩ : ∃ rest, text n = 48 :: rest := by
    cases shown : text n with
    | nil => simp [shown] at zero
    | cons byte rest =>
      rw [shown, List.head?_cons, Option.some.injEq] at zero
      exact ⟨rest, by rw [zero]⟩
  rw [split, List.getD_cons_zero, Nat.sub_zero, Nat.mod_eq_of_lt single] at first
  have bytes := congrArg UInt8.toNat first
  rw [ascii_toNat top single] at bytes
  simp only [UInt8.reduceToNat] at bytes
  omega

end Decimal
