import ScamMiner.Shared.Buffer
import ScamMiner.Shared.Decimal

set_option autoImplicit false

namespace ScamMiner

abbrev DigitBuffer := Vector UInt8 20

def writeDigits (n : UInt64) (i : Nat) (out : DigitBuffer) : Option (Nat × DigitBuffer) :=
  if _more : 0 < n then
    if 0 < i then
      (Buffer.store out (i - 1) (48 + (n % 10).toUInt8)).bind fun out =>
        writeDigits (n / 10) (i - 1) out
    else none
  else some (i, out)
termination_by n.toNat
decreasing_by
  have positive : 0 < n.toNat := UInt64.lt_iff_toNat_lt.mp _more
  simp only [UInt64.toNat_div, UInt64.reduceToNat]
  omega

def writeDecimal (n : UInt64) (out : DigitBuffer) : Option (Nat × DigitBuffer) :=
  if n = 0 then do
    let out ← Buffer.store out 19 48
    let out ← Buffer.copyWithin out 19 20 0
    return (1, out)
  else do
    let (i, out) ← writeDigits n 20 out
    let len := 20 - i
    let out ← Buffer.copyWithin out i 20 0
    return (len, out)

-- The carry loop of the miner at `idx`: the new digits and their number.
def carryLoop (digits : DigitBuffer) (nLen : Nat) : Nat -> Option (DigitBuffer × Nat)
  | 0 => do
    let digit ← Buffer.load digits 0
    if digit < 57 then
      return (← Buffer.store digits 0 (digit + 1), nLen)
    else
      let digits ← Buffer.store digits 0 48
      let digits ← Buffer.copyWithin digits 0 nLen 1
      let digits ← Buffer.store digits 0 49
      return (digits, nLen + 1)
  | idx + 1 => do
    let digit ← Buffer.load digits (idx + 1)
    if digit < 57 then
      return (← Buffer.store digits (idx + 1) (digit + 1), nLen)
    else
      let digits ← Buffer.store digits (idx + 1) 48
      carryLoop digits nLen idx

-- `idx` starts at `n_len - 1`, which underflows for an empty string.
def incrementDigits (digits : DigitBuffer) (nLen : Nat) : Option (DigitBuffer × Nat) :=
  if 0 < nLen then carryLoop digits nLen (nLen - 1) else none

def Shows (digits : DigitBuffer) (nLen n : Nat) : Prop :=
  nLen ≤ 20 ∧ digits.toList.take nLen = Decimal.text n

theorem Shows.length {digits : DigitBuffer} {nLen n : Nat} (shown : Shows digits nLen n) :
    nLen = (Decimal.digits n).length := by
  have lengths := congrArg List.length shown.2
  rw [List.length_take, Vector.length_toList, Decimal.text_length] at lengths
  have := shown.1
  omega

theorem Shows.sliceTo {digits : DigitBuffer} {nLen n : Nat} (shown : Shows digits nLen n) :
    Buffer.sliceTo digits nLen = some (Decimal.text n) := by
  rw [Buffer.sliceTo_inside _ _ shown.1, shown.2]

theorem ascii_digit (n : UInt64) : 48 + (n % 10).toUInt8 = Decimal.ascii (n.toNat % 10) := by
  apply UInt8.toNat.inj
  simp only [Decimal.ascii, UInt8.toNat_add, UInt8.toNat_ofNat', UInt64.toNat_toUInt8,
    UInt64.toNat_mod, UInt64.reduceToNat, UInt8.reduceToNat]
  omega

theorem writeDigits_correct (n : UInt64) (i : Nat) (out : DigitBuffer)
    (fits : (Nat.digits 10 n.toNat).length ≤ i) (inside : i ≤ 20) :
    ∃ filled, writeDigits n i out = some (i - (Nat.digits 10 n.toNat).length, filled) ∧
      filled.toList.drop (i - (Nat.digits 10 n.toNat).length) =
        ((Nat.digits 10 n.toNat).map Decimal.ascii).reverse ++ out.toList.drop i := by
  rw [writeDigits]
  by_cases zero : n.toNat = 0
  · have stop : ¬ 0 < n := by
      simp only [UInt64.lt_iff_toNat_lt, UInt64.reduceToNat]; omega
    rw [dif_neg stop]
    exact ⟨out, by simp [zero], by simp [zero]⟩
  · have more : 0 < n := by
      simp only [UInt64.lt_iff_toNat_lt, UInt64.reduceToNat]; omega
    have peeled : Nat.digits 10 n.toNat = n.toNat % 10 :: Nat.digits 10 (n / 10).toNat := by
      rw [UInt64.toNat_div]
      exact Nat.digits_eq_cons_digits_div (by omega) zero
    rw [peeled, List.length_cons] at fits ⊢
    obtain ⟨stored, done, tail⟩ := Buffer.store_drop out (i - 1) (48 + (n % 10).toUInt8) (by omega)
    obtain ⟨filled, rest, drops⟩ := writeDigits_correct (n / 10) (i - 1) stored (by omega) (by omega)
    have position : i - ((Nat.digits 10 (n / 10).toNat).length + 1) =
        i - 1 - (Nat.digits 10 (n / 10).toNat).length := by omega
    have next : i - 1 + 1 = i := by omega
    refine ⟨filled, ?_, ?_⟩
    · rw [dif_pos more, if_pos (by omega), done, Option.bind_some, rest, position]
    · rw [position, drops, tail, ascii_digit, next]
      simp
termination_by n.toNat
decreasing_by
  simp only [UInt64.toNat_div, UInt64.reduceToNat]
  omega

theorem writeDecimal_correct (n : UInt64) (out : DigitBuffer) :
    ∃ digits, writeDecimal n out = some ((Decimal.digits n.toNat).length, digits) ∧
      Shows digits (Decimal.digits n.toNat).length n.toNat := by
  by_cases zero : n = 0
  · obtain ⟨stored, done, tail⟩ := Buffer.store_drop out 19 48 (by omega)
    obtain ⟨moved, copied, front⟩ := Buffer.copyWithin_front stored 19 (by omega)
    refine ⟨moved, ?_, by simp [zero, Decimal.digits], ?_⟩
    · simp [writeDecimal, zero, done, copied, Decimal.digits]
    · rw [tail, List.drop_of_length_le (by simp)] at front
      simpa [zero, Decimal.digits, Decimal.text, Decimal.ascii] using front
  · have nonzero : n.toNat ≠ 0 := fun h => zero (UInt64.toNat.inj h)
    have same : Decimal.digits n.toNat = Nat.digits 10 n.toNat := if_neg nonzero
    have fits : (Nat.digits 10 n.toNat).length ≤ 20 := by
      rw [← same]
      exact Decimal.digits_length_u64 _ n.toNat_lt
    obtain ⟨filled, looped, drops⟩ := writeDigits_correct n 20 out fits (Nat.le_refl _)
    obtain ⟨moved, copied, front⟩ := Buffer.copyWithin_front filled
      (20 - (Nat.digits 10 n.toNat).length) (by omega)
    have count : 20 - (20 - (Nat.digits 10 n.toNat).length) = (Nat.digits 10 n.toNat).length := by
      omega
    refine ⟨moved, ?_, by rw [same]; exact fits, ?_⟩
    · simp [writeDecimal, zero, looped, copied, same, count]
    · rw [count, drops, List.drop_of_length_le (by simp)] at front
      simpa [same, Decimal.text] using front

theorem ascii_below (digit : Nat) (small : digit < 9) :
    Decimal.ascii digit < 57 ∧ Decimal.ascii digit + 1 = Decimal.ascii (digit + 1) := by
  constructor
  · rw [UInt8.lt_iff_toNat_lt]
    simp only [Decimal.ascii, UInt8.toNat_ofNat', UInt8.reduceToNat]
    omega
  · apply UInt8.toNat.inj
    simp only [Decimal.ascii, UInt8.toNat_add, UInt8.toNat_ofNat', UInt8.reduceToNat]
    omega

theorem carryLoop_correct (idx : Nat) (buffer : DigitBuffer) (nLen : Nat) (upper : List Nat)
    (rest : List UInt8) (inside : nLen ≤ 20)
    (shown : buffer.toList.take nLen = (upper.map Decimal.ascii).reverse ++ rest)
    (position : upper.length = idx + 1) (digits : ∀ digit ∈ upper, digit < 10)
    (room : (Decimal.increment upper).length + rest.length ≤ 20) :
    ∃ next nLen', carryLoop buffer nLen idx = some (next, nLen') ∧ nLen' ≤ 20 ∧
      next.toList.take nLen' = ((Decimal.increment upper).map Decimal.ascii).reverse ++ rest := by
  obtain ⟨digit, above, rfl⟩ : ∃ digit above, upper = digit :: above := by
    cases upper with
    | nil => simp at position
    | cons digit above => exact ⟨digit, above, rfl⟩
  have count : above.length = idx := by simpa using position
  have total : (buffer.toList.take nLen).length = idx + 1 + rest.length := by
    rw [shown, List.length_append, List.length_reverse, List.length_map, position]
  have view : buffer.toList.take nLen =
      (above.map Decimal.ascii).reverse ++ Decimal.ascii digit :: rest := by
    rw [shown]
    simp
  obtain ⟨loaded, stored⟩ := Buffer.access_split buffer nLen _ rest _ inside view
  rw [List.length_reverse, List.length_map, count] at loaded stored
  by_cases carry : digit < 9
  · obtain ⟨below, bumped⟩ := ascii_below digit carry
    obtain ⟨next, done, taken⟩ := stored (Decimal.ascii (digit + 1))
    refine ⟨next, nLen, ?_, inside, ?_⟩
    · cases idx <;> simp [carryLoop, loaded, below, bumped, done]
    · rw [taken, Decimal.increment, if_pos carry]
      simp
  · have small := digits digit (by simp)
    obtain rfl : digit = 9 := by omega
    obtain ⟨next, done, taken⟩ := stored (Decimal.ascii 0)
    have zero : (48 : UInt8) = Decimal.ascii 0 := rfl
    have notBelow : ¬ Decimal.ascii 9 < 57 := by decide
    cases idx with
    | zero =>
      -- all digits were nines: the string moves right and grows
      obtain rfl : above = [] := List.length_eq_zero_iff.mp count
      simp only [Decimal.increment, show ¬ 9 < 9 by omega, if_false, List.length_cons,
        List.length_nil] at room
      have grown : nLen + 1 ≤ 20 := by
        rw [List.length_take, Vector.length_toList] at total
        omega
      obtain ⟨moved, last, copied, wrote, final⟩ := Buffer.push_front next nLen 49 grown
      refine ⟨last, nLen + 1, ?_, grown, ?_⟩
      · simp [carryLoop, loaded, notBelow, zero, done, copied, wrote]
      · rw [final, taken]
        simp [Decimal.increment, Decimal.ascii]
    | succ idx =>
      have grown : (Decimal.increment above).length + (Decimal.ascii 0 :: rest).length ≤ 20 := by
        simp only [Decimal.increment, show ¬ 9 < 9 by omega, if_false, List.length_cons] at room ⊢
        omega
      obtain ⟨last, nLen', looped, within, final⟩ := carryLoop_correct idx next nLen above
        (Decimal.ascii 0 :: rest) inside taken count
        (fun digit member => digits digit (List.mem_cons_of_mem _ member)) grown
      refine ⟨last, nLen', ?_, within, ?_⟩
      · simp [carryLoop, loaded, notBelow, zero, done, looped]
      · rw [final, Decimal.increment, if_neg (by omega)]
        simp

theorem incrementDigits_correct (digits : DigitBuffer) (nLen n : Nat) (bound : n + 1 < 2 ^ 64)
    (shown : Shows digits nLen n) :
    ∃ next nLen', incrementDigits digits nLen = some (next, nLen') ∧ Shows next nLen' (n + 1) := by
  have count := shown.length
  have positive := Decimal.digits_length_pos n
  obtain ⟨next, nLen', looped, within, taken⟩ := carryLoop_correct (nLen - 1) digits nLen
    (Decimal.digits n) [] shown.1 (by rw [shown.2, List.append_nil]; rfl) (by omega)
    (Decimal.digits_lt n) (by
      rw [← Decimal.digits_succ]
      exact Decimal.digits_length_u64 _ bound)
  refine ⟨next, nLen', ?_, within, ?_⟩
  · rw [incrementDigits, if_pos (by omega), looped]
  · rw [taken, List.append_nil, Decimal.text, Decimal.digits_succ]

end ScamMiner
