import ScamMiner.Gpu.Chunks
import ScamMiner.Sha.WriteDecimal

set_option autoImplicit false

namespace ScamMiner

open Gpu (decimalDigits)

structure Numeral (n : UInt64) (len : Nat) (digits : DigitBuffer) : Prop where
  nonempty : 1 ≤ len
  fits : len ≤ 20
  counted : len = (decimalDigits n).toNat
  ascii : ∀ byte ∈ digits.toList.take len, 48 ≤ byte ∧ byte ≤ 57
  leading : n = 0 ∨ (digits.toList.take len).head? ≠ some 48
  value : Decimal.readBack (digits.toList.take len) = n.toNat

theorem Shows.numeral {n : UInt64} {len : Nat} {digits : DigitBuffer}
    (shown : Shows digits len n.toNat) : Numeral n len digits where
  nonempty := shown.length ▸ Decimal.digits_length_pos n.toNat
  fits := shown.1
  counted := shown.length.trans (Gpu.decimalDigits_correct n).symm
  ascii := shown.2 ▸ Decimal.text_range n.toNat
  leading := by
    by_cases zero : n = 0
    · exact .inl zero
    · have positive : 0 < n.toNat := Nat.pos_of_ne_zero fun same => zero (UInt64.toNat.inj same)
      rw [shown.2]
      exact .inr (Decimal.text_leading n.toNat positive)
  value := by rw [shown.2, Decimal.readBack_text]

/-- `write_decimal` writes the numeral over any old contents, and no other nonce has that string. -/
theorem writeDecimal_numeral (n : UInt64) (out : DigitBuffer) :
    ∃ len digits, writeDecimal n out = some (len, digits) ∧ Numeral n len digits ∧
      ∀ other out' len' digits', writeDecimal other out' = some (len', digits') ->
        digits'.toList.take len' = digits.toList.take len -> other = n := by
  obtain ⟨digits, written, shown⟩ := writeDecimal_correct n out
  refine ⟨_, digits, written, shown.numeral, fun other out' len' digits' written' same => ?_⟩
  obtain ⟨digits'', again, shown'⟩ := writeDecimal_correct other out'
  obtain ⟨rfl, rfl⟩ : (Decimal.digits other.toNat).length = len' ∧ digits'' = digits' := by
    simpa [again] using written'
  rw [shown.2, shown'.2] at same
  exact UInt64.toNat.inj (Decimal.text_injective _ _ same)

def incrementTimes (digits : DigitBuffer) (nLen : Nat) : Nat -> Option (DigitBuffer × Nat)
  | 0 => some (digits, nLen)
  | count + 1 => (incrementTimes digits nLen count).bind fun (digits, nLen) =>
    incrementDigits digits nLen

theorem incrementTimes_shows {digits : DigitBuffer} {nLen n : Nat} (shown : Shows digits nLen n)
    (count : Nat) (bound : n + count < 2 ^ 64) :
    ∃ next nLen', incrementTimes digits nLen count = some (next, nLen') ∧
      Shows next nLen' (n + count) := by
  induction count with
  | zero => exact ⟨digits, nLen, rfl, shown⟩
  | succ count ih =>
    obtain ⟨before, len, counted, shows⟩ := ih (by omega)
    obtain ⟨next, len', stepped, after⟩ := incrementDigits_correct before len (n + count) bound shows
    refine ⟨next, len', ?_, after⟩
    rw [incrementTimes, counted]
    exact stepped

/-- After any number of increments the buffer shows what a full conversion would write. -/
theorem incrementTimes_writes (base : UInt64) (count : Nat)
    (fits : base.toNat + count ≤ 2 ^ 64 - 1) (out other : DigitBuffer) :
    ∃ nLen digits nLen' next whole, writeDecimal base out = some (nLen, digits) ∧
      incrementTimes digits nLen count = some (next, nLen') ∧
      writeDecimal (base + UInt64.ofNat count) other = some (nLen', whole) ∧
      next.toList.take nLen' = whole.toList.take nLen' ∧
      ∀ byte ∈ next.toList.take nLen', 48 ≤ byte ∧ byte ≤ 57 := by
  have sum : (base + UInt64.ofNat count).toNat = base.toNat + count := by
    rw [UInt64.toNat_add, UInt64.toNat_ofNat']
    omega
  obtain ⟨digits, written, start⟩ := writeDecimal_correct base out
  obtain ⟨next, nLen', counted, shown⟩ := incrementTimes_shows start count (by omega)
  obtain ⟨whole, converted, shown'⟩ := writeDecimal_correct (base + UInt64.ofNat count) other
  rw [sum] at shown'
  have length : (Decimal.digits (base + UInt64.ofNat count).toNat).length = nLen' := by
    rw [sum, shown.length]
  refine ⟨_, digits, nLen', next, whole, written, counted, length ▸ converted, ?_, ?_⟩
  · rw [shown.2, shown.length, shown'.2]
  · rw [shown.2]
    exact Decimal.text_range _

theorem incrementTimes_writes_carry :
    ∃ nLen digits nLen' next whole, writeDecimal 95 (Vector.replicate 20 0) = some (nLen, digits) ∧
      incrementTimes digits nLen 7 = some (next, nLen') ∧
      writeDecimal (95 + UInt64.ofNat 7) (Vector.replicate 20 7) = some (nLen', whole) ∧
      next.toList.take nLen' = whole.toList.take nLen' ∧
      ∀ byte ∈ next.toList.take nLen', 48 ≤ byte ∧ byte ≤ 57 :=
  incrementTimes_writes 95 7 (by decide) _ _

end ScamMiner
