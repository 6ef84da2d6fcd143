import ScamMiner.Sha.Digest
import ScamMiner.Task

set_option autoImplicit false

namespace ScamMiner

open Fips180 (State)

def leadingZeros (w : UInt32) : UInt32 :=
  UInt32.ofBitVec w.toBitVec.clz

-- `difficulty * 4` wraps in a release build.
def checkStateDifficulty (state : State) (difficulty : UInt32) : Bool :=
  let reqBits := difficulty * 4
  if reqBits ≤ 32 then
    leadingZeros state[0]! ≥ reqBits
  else if reqBits ≤ 64 then
    state[0]! == 0 && leadingZeros state[1]! ≥ reqBits - 32
  else if reqBits ≤ 96 then
    state[0]! == 0 && state[1]! == 0 && leadingZeros state[2]! ≥ reqBits - 64
  else
    state[0]! == 0 && state[1]! == 0 && state[2]! == 0 && leadingZeros state[3]! ≥ reqBits - 96

theorem leadingZeros_toNat (w : UInt32) : (leadingZeros w).toNat = 32 - w.toNat.size := by
  have upper := BitVec.toNat_lt_two_pow_sub_clz (x := w.toBitVec)
  change w.toNat < 2 ^ (32 - (leadingZeros w).toNat) at upper
  have atMost := Nat.size_le.mpr upper
  by_cases zero : w = 0
  · subst zero
    decide
  · have lower := BitVec.two_pow_sub_clz_le_toNat_of_ne_zero (x := w.toBitVec) (by omega)
      (fun same => zero (UInt32.toBitVec_inj.mp same))
    change 2 ^ (32 - 1 - (leadingZeros w).toNat) ≤ w.toNat at lower
    have atLeast := Nat.lt_size.mpr lower
    omega

def stateWords (state : State) : List Nat :=
  state.toList.map UInt32.toNat

theorem stateWords_split (state : State) :
    stateWords state = [state[0]!.toNat, state[1]!.toNat, state[2]!.toNat, state[3]!.toNat,
      state[4]!.toNat, state[5]!.toNat, state[6]!.toNat, state[7]!.toNat] := by
  obtain ⟨⟨entries⟩, size⟩ := state
  match entries, size with
  | [_, _, _, _, _, _, _, _], _ => rfl

theorem stateWords_small (state : State) : ∀ word ∈ stateWords state, word < 2 ^ 32 := by
  intro word member
  obtain ⟨w, _, rfl⟩ := List.mem_map.mp member
  exact w.toNat_lt

def wordDigits (w : Nat) : List Nat :=
  [w / 2 ^ 24 % 256, w / 2 ^ 16 % 256, w / 2 ^ 8 % 256, w % 256]

theorem stateToBytes_value (state : State) :
    Positional.value 256 ((stateToBytes state).map UInt8.toNat) =
      Positional.value (2 ^ 32) (stateWords state) := by
  have bytes : (stateToBytes state).map UInt8.toNat = (stateWords state).flatMap wordDigits := by
    simp only [stateToBytes, stateWords, wordDigits, List.map_flatMap, List.flatMap_map,
      List.map_cons, List.map_nil, UInt32.toNat_toUInt8, UInt32.toNat_shiftRight,
      UInt32.reduceToNat, Nat.shiftRight_eq_div_pow]
  rw [bytes]
  exact Positional.value_flatMap 256 4 wordDigits (stateWords state) (fun _ _ => rfl)
    (fun w member => by
      have small := stateWords_small state w member
      simp only [wordDigits, Positional.value, List.length_cons, List.length_nil]
      omega)

@[simp]
theorem stateToBytes_length (state : State) : (stateToBytes state).length = 32 := by
  simp [stateToBytes, List.length_flatMap]

theorem zeroHex_state (state : State) (difficulty : Nat) (within : difficulty ≤ 64) :
    ZeroHex (hexLower (stateToBytes state)) difficulty ↔
      4 * difficulty ≤ Positional.leadingBits 32 (stateWords state) := by
  have count : (stateWords state).length = 8 := by simp [stateWords]
  rw [zeroHex_iff _ _ (by simp; omega), stateToBytes_value,
    Positional.le_leadingBits_iff 32 _ _ (stateWords_small state) (by omega), count,
    stateToBytes_length]
  have scale : (16 : Nat) ^ (2 * 32 - difficulty) = 2 ^ (32 * 8 - 4 * difficulty) := by
    have hex : (16 : Nat) = 2 ^ 4 := rfl
    rw [hex, ← pow_mul]
    congr 1
    omega
  rw [scale]

theorem word_zero (w : UInt32) : w = 0 ↔ w.toNat = 0 :=
  ⟨fun same => by rw [same]; rfl, fun same => UInt32.toNat.inj same⟩

theorem checkStateDifficulty_bits (state : State) (difficulty : UInt32)
    (small : difficulty.toNat ≤ 32) :
    checkStateDifficulty state difficulty = true ↔
      4 * difficulty.toNat ≤ Positional.leadingBits 32 (stateWords state) := by
  have required : (difficulty * 4).toNat = 4 * difficulty.toNat := by
    simp only [UInt32.toNat_mul, UInt32.reduceToNat]
    omega
  have rest (k : UInt32) (fits : k.toNat ≤ 4 * difficulty.toNat) :
      (difficulty * 4 - k).toNat = 4 * difficulty.toNat - k.toNat := by
    rw [UInt32.toNat_sub_of_le _ _ (by rw [UInt32.le_iff_toNat_le, required]; exact fits), required]
  rw [stateWords_split]
  simp only [checkStateDifficulty, ge_iff_le, UInt32.le_iff_toNat_le, required, UInt32.reduceToNat]
  -- one case for each number of words that must be zero
  by_cases one : 4 * difficulty.toNat ≤ 32
  · rw [if_pos one, decide_eq_true_iff, Positional.le_leadingBits_head _ _ _ _ one,
      leadingZeros_toNat]
  · rw [if_neg one, Positional.le_leadingBits_tail _ _ _ _ (by omega)]
    by_cases two : 4 * difficulty.toNat ≤ 64
    · rw [if_pos two, Positional.le_leadingBits_head _ _ _ _ (by omega)]
      simp [leadingZeros_toNat, rest 32 (by simp; omega), word_zero]
    · rw [if_neg two, Positional.le_leadingBits_tail _ _ _ _ (by omega)]
      by_cases three : 4 * difficulty.toNat ≤ 96
      · rw [if_pos three, Positional.le_leadingBits_head _ _ _ _ (by omega)]
        simp [leadingZeros_toNat, rest 64 (by simp; omega), word_zero, Nat.sub_sub, and_assoc]
      · rw [if_neg three, Positional.le_leadingBits_tail _ _ _ _ (by omega),
          Positional.le_leadingBits_head _ _ _ _ (by omega)]
        simp [leadingZeros_toNat, rest 96 (by simp; omega), word_zero, Nat.sub_sub, and_assoc]

theorem checkStateDifficulty_large (state : State) (difficulty : UInt32)
    (large : 32 < difficulty.toNat) (fits : difficulty.toNat < 2 ^ 30) :
    checkStateDifficulty state difficulty = false := by
  have required : (difficulty * 4).toNat = 4 * difficulty.toNat := by
    simp only [UInt32.toNat_mul, UInt32.reduceToNat]
    omega
  have enough : (96 : UInt32) ≤ difficulty * 4 := by
    rw [UInt32.le_iff_toNat_le, required]
    simp only [UInt32.reduceToNat]
    omega
  have few : ¬ (difficulty * 4 - 96).toNat ≤ (leadingZeros state[3]!).toNat := by
    rw [UInt32.toNat_sub_of_le _ _ enough, required, leadingZeros_toNat]
    simp only [UInt32.reduceToNat]
    omega
  simp only [checkStateDifficulty, ge_iff_le, UInt32.le_iff_toNat_le, required, UInt32.reduceToNat]
  rw [if_neg (by omega), if_neg (by omega), if_neg (by omega), decide_eq_false few, Bool.and_false]

theorem checkStateDifficulty_correct (state : State) (difficulty : UInt32)
    (small : difficulty.toNat ≤ 32) :
    checkStateDifficulty state difficulty = true ↔
      ZeroHex (hexLower (stateToBytes state)) difficulty.toNat := by
  rw [checkStateDifficulty_bits state difficulty small, zeroHex_state state _ (by omega)]

end ScamMiner
