import ScamMiner.Gpu.Refinement

set_option autoImplicit false

namespace ScamMiner

open Fips180 (State)
open Gpu (zbitsLoop)

def kernelMatched (h : State) (difficulty : UInt32) : Bool :=
  decide (difficulty * 4 ≤ zbitsLoop h.toList 0)

-- `task::check_difficulty`; a slice or an index past the end panics.
def checkDifficulty (hash : List UInt8) (difficulty : UInt32) : Option Bool :=
  let bits := (difficulty * 4).toNat
  let full := bits / 8
  let rem := bits % 8
  if full ≤ hash.length then
    if (hash.take full).any (· != 0) then some false
    else if 0 < rem then hash[full]?.map fun b => b >>> UInt8.ofNat (8 - rem) == 0
    else some true
  else none

theorem kernelThread_matched {dialect : Gpu.Dialect} {uninit constantW : Gpu.TailWords}
    {params : Gpu.Params} {idx : UInt32} {v : Gpu.Verdict}
    (ran : Gpu.kernelThread dialect uninit constantW params idx = some (some v)) :
    v.matched = kernelMatched v.h params.difficulty := by
  unfold Gpu.kernelThread at ran
  by_cases beyond : params.count ≤ idx
  · simp [beyond] at ran
  · simp only [beyond, if_false, Option.bind_eq_bind, Option.bind_eq_some_iff] at ran
    obtain ⟨w, -, filled, -, h, -, done⟩ := ran
    obtain rfl := Option.some.inj (Option.some.inj done)
    rfl

def digestZeros (state : State) : Nat :=
  Positional.leadingBits 8 ((stateToBytes state).map UInt8.toNat)

theorem digestZeros_le (state : State) : digestZeros state ≤ 256 := by
  have bound := Positional.leadingBits_le 8 ((stateToBytes state).map UInt8.toNat)
  rw [List.length_map, stateToBytes_length] at bound
  exact bound

theorem digestZeros_words (state : State) :
    digestZeros state = Positional.leadingBits 32 (stateWords state) := by
  have words := Positional.leadingBits_le 32 (stateWords state)
  have count : (stateWords state).length = 8 := by simp [stateWords]
  have forward := (Gpu.digest_bits state _ (digestZeros_le state)).mp (Nat.le_refl _)
  have back := (Gpu.digest_bits state _ (by omega)).mpr
    (Nat.le_refl (Positional.leadingBits 32 (stateWords state)))
  exact Nat.le_antisymm forward back

theorem hexLower_length (bytes : List UInt8) : (hexLower bytes).toList.length = 2 * bytes.length := by
  simp [hexLower, List.length_flatMap, Nat.mul_comm]

theorem zeroHex_digest (state : State) (difficulty : Nat) :
    ZeroHex (hexLower (stateToBytes state)) difficulty ↔ 4 * difficulty ≤ digestZeros state := by
  have bound := digestZeros_le state
  by_cases within : difficulty ≤ 64
  · rw [zeroHex_state state difficulty within, digestZeros_words]
  · constructor
    · intro zeros
      have length := zeros.length_le
      rw [List.length_replicate, hexLower_length, stateToBytes_length] at length
      omega
    · intro many
      omega

theorem required_toNat (difficulty : UInt32) :
    (difficulty * 4).toNat = 4 * difficulty.toNat % 2 ^ 32 := by
  rw [UInt32.toNat_mul, Nat.mul_comm]
  rfl

-- Both tests read the difficulty through `difficulty * 4` only.
theorem wrapped (difficulty : UInt32) : ∃ small : UInt32, small.toNat < 2 ^ 30 ∧
    small * 4 = difficulty * 4 ∧ 4 * small.toNat = 4 * difficulty.toNat % 2 ^ 32 := by
  have bound := difficulty.toNat_lt
  have value : (UInt32.ofNat (difficulty.toNat % 2 ^ 30)).toNat = difficulty.toNat % 2 ^ 30 := by
    rw [UInt32.toNat_ofNat']
    omega
  refine ⟨UInt32.ofNat (difficulty.toNat % 2 ^ 30), by omega, ?_, by omega⟩
  apply UInt32.toNat.inj
  rw [required_toNat, required_toNat, value]
  omega

theorem checkStateDifficulty_zeros (state : State) (difficulty : UInt32)
    (fits : difficulty.toNat < 2 ^ 30) : checkStateDifficulty state difficulty = true ↔
      difficulty.toNat ≤ 32 ∧ 4 * difficulty.toNat ≤ digestZeros state := by
  by_cases small : difficulty.toNat ≤ 32
  · rw [checkStateDifficulty_bits state difficulty small, digestZeros_words]
    exact ⟨fun zeros => ⟨small, zeros⟩, And.right⟩
  · rw [checkStateDifficulty_large state difficulty (by omega) fits]
    simp [small]

theorem kernelMatched_zeros (h : State) (difficulty : UInt32)
    (fits : difficulty.toNat < 2 ^ 30) :
    kernelMatched h difficulty = true ↔ 4 * difficulty.toNat ≤ digestZeros h := by
  rw [kernelMatched, Gpu.matched_correct h difficulty fits, digestZeros_words]

structure DifficultyExact (state : State) (difficulty : UInt32) : Prop where
  hex : checkStateDifficulty state difficulty = true ↔
    ZeroHex (hexLower (stateToBytes state)) difficulty.toNat
  bits : checkStateDifficulty state difficulty = true ↔
    4 * difficulty.toNat ≤ digestZeros state
  kernel : kernelMatched state difficulty = checkStateDifficulty state difficulty

/-- Beyond four words, and where `difficulty * 4` wraps, only a digest that misses the wrapped
requirement is judged alike. -/
theorem difficultyExact_iff (state : State) (difficulty : UInt32) :
    DifficultyExact state difficulty ↔
      difficulty.toNat ≤ 32 ∨ digestZeros state < 4 * difficulty.toNat % 2 ^ 32 := by
  obtain ⟨small, fits, same, value⟩ := wrapped difficulty
  have check : checkStateDifficulty state difficulty = checkStateDifficulty state small := by
    simp only [checkStateDifficulty, same]
  have matched : kernelMatched state difficulty = kernelMatched state small := by
    simp only [kernelMatched, same]
  have words := checkStateDifficulty_zeros state small fits
  have zbits := kernelMatched_zeros state small fits
  have hex := zeroHex_digest state difficulty.toNat
  have most := digestZeros_le state
  have bound := difficulty.toNat_lt
  constructor
  · rintro ⟨-, bits, kernel⟩
    rw [check, words] at bits
    rw [matched, check, Bool.eq_iff_iff, zbits, words] at kernel
    omega
  · intro condition
    have bits : checkStateDifficulty state difficulty = true ↔
        4 * difficulty.toNat ≤ digestZeros state := by
      rw [check, words]
      omega
    refine ⟨bits.trans hex.symm, bits, ?_⟩
    rw [matched, check, Bool.eq_iff_iff, zbits, words]
    omega

-- 33 hex digits need a fifth word; 2^30 of them wrap to none, and the digest of no bytes passes.
theorem difficultyExact_fails : ¬ DifficultyExact (Vector.replicate 8 0) 33 ∧
    ¬ DifficultyExact #v[0xe3b0c442, 0x98fc1c14, 0x9afbf4c8, 0x996fb924, 0x27ae41e4, 0x649b934c,
      0xa495991b, 0x7852b855] 0x40000000 := by
  refine ⟨fun alike => absurd alike.kernel (by decide), fun alike => ?_⟩
  have enough := alike.bits.mp (by decide)
  have most := digestZeros_le #v[0xe3b0c442, 0x98fc1c14, 0x9afbf4c8, 0x996fb924, 0x27ae41e4,
    0x649b934c, 0xa495991b, 0x7852b855]
  simp only [UInt32.reduceToNat] at enough
  omega

theorem shifted_zero (b : UInt8) (rem : Nat) (positive : 0 < rem) (short : rem < 8) :
    b >>> UInt8.ofNat (8 - rem) = 0 ↔ rem ≤ 8 - b.toNat.size := by
  have amount : (UInt8.ofNat (8 - rem)).toNat % 8 = 8 - rem := by
    rw [UInt8.toNat_ofNat']
    omega
  have sized : b.toNat.size ≤ 8 := Nat.size_le.mpr b.toNat_lt
  have below : b.toNat < 2 ^ (8 - rem) ↔ b.toNat.size ≤ 8 - rem := Nat.size_le.symm
  rw [← UInt8.toNat_inj, UInt8.toNat_shiftRight, amount, Nat.shiftRight_eq_div_pow]
  change b.toNat / 2 ^ (8 - rem) = 0 ↔ _
  rw [Nat.div_eq_zero_iff, below]
  have scale : 2 ^ (8 - rem) ≠ 0 := (Nat.two_pow_pos _).ne'
  omega

theorem le_leadingBits_bytes (bytes : List UInt8) (full rem : Nat) (short : rem < 8) :
    8 * full + rem ≤ Positional.leadingBits 8 (bytes.map UInt8.toNat) ↔
      full ≤ bytes.length ∧ (∀ b ∈ bytes.take full, b = 0) ∧
        (rem = 0 ∨ ∃ b, bytes[full]? = some b ∧ b >>> UInt8.ofNat (8 - rem) = 0) := by
  induction bytes generalizing full with
  | nil =>
    simp only [List.map_nil, Positional.leadingBits, List.length_nil, List.take_nil,
      List.getElem?_nil]
    simp
  | cons b rest ih =>
    rw [List.map_cons]
    cases full with
    | zero =>
      rw [Nat.mul_zero, Nat.zero_add, Positional.le_leadingBits_head _ _ _ _ (by omega)]
      rcases Nat.eq_zero_or_pos rem with none_left | positive
      · simp [none_left]
      · have high := shifted_zero b rem positive short
        simp [high, positive.ne']
    | succ full =>
      have tail := ih full
      rw [Positional.leadingBits]
      by_cases zero : b.toNat = 0
      · have cleared : b = 0 := UInt8.toNat.inj zero
        have split : 8 * (full + 1) + rem ≤ 8 + Positional.leadingBits 8 (rest.map UInt8.toNat) ↔
            8 * full + rem ≤ Positional.leadingBits 8 (rest.map UInt8.toNat) := by omega
        rw [if_pos zero, split, tail]
        simp [cleared]
      · have kept : b ≠ 0 := fun same => zero (by rw [same]; rfl)
        have positive : 0 < b.toNat.size := Nat.size_pos.mpr (Nat.pos_of_ne_zero zero)
        rw [if_neg zero]
        constructor
        · intro many
          omega
        · rintro ⟨-, zeros, -⟩
          exact absurd (zeros b (by simp)) kept

theorem checkDifficulty_zeros (state : State) (difficulty : UInt32)
    (within : difficulty.toNat ≤ 64) : checkDifficulty (stateToBytes state) difficulty =
      some (decide (4 * difficulty.toNat ≤ digestZeros state)) := by
  have required : (difficulty * 4).toNat = 4 * difficulty.toNat := by
    rw [required_toNat]
    omega
  have counted := le_leadingBits_bytes (stateToBytes state) (4 * difficulty.toNat / 8)
    (4 * difficulty.toNat % 8) (by omega)
  rw [Nat.div_add_mod] at counted
  change 4 * difficulty.toNat ≤ digestZeros state ↔ _ at counted
  have length := stateToBytes_length state
  have whole : 4 * difficulty.toNat / 8 ≤ (stateToBytes state).length := by omega
  simp only [checkDifficulty, required, if_pos whole]
  by_cases zeros : ∀ b ∈ (stateToBytes state).take (4 * difficulty.toNat / 8), b = 0
  · have clear : ((stateToBytes state).take (4 * difficulty.toNat / 8)).any (· != 0) = false := by
      simpa using zeros
    rw [clear, if_neg Bool.false_ne_true]
    by_cases part : 0 < 4 * difficulty.toNat % 8
    · have inside : 4 * difficulty.toNat / 8 < (stateToBytes state).length := by omega
      obtain ⟨b, found⟩ : ∃ b, (stateToBytes state)[4 * difficulty.toNat / 8]? = some b :=
        ⟨_, List.getElem?_eq_getElem inside⟩
      rw [found] at counted
      rw [if_pos part, found, Option.map_some, Option.some.injEq, Bool.eq_iff_iff,
        decide_eq_true_iff, beq_iff_eq, counted]
      constructor
      · intro shifted
        exact ⟨whole, zeros, .inr ⟨b, rfl, shifted⟩⟩
      · rintro ⟨-, -, none_left | ⟨byte, same, shifted⟩⟩
        · omega
        · rwa [Option.some.inj same]
    · have even : 4 * difficulty.toNat % 8 = 0 := by omega
      rw [if_neg part, eq_comm, Option.some.injEq, decide_eq_true_iff]
      exact counted.mpr ⟨whole, zeros, .inl even⟩
  · have dirty : ((stateToBytes state).take (4 * difficulty.toNat / 8)).any (· != 0) = true := by
      simpa using zeros
    rw [if_pos dirty, eq_comm, Option.some.injEq, decide_eq_false_iff_not]
    exact fun many => zeros (counted.mp many).2.1

theorem checkDifficulty_kernel (state : State) (difficulty : UInt32)
    (within : difficulty.toNat ≤ 64) :
    checkDifficulty (stateToBytes state) difficulty = some (kernelMatched state difficulty) := by
  have zbits := kernelMatched_zeros state difficulty (by omega)
  rw [checkDifficulty_zeros state difficulty within, Option.some.injEq, Bool.eq_iff_iff,
    decide_eq_true_iff, zbits]

end ScamMiner
