import ScamMiner.Shared.Positional

set_option autoImplicit false

namespace ScamMiner

-- `serde(untagged)`: the server may use a number or a string.
inductive Id where
  | num (n : UInt64)
  | str (s : String)
  deriving DecidableEq, Repr

def Id.display : Id -> String
  | .num n => toString n.toNat
  | .str s => s

structure Task where
  id : Id
  data : String
  difficulty : UInt32
  nonceStart : UInt64
  nonceEnd : UInt64
  deriving DecidableEq, Repr

def Task.prefixText (task : Task) : String :=
  "task_" ++ task.id.display ++ "_diff_" ++ toString task.difficulty.toNat ++ "_" ++ task.data ++ "_"

def Task.prefixBytes (task : Task) : List UInt8 :=
  task.prefixText.toUTF8.toList

structure Solution where
  taskId : Id
  nonce : UInt64
  hash : String
  deriving DecidableEq, Repr

-- `char::from_digit(d, 16)`.
def hexDigit (d : UInt8) : Char :=
  if d < 10 then Char.ofNat (48 + d.toNat) else Char.ofNat (87 + d.toNat)

def hexLower (bytes : List UInt8) : String :=
  String.ofList (bytes.flatMap fun (b : UInt8) => [hexDigit (b >>> 4), hexDigit (b &&& 0xf)])

def ZeroHex (hash : String) (count : Nat) : Prop :=
  List.replicate count '0' <+: hash.toList

def nibbles (b : Nat) : List Nat :=
  [b / 16, b % 16]

theorem nibble_high (b : UInt8) : (b >>> 4).toNat = b.toNat / 16 := by
  simp [Nat.shiftRight_eq_div_pow]

theorem nibble_low (b : UInt8) : (b &&& 0xf).toNat = b.toNat % 16 := by
  simp only [UInt8.toNat_and, UInt8.reduceToNat]
  exact Nat.and_two_pow_sub_one_eq_mod b.toNat 4

theorem hexDigit_zero (d : UInt8) (small : d.toNat < 16) : hexDigit d = '0' ↔ d = 0 := by
  have cases : ∀ n : Fin 16, hexDigit (UInt8.ofNat n.val) = '0' ↔ n.val = 0 := by decide
  have this := cases ⟨d.toNat, small⟩
  rw [UInt8.ofNat_toNat] at this
  rw [this, ← UInt8.toNat_inj]
  rfl

-- Zero hex digits in front of a byte string, as a bound on its value.
theorem zeroHex_iff (bytes : List UInt8) (count : Nat) (within : count ≤ 2 * bytes.length) :
    ZeroHex (hexLower bytes) count ↔
      Positional.value 256 (bytes.map UInt8.toNat) < 16 ^ (2 * bytes.length - count) := by
  let digits := bytes.flatMap fun (b : UInt8) => [b >>> 4, b &&& 0xf]
  have text : (hexLower bytes).toList = digits.map hexDigit := by
    simp [hexLower, digits, List.map_flatMap]
  have small : ∀ d ∈ digits, d.toNat < 16 := by
    intro d member
    obtain ⟨b, _, nibble⟩ := List.mem_flatMap.mp member
    have bound := b.toNat_lt
    simp only [List.mem_cons, List.not_mem_nil, or_false] at nibble
    rcases nibble with rfl | rfl
    · rw [nibble_high]; omega
    · rw [nibble_low]; omega
  have numbers : digits.map UInt8.toNat = (bytes.map UInt8.toNat).flatMap nibbles := by
    simp only [digits, nibbles, List.map_flatMap, List.flatMap_map, List.map_cons, List.map_nil,
      nibble_high, nibble_low]
  have length : (digits.map UInt8.toNat).length = 2 * bytes.length := by
    rw [numbers, Positional.flatMap_length 2 nibbles _ fun _ _ => rfl, List.length_map]
  have first := Positional.replicate_map_prefix hexDigit 0 digits count
    (fun d member => hexDigit_zero d (small d member))
  have second := Positional.replicate_map_prefix UInt8.toNat 0 digits count
    (fun d _ => ⟨fun same => UInt8.toNat.inj same, fun same => by rw [same]⟩)
  have regrouped : Positional.value 16 ((bytes.map UInt8.toNat).flatMap nibbles) =
      Positional.value 256 (bytes.map UInt8.toNat) :=
    Positional.value_flatMap 16 2 nibbles _ (fun _ _ => rfl) (fun b _ => by
      simp only [nibbles, Positional.value, List.length_cons, List.length_nil]
      omega)
  have bound := Positional.zeros_prefix_iff 16 count (digits.map UInt8.toNat) (by omega)
    (by simpa using small) (by omega)
  rw [ZeroHex, text]
  change List.replicate count (hexDigit 0) <+: _ ↔ _
  rw [first, ← second]
  change List.replicate count 0 <+: _ ↔ _
  rw [bound, length, numbers, regrouped]

end ScamMiner
