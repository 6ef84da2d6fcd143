import Mathlib.Data.List.GetD
import Mathlib.Tactic

set_option autoImplicit false

namespace Fips180

abbrev Block := Vector UInt8 64
abbrev State := Vector UInt32 8
abbrev Words := Vector UInt32 16

def blockAt (message : List UInt8) (k : Nat) : Block :=
  Vector.ofFn fun i => message.getD (64 * k + i.val) 0

def be64 (n : Nat) : List UInt8 :=
  (List.range 8).map fun i => UInt8.ofNat (n / 256 ^ (7 - i))

-- Zero bytes between the `0x80` byte and the length field (section 5.1.1).
def zeroGap (length : Nat) : Nat :=
  (119 - length % 64) % 64

def pad (message : List UInt8) : List UInt8 :=
  message ++ 0x80 :: (List.replicate (zeroGap message.length) 0 ++ be64 (8 * message.length))

def blockCount (length : Nat) : Nat :=
  (length + 8) / 64 + 1

def blocks (message : List UInt8) : List Block :=
  (List.range (blockCount message.length)).map (blockAt (pad message))

-- The chaining value after all padded blocks, for any compression function.
def digestState {σ : Type} (compress : σ -> Block -> σ) (iv : σ) (message : List UInt8) : σ :=
  (blocks message).foldl compress iv

@[simp]
theorem be64_length (n : Nat) : (be64 n).length = 8 := by
  simp [be64]

theorem be64_wrap (n : Nat) : be64 (n % 2 ^ 64) = be64 n := by
  simp only [be64]
  apply List.map_congr_left
  intro i member
  have small : i < 8 := List.mem_range.mp member
  apply UInt8.toNat.inj
  simp only [UInt8.toNat_ofNat']
  interval_cases i <;> omega

theorem pad_message (message : List UInt8) (i : Nat) (inside : i < message.length) :
    (pad message).getD i 0 = message.getD i 0 :=
  List.getD_append _ _ _ _ inside

theorem pad_marker (message : List UInt8) :
    (pad message).getD message.length 0 = 0x80 := by
  rw [pad, List.getD_append_right _ _ _ _ (Nat.le_refl _), Nat.sub_self, List.getD_cons_zero]

theorem pad_zero (message : List UInt8) (i : Nat) (after : message.length < i)
    (before : i + 8 < 64 * blockCount message.length) :
    (pad message).getD i 0 = 0 := by
  have gap : i - message.length - 1 < zeroGap message.length := by
    simp only [zeroGap, blockCount] at *
    omega
  rw [pad, List.getD_append_right _ _ _ _ (by omega)]
  obtain ⟨j, offset⟩ : ∃ j, i - message.length = j + 1 := ⟨i - message.length - 1, by omega⟩
  rw [offset, List.getD_cons_succ, List.getD_append _ _ _ _ (by simp; omega)]
  exact List.getD_replicate _ (by omega)

theorem pad_bitLength (message : List UInt8) (i : Nat)
    (field : 64 * blockCount message.length ≤ i + 8) :
    (pad message).getD i 0 =
      (be64 (8 * message.length)).getD (i + 8 - 64 * blockCount message.length) 0 := by
  have whole : 64 * blockCount message.length =
      message.length + 1 + zeroGap message.length + 8 := by
    simp only [zeroGap, blockCount]
    omega
  rw [pad, List.getD_append_right _ _ _ _ (by omega)]
  obtain ⟨j, offset⟩ : ∃ j, i - message.length = j + 1 := ⟨i - message.length - 1, by omega⟩
  rw [offset, List.getD_cons_succ, List.getD_append_right _ _ _ _ (by simp; omega)]
  congr 1
  simp only [List.length_replicate]
  omega

@[simp]
theorem blockAt_getElem (message : List UInt8) (k i : Nat) (bound : i < 64) :
    (blockAt message k)[i] = message.getD (64 * k + i) 0 := by
  simp [blockAt]

theorem blockAt_append (message rest : List UInt8) (k : Nat)
    (whole : 64 * k + 64 ≤ message.length) :
    blockAt (message ++ rest) k = blockAt message k := by
  apply Vector.ext
  intro i bound
  rw [blockAt_getElem _ _ _ bound, blockAt_getElem _ _ _ bound,
    List.getD_append _ _ _ _ (by omega)]

-- Sections 4.1.2, 4.2.2 and 6.2.2.
def rotr (x n : UInt32) : UInt32 :=
  (x >>> n) ||| (x <<< (32 - n))

def ch (x y z : UInt32) : UInt32 := (x &&& y) ^^^ (~~~x &&& z)
def maj (x y z : UInt32) : UInt32 := (x &&& y) ^^^ (x &&& z) ^^^ (y &&& z)
def bigSigma0 (x : UInt32) : UInt32 := rotr x 2 ^^^ rotr x 13 ^^^ rotr x 22
def bigSigma1 (x : UInt32) : UInt32 := rotr x 6 ^^^ rotr x 11 ^^^ rotr x 25
def smallSigma0 (x : UInt32) : UInt32 := rotr x 7 ^^^ rotr x 18 ^^^ (x >>> 3)
def smallSigma1 (x : UInt32) : UInt32 := rotr x 17 ^^^ rotr x 19 ^^^ (x >>> 10)

def roundConstants : List UInt32 := [
  0x428a2f98, 0x71374491, 0xb5c0fbcf, 0xe9b5dba5, 0x3956c25b, 0x59f111f1, 0x923f82a4, 0xab1c5ed5,
  0xd807aa98, 0x12835b01, 0x243185be, 0x550c7dc3, 0x72be5d74, 0x80deb1fe, 0x9bdc06a7, 0xc19bf174,
  0xe49b69c1, 0xefbe4786, 0x0fc19dc6, 0x240ca1cc, 0x2de92c6f, 0x4a7484aa, 0x5cb0a9dc, 0x76f988da,
  0x983e5152, 0xa831c66d, 0xb00327c8, 0xbf597fc7, 0xc6e00bf3, 0xd5a79147, 0x06ca6351, 0x14292967,
  0x27b70a85, 0x2e1b2138, 0x4d2c6dfc, 0x53380d13, 0x650a7354, 0x766a0abb, 0x81c2c92e, 0x92722c85,
  0xa2bfe8a1, 0xa81a664b, 0xc24b8b70, 0xc76c51a3, 0xd192e819, 0xd6990624, 0xf40e3585, 0x106aa070,
  0x19a4c116, 0x1e376c08, 0x2748774c, 0x34b0bcb5, 0x391c0cb3, 0x4ed8aa4a, 0x5b9cca4f, 0x682e6ff3,
  0x748f82ee, 0x78a5636f, 0x84c87814, 0x8cc70208, 0x90befffa, 0xa4506ceb, 0xbef9a3f7, 0xc67178f2]

def schedule (m : Words) (t : Nat) : UInt32 :=
  if h : t < 16 then m[t]
  else smallSigma1 (schedule m (t - 2)) + schedule m (t - 7) +
    smallSigma0 (schedule m (t - 15)) + schedule m (t - 16)
termination_by t

structure Work where
  a : UInt32
  b : UInt32
  c : UInt32
  d : UInt32
  e : UInt32
  f : UInt32
  g : UInt32
  h : UInt32
  deriving DecidableEq, Repr

def Work.ofState (s : State) : Work :=
  ⟨s[0], s[1], s[2], s[3], s[4], s[5], s[6], s[7]⟩

def Work.toState (v : Work) : State :=
  #v[v.a, v.b, v.c, v.d, v.e, v.f, v.g, v.h]

def initialState : State := Work.toState
  ⟨0x6a09e667, 0xbb67ae85, 0x3c6ef372, 0xa54ff53a, 0x510e527f, 0x9b05688c, 0x1f83d9ab, 0x5be0cd19⟩

def Work.addTo (v : Work) (s : State) : State :=
  Work.toState ⟨v.a + s[0], v.b + s[1], v.c + s[2], v.d + s[3], v.e + s[4], v.f + s[5], v.g + s[6],
    v.h + s[7]⟩

def round (k w : UInt32) (v : Work) : Work :=
  let t1 := v.h + bigSigma1 v.e + ch v.e v.f v.g + k + w
  let t2 := bigSigma0 v.a + maj v.a v.b v.c
  ⟨t1 + t2, v.a, v.b, v.c, v.d + t1, v.e, v.f, v.g⟩

def rounds (m : Words) (count : Nat) (v : Work) : Work :=
  (List.range count).foldl (fun v t => round (roundConstants.getD t 0) (schedule m t) v) v

def compressWords (s : State) (m : Words) : State :=
  (rounds m 64 (Work.ofState s)).addTo s

def beWord (b0 b1 b2 b3 : UInt8) : UInt32 :=
  (b0.toUInt32 <<< 24) ||| (b1.toUInt32 <<< 16) ||| (b2.toUInt32 <<< 8) ||| b3.toUInt32

def blockWords (b : Block) : Words :=
  Vector.ofFn fun t => beWord b[4 * t.val] b[4 * t.val + 1] b[4 * t.val + 2] b[4 * t.val + 3]

def wordBytes (w : UInt32) : List UInt8 :=
  [(w >>> 24).toUInt8, (w >>> 16).toUInt8, (w >>> 8).toUInt8, w.toUInt8]

def stateBytes (s : State) : List UInt8 :=
  s.toList.flatMap wordBytes

def compress (s : State) (b : Block) : State :=
  compressWords s (blockWords b)

def sha256 (message : List UInt8) : List UInt8 :=
  stateBytes (digestState compress initialState message)

@[simp]
theorem blockWords_getElem (b : Block) (t : Nat) (bound : t < 16) :
    (blockWords b)[t] = beWord b[4 * t] b[4 * t + 1] b[4 * t + 2] b[4 * t + 3] := by
  simp [blockWords]

end Fips180
