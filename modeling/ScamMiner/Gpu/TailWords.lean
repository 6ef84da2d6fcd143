import ScamMiner.Gpu.Chunks
import ScamMiner.Sha.Finish

set_option autoImplicit false

namespace ScamMiner.Gpu

open Fips180

structure Params where
  nonceStartLo : UInt32
  nonceStartHi : UInt32
  count : UInt32
  difficulty : UInt32
  buffered : UInt32
  nd : UInt32
  numBlocks : UInt32
  s0 : UInt32
  s1 : UInt32
  s2 : UInt32
  s3 : UInt32
  s4 : UInt32
  s5 : UInt32
  s6 : UInt32
  s7 : UInt32
  deriving DecidableEq, Repr

def Params.new (chunkStart : UInt64) (count difficulty : UInt32) (buffered : Nat)
    (nd numBlocks : UInt32) (state : State) : Params :=
  { nonceStartLo := chunkStart.toUInt32
    nonceStartHi := (chunkStart >>> 32).toUInt32
    count := count
    difficulty := difficulty
    buffered := UInt32.ofNat buffered
    nd := nd
    numBlocks := numBlocks
    s0 := state[0]!
    s1 := state[1]!
    s2 := state[2]!
    s3 := state[3]!
    s4 := state[4]!
    s5 := state[5]!
    s6 := state[6]!
    s7 := state[7]! }

abbrev TailWords := Vector UInt32 32

def chunkWord (chunk : List UInt8) : UInt32 :=
  chunk.foldl (fun w b => (w <<< 8) ||| b.toUInt32) 0

def paddedLen (buffered nd : Nat) : Nat :=
  (buffered + nd + 1 + 8 + 63) / 64 * 64

def buildTailWords (partialBlock : Block) (buffered : Nat) (prefixLen : UInt64) (nd : UInt32) :
    Option (TailWords × UInt32) := do
  let totalLen := prefixLen + nd.toUInt64
  let bitlen := totalLen * 8
  let padded := paddedLen buffered nd.toNat
  let numBlocks := UInt32.ofNat (padded / 64)
  let stream : Vector UInt8 128 := Vector.replicate 128 0
  let live ← Buffer.sliceTo partialBlock buffered
  let stream ← Buffer.copyFromSlice stream 0 buffered live
  let stream ← Buffer.store stream (buffered + nd.toNat) 0x80
  let stream ← Buffer.copyFromSlice stream (padded - 8) padded (Midstate.toBeBytes bitlen)
  let words : TailWords :=
    Vector.ofFn fun wi => chunkWord ((stream.toList.drop (4 * wi.val)).take 4)
  return (words, numBlocks)

-- Byte `j` of the tail behind `message`, with zeros for its `nd` digits.
def holeByte (message : List UInt8) (nd j : Nat) : UInt8 :=
  if j < message.length % 64 then message.getD (64 * (message.length / 64) + j) 0
  else if j = message.length % 64 + nd then 0x80
  else if paddedLen (message.length % 64) nd ≤ j + 8 ∧ j < paddedLen (message.length % 64) nd then
    (be64 (8 * (message.length + nd))).getD (j + 8 - paddedLen (message.length % 64) nd) 0
  else 0

def tailWord (stream : Nat -> UInt8) (t : Nat) : UInt32 :=
  beWord (stream (4 * t)) (stream (4 * t + 1)) (stream (4 * t + 2)) (stream (4 * t + 3))

theorem chunkWord_correct (b0 b1 b2 b3 : UInt8) :
    chunkWord [b0, b1, b2, b3] = beWord b0 b1 b2 b3 := by
  have twice (x : UInt32) : x <<< 8 <<< 8 = x <<< 16 :=
    (UInt32.shiftLeft_add_of_toNat_lt (b := 8) (c := 8) (by decide)).symm
  have again (x : UInt32) : x <<< 16 <<< 8 = x <<< 24 :=
    (UInt32.shiftLeft_add_of_toNat_lt (b := 16) (c := 8) (by decide)).symm
  simp [chunkWord, beWord, UInt32.shiftLeft_or, twice, again]

theorem paddedLen_bounds (buffered nd : Nat) (open_ : buffered < 64) (short : nd ≤ 20) :
    buffered + nd + 9 ≤ paddedLen buffered nd ∧ paddedLen buffered nd ≤ 128 ∧
      64 ≤ paddedLen buffered nd ∧ paddedLen buffered nd % 64 = 0 := by
  unfold paddedLen
  omega

theorem drop_take_four (stream : Vector UInt8 128) (wi : Nat) (bound : wi < 32) :
    (stream.toList.drop (4 * wi)).take 4 =
      [stream[4 * wi], stream[4 * wi + 1], stream[4 * wi + 2], stream[4 * wi + 3]] := by
  apply List.ext_getElem
  · simp only [List.length_take, List.length_drop, Vector.length_toList, List.length_cons,
      List.length_nil]
    omega
  · intro i inLeft inRight
    simp only [List.length_cons, List.length_nil] at inRight
    simp only [List.getElem_take, List.getElem_drop, Vector.getElem_toList]
    interval_cases i <;> rfl

theorem tailBitlen (length : Nat) (nd : UInt32) :
    Midstate.toBeBytes ((UInt64.ofNat length + nd.toUInt64) * 8) = be64 (8 * (length + nd.toNat)) := by
  have wrapped : ((UInt64.ofNat length + nd.toUInt64) * 8).toNat =
      (8 * (length + nd.toNat)) % 2 ^ 64 := by
    simp only [UInt64.toNat_mul, UInt64.toNat_add, UInt64.toNat_ofNat', UInt32.toNat_toUInt64,
      UInt64.reduceToNat]
    omega
  rw [Midstate.toBeBytes_correct, wrapped, be64_wrap]

theorem stream_correct (message live : List UInt8) (nd j : Nat)
    (count : live.length = message.length % 64) (short : nd ≤ 20)
    (same : ∀ i, i < message.length % 64 ->
      live.getD i 0 = message.getD (64 * (message.length / 64) + i) 0) :
    (if paddedLen (message.length % 64) nd - 8 ≤ j then
        ((be64 (8 * (message.length + nd)))[j - (paddedLen (message.length % 64) nd - 8)]?).getD
          (if message.length % 64 + nd = j then 0x80 else (live[j]?).getD 0)
      else if message.length % 64 + nd = j then 0x80 else (live[j]?).getD 0) =
      holeByte message nd j := by
  have bounds := paddedLen_bounds (message.length % 64) nd (by omega) short
  have outside (i : Nat) (beyond : message.length % 64 ≤ i) : (live[i]?).getD 0 = 0 := by
    rw [List.getElem?_eq_none (by omega)]
    rfl
  unfold holeByte
  by_cases inLive : j < message.length % 64
  · rw [if_neg (by omega), if_neg (by omega), if_pos inLive, ← same j inLive]
    rfl
  · by_cases marker : message.length % 64 + nd = j
    · rw [if_neg (by omega), if_pos marker, if_neg inLive, if_pos marker.symm]
    · rw [if_neg marker, if_neg inLive, if_neg (Ne.symm marker), outside j (by omega)]
      by_cases inLength : paddedLen (message.length % 64) nd - 8 ≤ j
      · have offset : j - (paddedLen (message.length % 64) nd - 8) =
            j + 8 - paddedLen (message.length % 64) nd := by omega
        rw [if_pos inLength, offset]
        by_cases inside : j < paddedLen (message.length % 64) nd
        · rw [if_pos ⟨by omega, inside⟩]
          rfl
        · rw [if_neg (by omega), List.getElem?_eq_none (by rw [be64_length]; omega)]
          rfl
      · rw [if_neg inLength, if_neg (by omega)]

theorem buildTailWords_correct (message : List UInt8) (partialBlock : Block) (nd : UInt32)
    (live : ∀ i, i < message.length % 64 ->
      partialBlock.toList.getD i 0 = message.getD (64 * (message.length / 64) + i) 0)
    (short : nd.toNat ≤ 20) :
    ∃ words numBlocks,
      buildTailWords partialBlock (message.length % 64) (UInt64.ofNat message.length) nd =
        some (words, numBlocks) ∧
      64 * numBlocks.toNat = paddedLen (message.length % 64) nd.toNat ∧
      ∀ t (bound : t < 32), words[t] = tailWord (holeByte message nd.toNat) t := by
  have bounds := paddedLen_bounds (message.length % 64) nd.toNat (by omega) short
  have blocks : 64 * (UInt32.ofNat (paddedLen (message.length % 64) nd.toNat / 64)).toNat =
      paddedLen (message.length % 64) nd.toNat := by
    rw [UInt32.toNat_ofNat']
    omega
  let taken := partialBlock.toList.take (message.length % 64)
  have count : taken.length = message.length % 64 := by
    simp only [taken, List.length_take, Vector.length_toList]
    omega
  have same (i : Nat) (inside : i < message.length % 64) :
      taken.getD i 0 = message.getD (64 * (message.length / 64) + i) 0 := by
    rw [← live i inside]
    simp only [taken, List.getD_eq_getElem?_getD, List.getElem?_take_of_lt inside]
  simp only [buildTailWords, tailBitlen, Option.bind_eq_bind, Option.pure_def]
  rw [Buffer.sliceTo_inside _ _ (by omega)]
  simp only [Option.bind_some]
  rw [Buffer.copyFromSlice_inside _ _ _ _ (by omega) (by omega) (by rw [count]; rfl)]
  simp only [Option.bind_some]
  rw [Buffer.store_inside _ _ _ (by omega)]
  simp only [Option.bind_some]
  rw [Buffer.copyFromSlice_inside _ _ _ _ (by omega) (by omega) (by rw [be64_length]; omega)]
  simp only [Option.bind_some]
  refine ⟨_, _, rfl, blocks, fun t bound => ?_⟩
  have byte (j : Nat) := stream_correct message taken nd.toNat j count short same
  simp only [Vector.getElem_ofFn, drop_take_four _ t bound, chunkWord_correct, Vector.getElem_set,
    Nat.zero_le, if_true, Nat.sub_zero, Vector.getElem_replicate, Fin.getElem_fin]
  rw [tailWord, ← byte (4 * t), ← byte (4 * t + 1), ← byte (4 * t + 2), ← byte (4 * t + 3)]

end ScamMiner.Gpu
