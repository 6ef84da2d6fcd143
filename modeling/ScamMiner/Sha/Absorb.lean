import ScamMiner.Sha.Midstate

set_option autoImplicit false

namespace ScamMiner.Midstate

open Fips180

variable {σ : Type} (compress : σ -> Block -> σ) (iv : σ)

def chain (message : List UInt8) (count : Nat) : σ :=
  ((List.range count).map (blockAt message)).foldl compress iv

-- Byte `i` of `buf` left over from the last flushed block, or from `new`.
def leftover (message : List UInt8) (i : Nat) : UInt8 :=
  if 64 ≤ message.length then message.getD (64 * (message.length / 64 - 1) + i) 0 else 0

def bufferByte (message : List UInt8) (i : Nat) : UInt8 :=
  if i < message.length % 64 then message.getD (64 * (message.length / 64) + i) 0
  else leftover message i

def absorbed (message : List UInt8) : Midstate σ :=
  { state := chain compress iv message (message.length / 64)
    buf := Vector.ofFn fun i => bufferByte message i.val
    buffered := message.length % 64
    total := UInt64.ofNat message.length }

theorem chain_succ (message : List UInt8) (count : Nat) :
    chain compress iv message (count + 1) =
      compress (chain compress iv message count) (blockAt message count) := by
  simp [chain, List.range_succ]

theorem chain_append (message rest : List UInt8) (count : Nat)
    (whole : 64 * count ≤ message.length) :
    chain compress iv (message ++ rest) count = chain compress iv message count := by
  have same : (List.range count).map (blockAt (message ++ rest)) =
      (List.range count).map (blockAt message) := by
    apply List.map_congr_left
    intro k member
    have less := List.mem_range.mp member
    exact blockAt_append message rest k (by omega)
  simp only [chain, same]

theorem new_absorbed : new iv = absorbed compress iv [] := by
  have zeros : (Vector.replicate 64 0 : Block) = Vector.ofFn fun i => bufferByte [] i.val := by
    apply Vector.ext
    intro i bound
    simp [bufferByte, leftover]
  simp only [new, absorbed, chain, ← zeros]
  rfl

theorem leftover_append (message chunk : List UInt8) (i : Nat) (bound : i < 64)
    (short : message.length % 64 + chunk.length < 64) :
    leftover (message ++ chunk) i = leftover message i := by
  have sameCount : (message.length + chunk.length) / 64 = message.length / 64 := by omega
  simp only [leftover, List.length_append, sameCount]
  by_cases long : 64 ≤ message.length
  · rw [if_pos (by omega), if_pos long, List.getD_append _ _ _ _ (by omega)]
  · rw [if_neg (by omega), if_neg long]

theorem copy_chunk (message chunk : List UInt8) (i : Nat)
    (written : i < message.length % 64 + chunk.length) :
    (if message.length % 64 ≤ i then
        (chunk[i - message.length % 64]?).getD (bufferByte message i)
      else bufferByte message i) =
      (message ++ chunk).getD (64 * (message.length / 64) + i) 0 := by
  by_cases old : i < message.length % 64
  · rw [if_neg (by omega), bufferByte, if_pos old, List.getD_append _ _ _ _ (by omega)]
  · have position : 64 * (message.length / 64) + i - message.length = i - message.length % 64 := by
      omega
    rw [if_pos (by omega), List.getD_append_right _ _ _ _ (by omega), position,
      List.getD_eq_getElem?_getD, List.getElem?_eq_getElem (by omega)]
    rfl

theorem absorbChunk_absorbed (message chunk : List UInt8) (total : UInt64)
    (present : 0 < chunk.length) (fits : message.length % 64 + chunk.length ≤ 64) :
    ({ absorbed compress iv message with total := total } : Midstate σ).absorbChunk compress chunk =
      some { absorbed compress iv (message ++ chunk) with total := total } := by
  simp only [absorbChunk, absorbed]
  rw [Buffer.copyFromSlice_inside _ _ _ _ (by omega) fits (by omega)]
  simp only [Option.bind_eq_bind, Option.bind_some, Option.pure_def]
  by_cases full : message.length % 64 + chunk.length = 64
  · have count : (message ++ chunk).length / 64 = message.length / 64 + 1 := by
      rw [List.length_append]; omega
    have none_left : (message ++ chunk).length % 64 = 0 := by
      rw [List.length_append]; omega
    have block : (Vector.ofFn fun i : Fin 64 =>
        if message.length % 64 ≤ i.val then
          (chunk[i.val - message.length % 64]?).getD
            (Vector.ofFn fun i : Fin 64 => bufferByte message i.val)[i]
        else (Vector.ofFn fun i : Fin 64 => bufferByte message i.val)[i]) =
        blockAt (message ++ chunk) (message.length / 64) := by
      apply Vector.ext
      intro i bound
      simpa using copy_chunk message chunk i (by omega)
    have buffer : blockAt (message ++ chunk) (message.length / 64) =
        Vector.ofFn fun i : Fin 64 => bufferByte (message ++ chunk) i.val := by
      apply Vector.ext
      intro i bound
      have long : 64 ≤ (message ++ chunk).length := by rw [List.length_append]; omega
      simp only [blockAt_getElem, Vector.getElem_ofFn, bufferByte, leftover, none_left, count,
        Nat.not_lt_zero, if_false, long, if_true, Nat.add_sub_cancel]
    simp only [full, if_true, block, count, none_left, chain_succ, ← buffer,
      chain_append compress iv message chunk _ (Nat.mul_div_le _ _)]
  · have count : (message ++ chunk).length / 64 = message.length / 64 := by
      rw [List.length_append]; omega
    have more : (message ++ chunk).length % 64 = message.length % 64 + chunk.length := by
      rw [List.length_append]; omega
    simp only [full, if_false, count, more, chain_append compress iv message chunk _ (Nat.mul_div_le _ _)]
    congr 3
    funext i
    have right : bufferByte (message ++ chunk) i.val =
        if i.val < message.length % 64 + chunk.length then
          (message ++ chunk).getD (64 * (message.length / 64) + i.val) 0
        else leftover (message ++ chunk) i.val := by
      simp only [bufferByte, more, count]
    simp only [Fin.getElem_fin, Vector.getElem_ofFn]
    rw [right]
    by_cases written : i.val < message.length % 64 + chunk.length
    · rw [if_pos written]
      exact copy_chunk message chunk i.val written
    · have beyond : chunk.length ≤ i.val - message.length % 64 := by omega
      rw [if_neg written, if_pos (by omega), List.getElem?_eq_none beyond, Option.getD_none,
        bufferByte, if_neg (by omega), leftover_append message chunk i.val i.isLt (by omega)]

theorem updateLoop_absorbed (message data : List UInt8) (total : UInt64) :
    ({ absorbed compress iv message with total := total } : Midstate σ).updateLoop compress data =
      some { absorbed compress iv (message ++ data) with total := total } := by
  rw [updateLoop]
  by_cases empty : data = []
  · simp [empty]
  · have present : 0 < data.length := List.length_pos_iff.mpr empty
    let n := min (64 - message.length % 64) data.length
    have progress : 0 < n := by omega
    have taken : (data.take n).length = n := by rw [List.length_take]; omega
    rw [dif_pos empty]
    change (if h : 0 < n then _ else _) = _
    rw [dif_pos progress]
    change (absorbChunk compress _ (data.take n)).bind
      (fun next => next.updateLoop compress (data.drop n)) = _
    rw [absorbChunk_absorbed compress iv message (data.take n) total (by omega) (by omega),
      Option.bind_some, updateLoop_absorbed (message ++ data.take n) (data.drop n) total,
      List.append_assoc, List.take_append_drop]
termination_by data.length
decreasing_by simp only [List.length_drop]; omega

theorem update_absorbed (message data : List UInt8) :
    (absorbed compress iv message).update compress data =
      some (absorbed compress iv (message ++ data)) := by
  have counted : (absorbed compress iv message).total + UInt64.ofNat data.length =
      UInt64.ofNat (message ++ data).length := by
    rw [List.length_append, UInt64.ofNat_add]
    rfl
  rw [update, counted]
  exact updateLoop_absorbed compress iv message data _

theorem updates_absorbed (message : List UInt8) (slices : List (List UInt8)) :
    (absorbed compress iv message).updates compress slices =
      some (absorbed compress iv (message ++ slices.flatten)) := by
  induction slices generalizing message with
  | nil => simp [updates]
  | cons data rest ih =>
    simp only [updates, List.foldlM_cons, update_absorbed compress iv, Option.bind_eq_bind,
      Option.bind_some]
    simpa [updates] using ih (message ++ data)

theorem updates_new (slices : List (List UInt8)) :
    (new iv).updates compress slices = some (absorbed compress iv slices.flatten) := by
  rw [new_absorbed compress iv, updates_absorbed, List.nil_append]

structure Represents (mid : Midstate σ) (message : List UInt8) : Prop where
  state : mid.state =
    ((List.range (message.length / 64)).map (blockAt message)).foldl compress iv
  buffered : mid.buffered = message.length % 64
  live : mid.buf.toList.take mid.buffered = message.drop (64 * (message.length / 64))
  counted : mid.totalLen.toNat = message.length

theorem absorbed_live (message : List UInt8) (i : Nat) (inside : i < message.length % 64) :
    (absorbed compress iv message).buf.toList.getD i 0 =
      message.getD (64 * (message.length / 64) + i) 0 := by
  have bound : i < 64 := by omega
  rw [List.getD_eq_getElem _ _ (by simpa using bound), Vector.getElem_toList]
  simp only [absorbed, Vector.getElem_ofFn, bufferByte, if_pos inside]

theorem absorbed_live_bytes (message : List UInt8) :
    (absorbed compress iv message).buf.toList.take (message.length % 64) =
      message.drop (64 * (message.length / 64)) := by
  have partition := Nat.div_add_mod message.length 64
  have short : message.length % 64 < 64 := Nat.mod_lt _ (by omega)
  apply List.ext_getElem
  · simp only [List.length_take, Vector.length_toList, List.length_drop]
    omega
  · intro i inBuffer inMessage
    have live : i < message.length % 64 := by
      rw [List.length_take] at inBuffer
      omega
    have byte := absorbed_live compress iv message i live
    rw [List.getElem_take, List.getElem_drop, ← List.getD_eq_getElem _ 0, byte,
      List.getD_eq_getElem _ _ (by omega)]

theorem absorbed_represents (message : List UInt8) (short : message.length < 2 ^ 64) :
    Represents compress iv (absorbed compress iv message) message where
  state := rfl
  buffered := rfl
  live := absorbed_live_bytes compress iv message
  counted := by
    rw [totalLen, absorbed, UInt64.toNat_ofNat']
    exact Nat.mod_eq_of_lt short

/-- Every cutting of a message is absorbed without a panic and leaves one and the same struct. -/
theorem updates_represent (slices : List (List UInt8)) (short : slices.flatten.length < 2 ^ 64) :
    ∃ mid, (new iv).updates compress slices = some mid ∧
      Represents compress iv mid slices.flatten ∧ mid.buffered < 64 ∧
      ∀ other : List (List UInt8), other.flatten = slices.flatten ->
        (new iv).updates compress other = some mid := by
  refine ⟨absorbed compress iv slices.flatten, updates_new compress iv slices,
    absorbed_represents compress iv _ short, Nat.mod_lt _ (by omega), fun other same => ?_⟩
  rw [updates_new, same]

theorem updates_represent_two_slices :
    ∃ mid, (new IV).updates Fips180.compress [List.replicate 60 1, List.replicate 10 2] = some mid ∧
      Represents Fips180.compress IV mid [List.replicate 60 1, List.replicate 10 2].flatten ∧
      mid.buffered < 64 ∧
      ∀ other : List (List UInt8),
        other.flatten = [List.replicate 60 1, List.replicate 10 2].flatten ->
          (new IV).updates Fips180.compress other = some mid :=
  updates_represent Fips180.compress IV _ (by decide)

end ScamMiner.Midstate
