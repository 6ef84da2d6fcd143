import ScamMiner.Sha.Absorb

set_option autoImplicit false

namespace ScamMiner.Midstate

open Fips180

variable {σ : Type} (compress : σ -> Block -> σ) (iv : σ)

def openBlock (message : List UInt8) (k pos : Nat) (stale : Nat -> UInt8) : Block :=
  Vector.ofFn fun i => if i.val < pos then message.getD (64 * k + i.val) 0 else stale i.val

def finishing (message : List UInt8) (k pos : Nat) (stale : Nat -> UInt8) : Finishing σ :=
  { state := chain compress iv message k, buf := openBlock message k pos stale, pos := pos }

theorem makeRoom_open (message : List UInt8) (k pos : Nat) (stale : Nat -> UInt8)
    (room : pos < 64) :
    (finishing compress iv message k pos stale).makeRoom compress =
      finishing compress iv message k pos stale := by
  simp only [Finishing.makeRoom, finishing, show pos ≠ 64 by omega, if_false]

theorem makeRoom_full (message : List UInt8) (k : Nat) (stale : Nat -> UInt8) :
    (finishing compress iv message k 64 stale).makeRoom compress =
      finishing compress iv message (k + 1) 0 fun _ => 0 := by
  have block : openBlock message k 64 stale = blockAt message k := by
    apply Vector.ext
    intro i bound
    simp [openBlock]
  have zeros : (Vector.replicate 64 0 : Block) = openBlock message (k + 1) 0 fun _ => 0 := by
    apply Vector.ext
    intro i bound
    simp [openBlock]
  simp only [Finishing.makeRoom, finishing, if_true, Finishing.flush, block, chain_succ, zeros]

theorem copy_open (message chunk : List UInt8) (k pos : Nat) (stale : Nat -> UInt8)
    (consumed : 64 * k + pos = message.length) (fits : pos + chunk.length ≤ 64) :
    Buffer.copyFromSlice (openBlock message k pos stale) pos (pos + chunk.length) chunk =
      some (openBlock (message ++ chunk) k (pos + chunk.length) stale) := by
  rw [Buffer.copyFromSlice_inside _ _ _ _ (by omega) fits (by omega)]
  apply congrArg some
  apply Vector.ext
  intro i bound
  simp only [openBlock, Fin.getElem_fin, Vector.getElem_ofFn]
  by_cases old : i < pos
  · rw [if_neg (by omega), if_pos old, if_pos (by omega), List.getD_append _ _ _ _ (by omega)]
  · rw [if_pos (by omega)]
    by_cases written : i < pos + chunk.length
    · have position : 64 * k + i - message.length = i - pos := by omega
      rw [if_pos written, List.getElem?_eq_getElem (by omega), Option.getD_some,
        List.getD_append_right _ _ _ _ (by omega), position, List.getD_eq_getElem _ _ (by omega)]
    · rw [if_neg written, if_neg old, List.getElem?_eq_none (by omega), Option.getD_none]

def tailStop (message tail : List UInt8) (k pos : Nat) (stale : Nat -> UInt8) : Finishing σ :=
  if pos + tail.length ≤ 64 then
    finishing compress iv (message ++ tail) k (pos + tail.length) stale
  else
    let last := (message.length + tail.length - 1) / 64
    finishing compress iv (message ++ tail) last (message.length + tail.length - 64 * last) fun _ => 0

theorem tailStop_step (message chunk rest : List UInt8) (k pos : Nat) (stale : Nat -> UInt8) :
    tailStop compress iv (message ++ chunk) rest k (pos + chunk.length) stale =
      tailStop compress iv message (chunk ++ rest) k pos stale := by
  simp only [tailStop, List.length_append, List.append_assoc, Nat.add_assoc]

theorem tailStop_flush (message tail : List UInt8) (k : Nat) (stale : Nat -> UInt8)
    (present : 0 < tail.length) (consumed : 64 * k + 64 = message.length) :
    tailStop compress iv message tail (k + 1) 0 (fun _ => 0) =
      tailStop compress iv message tail k 64 stale := by
  simp only [tailStop, Nat.zero_add, show ¬ 64 + tail.length ≤ 64 by omega, if_false]
  by_cases fits : tail.length ≤ 64
  · have last : (message.length + tail.length - 1) / 64 = k + 1 := by omega
    have left : message.length + tail.length - 64 * (k + 1) = tail.length := by omega
    simp only [fits, if_true, last, left]
  · simp only [fits, if_false]

theorem tailLoop_flush (message tail : List UInt8) (k : Nat) (stale : Nat -> UInt8)
    (nonempty : tail ≠ []) :
    tailLoop compress (finishing compress iv message k 64 stale) tail =
      tailLoop compress (finishing compress iv message (k + 1) 0 fun _ => 0) tail := by
  conv_lhs => rw [tailLoop]
  conv_rhs => rw [tailLoop]
  simp only [nonempty, ne_eq, not_false_eq_true, dif_pos, makeRoom_full,
    makeRoom_open compress iv message (k + 1) 0 _ (by omega)]

theorem tailLoop_copy (message tail : List UInt8) (k pos : Nat) (stale : Nat -> UInt8)
    (nonempty : tail ≠ []) (consumed : 64 * k + pos = message.length) (room : pos < 64) :
    let n := min (64 - pos) tail.length
    tailLoop compress (finishing compress iv message k pos stale) tail =
      tailLoop compress (finishing compress iv (message ++ tail.take n) k (pos + n) stale)
        (tail.drop n) := by
  intro n
  have present : 0 < tail.length := List.length_pos_iff.mpr nonempty
  have taken : (tail.take n).length = n := by rw [List.length_take]; omega
  have copied := copy_open message (tail.take n) k pos stale consumed (by omega)
  rw [taken] at copied
  conv_lhs => rw [tailLoop, dif_pos nonempty]
  simp only [makeRoom_open compress iv message k pos stale room]
  rw [dif_pos (by simp only [finishing]; omega)]
  simp only [finishing]
  rw [copied, Option.bind_some, chain_append compress iv _ _ _ (by omega)]

theorem tailLoop_finishing (message tail : List UInt8) (k pos : Nat) (stale : Nat -> UInt8)
    (consumed : 64 * k + pos = message.length) (inside : pos ≤ 64) :
    tailLoop compress (finishing compress iv message k pos stale) tail =
      some (tailStop compress iv message tail k pos stale) := by
  by_cases empty : tail = []
  · rw [tailLoop]
    simp [empty, tailStop, inside]
  · have present : 0 < tail.length := List.length_pos_iff.mpr empty
    -- the loop head flushes a full block; afterwards there is room for at least one byte
    obtain ⟨k', pos', stale', consumed', room, sameLoop, sameStop⟩ :
        ∃ k' pos' stale', 64 * k' + pos' = message.length ∧ pos' < 64 ∧
          tailLoop compress (finishing compress iv message k pos stale) tail =
            tailLoop compress (finishing compress iv message k' pos' stale') tail ∧
          tailStop compress iv message tail k' pos' stale' =
            tailStop compress iv message tail k pos stale := by
      by_cases full : pos = 64
      · subst full
        exact ⟨k + 1, 0, fun _ => 0, by omega, by omega,
          tailLoop_flush compress iv message tail k stale empty,
          tailStop_flush compress iv message tail k stale present consumed⟩
      · exact ⟨k, pos, stale, consumed, by omega, rfl, rfl⟩
    have taken : (tail.take (min (64 - pos') tail.length)).length = min (64 - pos') tail.length := by
      rw [List.length_take]; omega
    have moved := tailStop_step compress iv message (tail.take (min (64 - pos') tail.length))
      (tail.drop (min (64 - pos') tail.length)) k' pos' stale'
    rw [taken, List.take_append_drop] at moved
    rw [sameLoop, tailLoop_copy compress iv message tail k' pos' stale' empty consumed' room,
      tailLoop_finishing _ _ k' _ stale' (by rw [List.length_append]; omega) (by omega),
      moved, sameStop]
termination_by tail.length
decreasing_by simp only [List.length_drop]; omega

theorem toBeBytes_correct (n : UInt64) : toBeBytes n = be64 n.toNat := by
  simp only [toBeBytes, be64, List.range, List.range.loop, List.map_cons, List.map_nil,
    List.cons.injEq, and_true]
  refine ⟨?_, ?_, ?_, ?_, ?_, ?_, ?_, ?_⟩ <;> apply UInt8.toNat.inj <;>
    simp [Nat.shiftRight_eq_div_pow]

-- A last block whose length field did not fit: the bytes behind `0x80` are stale.
def gapBlock (message : List UInt8) (k pos : Nat) (stale : Nat -> UInt8) : Block :=
  Vector.ofFn fun i =>
    if i.val < pos then message.getD (64 * k + i.val) 0
    else if i.val = pos then 0x80 else stale i.val

theorem mark_open (message : List UInt8) (k pos : Nat) (stale : Nat -> UInt8) (room : pos < 64) :
    Buffer.store (openBlock message k pos stale) pos 0x80 =
      some (gapBlock message k pos stale) := by
  rw [Buffer.store_inside _ _ _ room]
  apply congrArg some
  apply Vector.ext
  intro i bound
  simp only [Vector.getElem_set, openBlock, gapBlock, Vector.getElem_ofFn]
  by_cases here : i = pos
  · simp [here]
  · simp [here, Ne.symm here]

theorem close_byte (message : List UInt8) (k lo i : Nat) (byte : UInt8) (bound : i < 64)
    (kept : i < lo -> byte = (pad message).getD (64 * k + i) 0)
    (marked : message.length < 64 * k + lo)
    (last : k + 1 = blockCount message.length) :
    (if 56 ≤ i then
        ((be64 (8 * message.length))[i - 56]?).getD (if lo ≤ i ∧ i < 56 then 0 else byte)
      else if lo ≤ i ∧ i < 56 then 0 else byte) = (pad message).getD (64 * k + i) 0 := by
  by_cases field : 56 ≤ i
  · have position : 64 * k + i + 8 - 64 * blockCount message.length = i - 56 := by omega
    have inside : i - 56 < (be64 (8 * message.length)).length := by
      rw [be64_length]; omega
    rw [if_pos field, pad_bitLength message (64 * k + i) (by omega), position]
    rw [List.getD_eq_getElem _ _ inside, List.getElem?_eq_getElem inside, Option.getD_some]
  · rw [if_neg field]
    by_cases before : i < lo
    · rw [if_neg (by omega), kept before]
    · rw [if_pos (by omega), pad_zero message (64 * k + i) (by omega) (by omega)]

theorem close_block (message : List UInt8) (buf : Block) (k lo : Nat) (small : lo ≤ 56)
    (kept : ∀ i (bound : i < 64), i < lo -> buf[i] = (pad message).getD (64 * k + i) 0)
    (marked : message.length < 64 * k + lo)
    (last : k + 1 = blockCount message.length) :
    (Buffer.fill buf lo 56 0).bind (fun cleared =>
        Buffer.copyFromSlice cleared 56 64 (be64 (8 * message.length))) =
      some (blockAt (pad message) k) := by
  rw [Buffer.fill_inside _ _ _ _ small (by omega), Option.bind_some,
    Buffer.copyFromSlice_inside _ _ _ _ (by omega) (by omega) (by simp)]
  apply congrArg some
  apply Vector.ext
  intro i bound
  simp only [Fin.getElem_fin, Vector.getElem_ofFn, blockAt_getElem]
  exact close_byte message k lo i buf[i] bound (kept i bound) marked last

theorem padLast_finishing (message : List UInt8) (k pos : Nat) (stale : Nat -> UInt8)
    (bitLen : UInt64) (sized : toBeBytes bitLen = be64 (8 * message.length))
    (consumed : 64 * k + pos = message.length) (inside : pos ≤ 64) :
    padLast compress (finishing compress iv message k pos stale) bitLen =
      if pos = 64 then none
      else if pos < 56 then
        some (compress (chain compress iv message k) (blockAt (pad message) k))
      else
        some (compress (compress (chain compress iv message k) (gapBlock message k pos stale))
          (blockAt (pad message) (k + 1))) := by
  by_cases full : pos = 64
  · simp [padLast, finishing, full, Buffer.store_outside]
  · have count : blockCount message.length = if pos < 56 then k + 1 else k + 2 := by
      unfold blockCount
      split <;> omega
    simp only [full, if_false]
    simp only [padLast, finishing, mark_open message k pos stale (by omega), Option.bind_eq_bind,
      Option.bind_some, sized]
    by_cases short : pos < 56
    · have closed := close_block message (gapBlock message k pos stale) k (pos + 1) (by omega)
        (by
          intro i bound before
          simp only [gapBlock, Vector.getElem_ofFn]
          by_cases live : i < pos
          · rw [if_pos live, pad_message message _ (by omega)]
          · have here : i = pos := by omega
            rw [if_neg live, if_pos here, here, consumed, pad_marker])
        (by omega) (by rw [count, if_pos short])
      simp only [short, if_true, show ¬ 56 < pos + 1 by omega, if_false]
      rw [← Option.bind_assoc, closed]
      rfl
    · have closed := close_block message (Vector.replicate 64 0) (k + 1) 0 (by omega)
        (by intro i bound before; omega) (by omega) (by rw [count, if_neg short])
      simp only [short, if_false, show 56 < pos + 1 by omega, if_true, Finishing.flush]
      rw [← Option.bind_assoc, closed]
      rfl

-- Buffer bytes that the tail does not overwrite; a flush in the loop has cleared them.
def stale (message tail : List UInt8) (i : Nat) : UInt8 :=
  if message.length % 64 + tail.length ≤ 64 then leftover message i else 0

theorem tailStop_absorbed (message tail : List UInt8) :
    ∃ k pos, tailStop compress iv message tail (message.length / 64) (message.length % 64)
        (leftover message) = finishing compress iv (message ++ tail) k pos (stale message tail) ∧
      64 * k + pos = (message ++ tail).length ∧ pos ≤ 64 ∧
      (pos = 64 ↔ tail ≠ [] ∧ (message ++ tail).length % 64 = 0) := by
  rw [List.length_append, ← List.length_pos_iff]
  by_cases fits : message.length % 64 + tail.length ≤ 64
  · have kept : stale message tail = leftover message := by
      funext i
      simp [stale, fits]
    refine ⟨message.length / 64, message.length % 64 + tail.length, ?_, by omega, fits, by omega⟩
    rw [tailStop, if_pos fits, kept]
  · have cleared : stale message tail = fun _ => 0 := by
      funext i
      simp [stale, fits]
    refine ⟨_, _, by rw [tailStop, if_neg fits, cleared], by omega, by omega, by omega⟩

/-- The blocks that `finish_raw` hands to the compression function, over `update`'s as well. -/
def finishBlocks (message tail : List UInt8) : List Block :=
  let whole := message ++ tail
  let k := whole.length / 64
  (List.range k).map (blockAt whole) ++
    if whole.length % 64 < 56 then [blockAt (pad whole) k]
    else [gapBlock whole k (whole.length % 64) (stale message tail), blockAt (pad whole) (k + 1)]

theorem bitLen_correct (message tail : List UInt8) :
    toBeBytes ((UInt64.ofNat message.length + UInt64.ofNat tail.length) * 8) =
      be64 (8 * (message ++ tail).length) := by
  have wrapped : ((UInt64.ofNat message.length + UInt64.ofNat tail.length) * 8).toNat =
      (8 * (message ++ tail).length) % 2 ^ 64 := by
    rw [List.length_append]
    simp only [UInt64.toNat_mul, UInt64.toNat_add, UInt64.toNat_ofNat', UInt64.reduceToNat]
    omega
  rw [toBeBytes_correct, wrapped, be64_wrap]

theorem finishRaw_absorbed (message tail : List UInt8) :
    (absorbed compress iv message).finishRaw compress tail =
      if tail ≠ [] ∧ (message ++ tail).length % 64 = 0 then none
      else some ((finishBlocks message tail).foldl compress iv) := by
  obtain ⟨k, pos, stops, consumed, inside, full⟩ := tailStop_absorbed compress iv message tail
  have looped := tailLoop_finishing compress iv message tail (message.length / 64)
    (message.length % 64) (leftover message) (by omega) (by omega)
  rw [stops] at looped
  have started : ({ state := (absorbed compress iv message).state
                    buf := (absorbed compress iv message).buf
                    pos := (absorbed compress iv message).buffered } : Finishing σ) =
      finishing compress iv message (message.length / 64) (message.length % 64)
        (leftover message) := rfl
  have counted : (absorbed compress iv message).total = UInt64.ofNat message.length := rfl
  rw [finishRaw, started, looped, Option.bind_some, counted,
    padLast_finishing compress iv _ k pos _ _ (bitLen_correct message tail) consumed inside]
  by_cases aligned : pos = 64
  · rw [if_pos aligned, if_pos (full.mp aligned)]
  · have counted : (message ++ tail).length / 64 = k := by omega
    have left : (message ++ tail).length % 64 = pos := by omega
    rw [if_neg aligned, if_neg (fun both => aligned (full.mpr both))]
    simp only [finishBlocks, counted, left]
    by_cases short : pos < 56
    · simp [short, chain]
    · simp [short, chain]

end ScamMiner.Midstate
