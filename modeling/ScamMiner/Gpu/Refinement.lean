import ScamMiner.Gpu.Thread

set_option autoImplicit false

namespace ScamMiner.Gpu

open Fips180

-- What thread `nonce` has computed when it comes to publish, for any compression on the host.
structure ThreadRuns (host : State -> Block -> State) (message : List UInt8) (nonce : UInt64)
    (difficulty numBlocks : UInt32) (v : Verdict) : Prop where
  own : v.nonce = nonce
  blocks : message.length / 64 + numBlocks.toNat =
    blockCount (message ++ Decimal.text nonce.toNat).length
  words : ∀ b, b < numBlocks.toNat -> ∀ t (bound : t < 16), v.w.toList.getD (16 * b + t) 0 =
    (blockWords (blockAt (pad (message ++ Decimal.text nonce.toNat)) (message.length / 64 + b)))[t]
  state : v.h = ((List.range numBlocks.toNat).map fun b => blockWords
    (blockAt (pad (message ++ Decimal.text nonce.toNat)) (message.length / 64 + b))).foldl
      compressWords (Midstate.chain host IV message (message.length / 64))
  matched : v.matched = decide (difficulty * 4 ≤ zbitsLoop v.h.toList 0)

/-- The same when the host's compression is that of FIPS 180-4. -/
structure ThreadRefines (message : List UInt8) (nonce : UInt64) (difficulty numBlocks : UInt32)
    (v : Verdict) : Prop where
  own : v.nonce = nonce
  blocks : message.length / 64 + numBlocks.toNat =
    blockCount (message ++ Decimal.text nonce.toNat).length
  words : ∀ b, b < numBlocks.toNat -> ∀ t (bound : t < 16), v.w.toList.getD (16 * b + t) 0 =
    (blockWords (blockAt (pad (message ++ Decimal.text nonce.toNat)) (message.length / 64 + b)))[t]
  state : v.h = digestState compress initialState (message ++ Decimal.text nonce.toNat)
  matched : difficulty.toNat ≤ 64 -> (v.matched = true ↔ 4 * difficulty.toNat ≤
    Positional.leadingBits 8 ((sha256 (message ++ Decimal.text nonce.toNat)).map UInt8.toNat))

theorem threadNonce_correct (params : Params) (idx : UInt32)
    (inside : halves params.nonceStartLo params.nonceStartHi + idx.toNat < 2 ^ 64) :
    halves (threadNonce params idx).1 (threadNonce params idx).2 =
      halves params.nonceStartLo params.nonceStartHi + idx.toNat := by
  have idxBound := idx.toNat_lt
  have loBound := params.nonceStartLo.toNat_lt
  have sum := UInt32.toNat_add params.nonceStartLo idx
  have grown := UInt32.toNat_add params.nonceStartHi 1
  simp only [UInt32.reduceToNat] at grown
  unfold halves at inside
  simp only [threadNonce, halves]
  by_cases carry : params.nonceStartLo + idx < params.nonceStartLo
  · have wrapped := UInt32.lt_iff_toNat_lt.mp carry
    rw [if_pos carry]
    omega
  · have exact : ¬ (params.nonceStartLo + idx).toNat < params.nonceStartLo.toNat :=
      fun less => carry (UInt32.lt_iff_toNat_lt.mpr less)
    rw [if_neg carry]
    omega

theorem chunk_halves (chunkStart : UInt64) :
    halves chunkStart.toUInt32 (chunkStart >>> 32).toUInt32 = chunkStart.toNat := by
  have bound := chunkStart.toNat_lt
  have hi : ((chunkStart >>> 32).toUInt32).toNat = chunkStart.toNat / 2 ^ 32 := by
    rw [UInt64.toNat_toUInt32, UInt64.toNat_shiftRight, Nat.shiftRight_eq_div_pow]
    exact Nat.mod_eq_of_lt (by simp only [UInt64.reduceToNat, Nat.reduceMod]; omega)
  rw [halves, hi, UInt64.toNat_toUInt32]
  omega

theorem params_state (chunkStart : UInt64) (count difficulty nd numBlocks : UInt32)
    (buffered : Nat) (state : State) :
    (Params.new chunkStart count difficulty buffered nd numBlocks state).state = state := by
  obtain ⟨⟨entries⟩, size⟩ := state
  match entries, size with
  | [_, _, _, _, _, _, _, _], _ => rfl

theorem params_buffered (chunkStart : UInt64) (count difficulty nd numBlocks : UInt32)
    (buffered : Nat) (state : State) (short : buffered < 64) :
    (Params.new chunkStart count difficulty buffered nd numBlocks state).buffered.toNat =
      buffered := by
  change (UInt32.ofNat buffered).toNat = buffered
  rw [UInt32.toNat_ofNat']
  omega

theorem params_nonce (chunkStart : UInt64) (count difficulty nd numBlocks : UInt32)
    (buffered : Nat) (state : State) (idx : UInt32)
    (fits : chunkStart.toNat + idx.toNat < 2 ^ 64) :
    halves
        (threadNonce (Params.new chunkStart count difficulty buffered nd numBlocks state) idx).1
        (threadNonce (Params.new chunkStart count difficulty buffered nd numBlocks state) idx).2 =
      chunkStart.toNat + idx.toNat := by
  let params := Params.new chunkStart count difficulty buffered nd numBlocks state
  have start : halves params.nonceStartLo params.nonceStartHi = chunkStart.toNat :=
    chunk_halves chunkStart
  have sum := threadNonce_correct params idx (by omega)
  rwa [start] at sum

theorem verdict_nonce (v : Verdict) : v.nonce.toNat = halves v.nlo v.nhi := by
  have loBound := v.nlo.toNat_lt
  have hiBound := v.nhi.toNat_lt
  have shifted : (v.nhi.toUInt64 <<< 32).toNat = v.nhi.toNat <<< 32 := by
    rw [UInt64.toNat_shiftLeft, UInt32.toNat_toUInt64]
    refine Nat.mod_eq_of_lt ?_
    simp only [Nat.shiftLeft_eq, UInt64.reduceToNat, Nat.reduceMod, Nat.reducePow] at *
    omega
  rw [Verdict.nonce, UInt64.toNat_or, shifted, UInt32.toNat_toUInt64, Nat.or_comm,
    ← Nat.shiftLeft_add_eq_or_of_lt loBound, Nat.shiftLeft_eq, halves]

theorem digestState_split (message tail : List UInt8) (numBlocks : Nat)
    (count : message.length / 64 + numBlocks = blockCount (message ++ tail).length) :
    digestState compress initialState (message ++ tail) =
      ((List.range numBlocks).map fun b =>
        blockWords (blockAt (pad (message ++ tail)) (message.length / 64 + b))).foldl
          compressWords (Midstate.chain compress IV message (message.length / 64)) := by
  have whole : (List.range (message.length / 64)).map (blockAt (pad (message ++ tail))) =
      (List.range (message.length / 64)).map (blockAt message) := by
    apply List.map_congr_left
    intro k member
    have less := List.mem_range.mp member
    rw [pad, List.append_assoc]
    exact blockAt_append message _ k (by omega)
  rw [digestState, blocks, ← count, List.range_add, List.map_append, whole, List.foldl_append,
    List.map_map]
  change List.foldl compress (Midstate.chain compress IV message (message.length / 64)) _ = _
  rw [List.foldl_map, List.foldl_map]
  rfl

theorem digest_bits (state : State) (count : Nat) (within : count ≤ 256) :
    count ≤ Positional.leadingBits 8 ((stateBytes state).map UInt8.toNat) ↔
      count ≤ Positional.leadingBits 32 (stateWords state) := by
  have bytes : (stateBytes state).length = 32 := stateToBytes_length state
  have words : (stateWords state).length = 8 := by simp [stateWords]
  have small : ∀ digit ∈ (stateBytes state).map UInt8.toNat, digit < 2 ^ 8 := by
    intro digit member
    obtain ⟨b, _, rfl⟩ := List.mem_map.mp member
    exact b.toNat_lt
  have same : Positional.value (2 ^ 8) ((stateBytes state).map UInt8.toNat) =
      Positional.value (2 ^ 32) (stateWords state) := stateToBytes_value state
  rw [Positional.le_leadingBits_iff 8 _ _ small (by rw [List.length_map, bytes]; omega),
    Positional.le_leadingBits_iff 32 _ _ (stateWords_small state) (by omega), List.length_map,
    bytes, words, same]

theorem dispatchData_correct (host : State -> Block -> State) (message : List UInt8)
    (difficulty : UInt32) (chunkStart : UInt64) (count nd : UInt32) (short : nd.toNat ≤ 20) :
    ∃ words numBlocks, dispatchData (Midstate.absorbed host IV message) difficulty
        (chunkStart, count, nd) =
      some (words, Params.new chunkStart count difficulty (message.length % 64) nd numBlocks
        (Midstate.chain host IV message (message.length / 64))) ∧
      64 * numBlocks.toNat = paddedLen (message.length % 64) nd.toNat ∧
      ∀ t (bound : t < 32), words[t] = tailWord (holeByte message nd.toNat) t := by
  obtain ⟨words, numBlocks, built, size, packed⟩ := buildTailWords_correct message
    (Midstate.absorbed host IV message).buf nd (Midstate.absorbed_live host IV message) short
  refine ⟨words, numBlocks, ?_, size, packed⟩
  simp only [dispatchData, Midstate.midstateParts, Midstate.totalLen]
  change (buildTailWords _ (message.length % 64) (UInt64.ofNat message.length) nd).bind _ = _
  rw [built]
  rfl

section
variable (message : List UInt8) (n : Nat) (nd numBlocks : UInt32)
  (digits : (Decimal.digits n).length = nd.toNat)
  (size : 64 * numBlocks.toNat = paddedLen (message.length % 64) nd.toNat)
include digits size

theorem tail_blockCount :
    message.length / 64 + numBlocks.toNat = blockCount (message ++ Decimal.text n).length := by
  have length : (message ++ Decimal.text n).length = message.length + nd.toNat := by
    rw [List.length_append, Decimal.text_length, digits]
  have whole := tail_blocks message.length nd.toNat
  rw [length]
  omega

-- The words a thread compresses, whatever its array held before.
theorem overlaid_words (params : Params) (uninit words : TailWords) (lo hi : UInt32)
    (sameDigits : params.nd = nd) (sameBlocks : params.numBlocks = numBlocks)
    (buffered : params.buffered.toNat = message.length % 64) (short : nd.toNat ≤ 20)
    (packed : ∀ t (bound : t < 32), words[t] = tailWord (holeByte message nd.toNat) t)
    (halved : halves lo hi = n) :
    ∃ w filled, copyWords uninit words numBlocks = some w ∧
      overlayDigits params { curLo := lo, curHi := hi, w := w } = some filled ∧
      WordsHold filled.w numBlocks.toNat
        (paddedByte (message ++ Decimal.text n) (message.length / 64)) := by
  subst sameDigits sameBlocks
  have bounds := paddedLen_bounds (message.length % 64) params.nd.toNat (by omega) short
  obtain ⟨w, copied, same⟩ := copyWords_correct uninit words params.numBlocks (by omega)
  obtain ⟨filled, overlaid, holds⟩ := overlayDigits_correct message n params buffered digits short
    params.numBlocks.toNat ⟨lo, hi, w⟩ size.symm halved
    (fun t bound live => (same t bound live).trans (packed t bound))
  refine ⟨w, filled, copied, overlaid, fun t bound live => ?_⟩
  have byte (k : Nat) (small : k < 4) := filledByte_padded message n params.nd.toNat (4 * t + k)
    digits short (by omega)
  rw [holds t bound live, tailWord, tailWord]
  exact congr (congr (congr (congrArg beWord (byte 0 (by omega))) (byte 1 (by omega)))
    (byte 2 (by omega))) (byte 3 (by omega))

end

theorem kernelThread_runs (host : State -> Block -> State) (message : List UInt8)
    (difficulty : UInt32) (chunkStart : UInt64) (count nd numBlocks : UInt32)
    (words uninit : TailWords) (dialect : Dialect) (idx : UInt32) (inside : idx < count)
    (fits : chunkStart.toNat + idx.toNat < 2 ^ 64) (short : nd.toNat ≤ 20)
    (digits : (Decimal.digits (chunkStart.toNat + idx.toNat)).length = nd.toNat)
    (size : 64 * numBlocks.toNat = paddedLen (message.length % 64) nd.toNat)
    (packed : ∀ t (bound : t < 32), words[t] = tailWord (holeByte message nd.toNat) t) :
    ∃ v, kernelThread dialect uninit words
        (Params.new chunkStart count difficulty (message.length % 64) nd numBlocks
          (Midstate.chain host IV message (message.length / 64))) idx = some (some v) ∧
      ThreadRuns host message (chunkStart + idx.toUInt64) difficulty numBlocks v := by
  let params := Params.new chunkStart count difficulty (message.length % 64) nd numBlocks
    (Midstate.chain host IV message (message.length / 64))
  have halved : halves (threadNonce params idx).1 (threadNonce params idx).2 =
      chunkStart.toNat + idx.toNat := params_nonce _ _ _ _ _ _ _ idx fits
  have nonce : (chunkStart + idx.toUInt64).toNat = chunkStart.toNat + idx.toNat := by
    rw [UInt64.toNat_add, UInt32.toNat_toUInt64]
    exact Nat.mod_eq_of_lt fits
  have buffered : params.buffered.toNat = message.length % 64 :=
    params_buffered _ _ _ _ _ _ _ (Nat.mod_lt _ (by omega))
  obtain ⟨w, filled, copied, overlaid, padded⟩ := overlaid_words message _ nd numBlocks digits size
    params uninit words _ _ rfl rfl buffered short packed halved
  -- the rounds over one or two blocks
  have bounds := paddedLen_bounds (message.length % 64) nd.toNat (by omega) short
  have rounds : dialect.compressBlock = compressWords :=
    funext fun h => funext fun m => compressBlock_correct dialect h m
  have start : params.state = Midstate.chain host IV message (message.length / 64) :=
    params_state _ _ _ _ _ _ _
  have hashed := compressBlocks_correct dialect.compressBlock filled.w _ (message.length / 64)
    numBlocks params.state (by omega) padded
  rw [rounds, start] at hashed
  let h := ((List.range numBlocks.toNat).map fun b => blockWords
    (blockAt (pad (message ++ Decimal.text (chunkStart.toNat + idx.toNat)))
      (message.length / 64 + b))).foldl compressWords
        (Midstate.chain host IV message (message.length / 64))
  refine ⟨{ nlo := (threadNonce params idx).1, nhi := (threadNonce params idx).2
            w := filled.w, h := h
            matched := decide (params.difficulty * 4 ≤ zbitsLoop h.toList 0) }, ?_, ?_⟩
  · have below : ¬ params.count ≤ idx := by
      rw [UInt32.le_iff_toNat_le]
      exact Nat.not_le.mpr (UInt32.lt_iff_toNat_lt.mp inside)
    have skip : params.numBlocks = numBlocks := rfl
    change kernelThread dialect uninit words params idx = _
    simp only [kernelThread, if_neg below, skip, copied, overlaid, rounds, start, hashed,
      Option.bind_eq_bind, Option.bind_some, Option.pure_def, h]
  · constructor
    · apply UInt64.toNat.inj
      rw [verdict_nonce, nonce]
      exact halved
    · rw [nonce]
      exact tail_blockCount message _ nd numBlocks digits size
    · intro b few t bound
      have position : 16 * b + t < 32 := by omega
      rw [nonce, List.getD_eq_getElem _ _ (by simpa using position), Vector.getElem_toList,
        padded _ position (by omega), tailWord_block _ _ _ _ bound]
    · rw [nonce]
    · rfl

theorem dispatch_runs (host : State -> Block -> State) (message : List UInt8)
    (difficulty : UInt32) (d : Dispatch) (ok : DispatchOk d) :
    ∃ words params, dispatchData (Midstate.absorbed host IV message) difficulty d =
        some (words, params) ∧ params.count = d.2.1 ∧
      ∀ (dialect : Dialect) (uninit : TailWords) (idx : UInt32), idx < d.2.1 ->
        ∃ v, kernelThread dialect uninit words params idx = some (some v) ∧
          ThreadRuns host message (d.1 + idx.toUInt64) difficulty params.numBlocks v := by
  obtain ⟨chunkStart, count, nd⟩ := d
  have uniform := ok.uniform
  have top := ok.inside
  simp only at top
  have short : nd.toNat ≤ 20 := by
    have first := uniform 0 ok.nonempty
    have bound := Decimal.digits_length_u64 chunkStart.toNat chunkStart.toNat_lt
    simp only [Nat.add_zero] at first
    omega
  obtain ⟨words, numBlocks, data, size, packed⟩ := dispatchData_correct host message difficulty
    chunkStart count nd short
  refine ⟨words, _, data, rfl, fun dialect uninit idx inside => ?_⟩
  have less := UInt32.lt_iff_toNat_lt.mp inside
  exact kernelThread_runs host message difficulty chunkStart count nd numBlocks words uninit dialect
    idx inside (by simp only at less; omega) short (uniform idx.toNat less) size packed

theorem ThreadRuns.refines {message : List UInt8} {nonce : UInt64} {difficulty numBlocks : UInt32}
    {v : Verdict} (runs : ThreadRuns compress message nonce difficulty numBlocks v) :
    ThreadRefines message nonce difficulty numBlocks v := by
  have hashed : v.h = digestState compress initialState (message ++ Decimal.text nonce.toNat) := by
    rw [runs.state, ← digestState_split message _ _ runs.blocks]
  refine ⟨runs.own, runs.blocks, runs.words, hashed, fun within => ?_⟩
  rw [runs.matched, sha256, digest_bits _ _ (by omega), ← hashed]
  exact matched_correct v.h difficulty (by omega)

theorem range_fits (start end_ : UInt64) (ordered : start ≤ end_) :
    start.toNat + (end_ - start + 1).toNat ≤ 2 ^ 64 := by
  have low := UInt64.le_iff_toNat_le.mp ordered
  have bound := end_.toNat_lt
  rw [UInt64.toNat_add, UInt64.toNat_sub_of_le _ _ ordered]
  simp only [UInt64.reduceToNat]
  omega

/-- For every dispatch of a task's range, every thread and every shader. -/
theorem kernelThread_refines (message : List UInt8) (difficulty : UInt32) (start end_ : UInt64)
    (ordered : start ≤ end_) (d : Dispatch) (issued : Issues start (end_ - start + 1) d) :
    ∃ mid words params, (Midstate.new IV).update compress message = some mid ∧
      dispatchData mid difficulty d = some (words, params) ∧
      ∀ (dialect : Dialect) (uninit : TailWords) (idx : UInt32), idx < d.2.1 ->
        ∃ v, kernelThread dialect uninit words params idx = some (some v) ∧
          ThreadRefines message (d.1 + idx.toUInt64) difficulty params.numBlocks v := by
  have ok := (issues_ok start _ (range_fits start end_ ordered) d issued).1
  obtain ⟨words, params, data, -, threads⟩ := dispatch_runs compress message difficulty d ok
  refine ⟨_, words, params, ?_, data, fun dialect uninit idx inside => ?_⟩
  · rw [Midstate.new_absorbed compress IV, Midstate.update_absorbed, List.nil_append]
  · obtain ⟨v, ran, runs⟩ := threads dialect uninit idx inside
    exact ⟨v, ran, runs.refines⟩

theorem kernelThread_refines_first_chunk :
    ∃ mid words params, (Midstate.new IV).update compress [112, 95] = some mid ∧
      dispatchData mid 1 (95, chunkSize 95 6, decimalDigits 95) = some (words, params) ∧
      ∀ (dialect : Dialect) (uninit : TailWords) (idx : UInt32), idx < chunkSize 95 6 ->
        ∃ v, kernelThread dialect uninit words params idx = some (some v) ∧
          ThreadRefines [112, 95] (95 + idx.toUInt64) 1 params.numBlocks v :=
  kernelThread_refines [112, 95] 1 95 100 (by decide)
    (95, chunkSize 95 6, decimalDigits 95) (issues_first 95 6 (by decide))

end ScamMiner.Gpu
