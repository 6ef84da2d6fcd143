import ScamMiner.Gpu.Division
import ScamMiner.Gpu.Rounds

set_option autoImplicit false

namespace ScamMiner.Gpu

open Fips180

def dispatchData (mid : Midstate State) (difficulty : UInt32) (d : Dispatch) :
    Option (TailWords × Params) := do
  let (state, partialBlock, buffered) := mid.midstateParts
  let (words, numBlocks) ← buildTailWords partialBlock buffered mid.totalLen d.2.2
  return (words, Params.new d.1 d.2.1 difficulty buffered d.2.2 numBlocks state)

-- Byte `j` of the tail once the last `i` of the `nd` digits of `n` are in.
def filledByte (message : List UInt8) (n nd i j : Nat) : UInt8 :=
  if message.length % 64 + (nd - i) ≤ j ∧ j < message.length % 64 + nd then
    (Decimal.text n).getD (j - message.length % 64) 0
  else holeByte message nd j

theorem filledByte_zero (message : List UInt8) (n nd : Nat) :
    filledByte message n nd 0 = holeByte message nd := by
  funext j
  rw [filledByte, if_neg (by omega)]

theorem filledByte_hole (message : List UInt8) (n nd i : Nat) (more : i < nd) (short : nd ≤ 20) :
    filledByte message n nd i (message.length % 64 + (nd - 1 - i)) = 0 := by
  have bounds := paddedLen_bounds (message.length % 64) nd (by omega) short
  rw [filledByte, if_neg (by omega), holeByte, if_neg (by omega), if_neg (by omega),
    if_neg (by omega)]

theorem filledByte_succ (message : List UInt8) (n nd i : Nat) (more : i < nd)
    (count : (Decimal.digits n).length = nd) :
    filledByte message n nd (i + 1) = Function.update (filledByte message n nd i)
      (message.length % 64 + (nd - 1 - i)) (Decimal.ascii (n / 10 ^ i % 10)) := by
  funext j
  by_cases here : j = message.length % 64 + (nd - 1 - i)
  · subst here
    have position : message.length % 64 + (nd - 1 - i) - message.length % 64 = nd - 1 - i := by
      omega
    have digit := Decimal.text_getD n (nd - 1 - i) (by omega)
    have exponent : (Decimal.digits n).length - 1 - (nd - 1 - i) = i := by omega
    rw [exponent] at digit
    rw [Function.update_self, filledByte, if_pos (by omega), position, digit]
  · rw [Function.update_of_ne here, filledByte, filledByte]
    by_cases digits : message.length % 64 + (nd - i) ≤ j ∧ j < message.length % 64 + nd
    · rw [if_pos digits, if_pos (by omega)]
    · rw [if_neg digits, if_neg (by omega)]

theorem tailWord_other (stream : Nat -> UInt8) (pos t : Nat) (b : UInt8) (differ : t ≠ pos / 4) :
    tailWord (Function.update stream pos b) t = tailWord stream t := by
  simp only [tailWord]
  rw [Function.update_of_ne (by omega), Function.update_of_ne (by omega),
    Function.update_of_ne (by omega), Function.update_of_ne (by omega)]

theorem beWord_or (b0 b1 b2 b3 b : UInt8) :
    beWord 0 b1 b2 b3 ||| (b.toUInt32 <<< 24) = beWord b b1 b2 b3 ∧
      beWord b0 0 b2 b3 ||| (b.toUInt32 <<< 16) = beWord b0 b b2 b3 ∧
      beWord b0 b1 0 b3 ||| (b.toUInt32 <<< 8) = beWord b0 b1 b b3 ∧
      beWord b0 b1 b2 0 ||| b.toUInt32 = beWord b0 b1 b2 b := by
  have zero (n : UInt32) : (0 : UInt8).toUInt32 <<< n = 0 := UInt32.zero_shiftLeft
  have last : (0 : UInt8).toUInt32 = 0 := rfl
  have swap (x y z : UInt32) : x ||| y ||| z = x ||| z ||| y := by ac_rfl
  simp only [beWord]
  refine ⟨?_, ?_, ?_, ?_⟩
  · rw [zero, UInt32.zero_or, UInt32.or_comm, ← UInt32.or_assoc, ← UInt32.or_assoc]
  · rw [zero, UInt32.or_zero, swap _ _ (b.toUInt32 <<< 16), swap (b0.toUInt32 <<< 24)]
  · rw [zero, UInt32.or_zero, swap _ _ (b.toUInt32 <<< 8)]
  · rw [last, UInt32.or_zero]

theorem tailWord_overlay (stream : Nat -> UInt8) (pos : Nat) (b : UInt8) (hole : stream pos = 0) :
    tailWord stream (pos / 4) ||| (b.toUInt32 <<< (24 - UInt32.ofNat (pos % 4) * 8)) =
      tailWord (Function.update stream pos b) (pos / 4) := by
  obtain ⟨word, byte, small, rfl⟩ : ∃ word byte, byte < 4 ∧ pos = 4 * word + byte :=
    ⟨pos / 4, pos % 4, by omega, by omega⟩
  -- one case for each byte of the word, with the shift that puts it there
  have index : (4 * word + byte) / 4 = word := by omega
  have offset : (4 * word + byte) % 4 = byte := by omega
  have other (k : Nat) (differ : k ≠ byte) :
      Function.update stream (4 * word + byte) b (4 * word + k) = stream (4 * word + k) :=
    Function.update_of_ne (by omega) _ _
  have this := Function.update_self (4 * word + byte) b stream
  have fit := beWord_or (stream (4 * word)) (stream (4 * word + 1)) (stream (4 * word + 2))
    (stream (4 * word + 3)) b
  rw [index, offset, tailWord, tailWord]
  interval_cases byte
  · have shift : (24 - UInt32.ofNat 0 * 8 : UInt32) = 24 := by decide
    simp only [Nat.add_zero] at *
    rw [shift, this, other 1 (by omega), other 2 (by omega), other 3 (by omega), hole]
    exact fit.1
  · have shift : (24 - UInt32.ofNat 1 * 8 : UInt32) = 16 := by decide
    have first := other 0 (by omega)
    simp only [Nat.add_zero] at first
    rw [shift, this, first, other 2 (by omega), other 3 (by omega), hole]
    exact fit.2.1
  · have shift : (24 - UInt32.ofNat 2 * 8 : UInt32) = 8 := by decide
    have first := other 0 (by omega)
    simp only [Nat.add_zero] at first
    rw [shift, this, first, other 1 (by omega), other 3 (by omega), hole]
    exact fit.2.2.1
  · have shift : (24 - UInt32.ofNat 3 * 8 : UInt32) = 0 := by decide
    have first := other 0 (by omega)
    simp only [Nat.add_zero] at first
    rw [shift, this, first, other 1 (by omega), other 2 (by omega), hole, UInt32.shiftLeft_zero]
    exact fit.2.2.2

def WordsHold (w : TailWords) (blocks : Nat) (stream : Nat -> UInt8) : Prop :=
  ∀ t (bound : t < 32), t < 16 * blocks -> w[t] = tailWord stream t

theorem digitPos_toNat (message : List UInt8) (params : Params)
    (buffered : params.buffered.toNat = message.length % 64) (short : params.nd.toNat ≤ 20) (i : Nat)
    (more : i < params.nd.toNat) :
    (params.buffered + (params.nd - 1 - UInt32.ofNat i)).toNat =
      message.length % 64 + (params.nd.toNat - 1 - i) := by
  have index : (UInt32.ofNat i).toNat = i := by
    rw [UInt32.toNat_ofNat']
    exact Nat.mod_eq_of_lt (by omega)
  have one : (params.nd - 1).toNat = params.nd.toNat - 1 := by
    rw [UInt32.toNat_sub_of_le _ _ (by
      simp only [UInt32.le_iff_toNat_le, UInt32.reduceToNat]; omega)]
    rfl
  have rest : (params.nd - 1 - UInt32.ofNat i).toNat = params.nd.toNat - 1 - i := by
    rw [UInt32.toNat_sub_of_le _ _ (by rw [UInt32.le_iff_toNat_le, one, index]; omega), one, index]
  rw [UInt32.toNat_add, rest, buffered]
  exact Nat.mod_eq_of_lt (by omega)

section
variable (message : List UInt8) (n : Nat) (params : Params)
  (buffered : params.buffered.toNat = message.length % 64)
  (count : (Decimal.digits n).length = params.nd.toNat) (short : params.nd.toNat ≤ 20)
include buffered count short

theorem overlayDigit_correct (blocks i : Nat) (st : Overlay) (more : i < params.nd.toNat)
    (fits : paddedLen (message.length % 64) params.nd.toNat = 64 * blocks)
    (value : halves st.curLo st.curHi = n / 10 ^ i)
    (holds : WordsHold st.w blocks (filledByte message n params.nd.toNat i)) :
    ∃ next, overlayDigit params st i = some next ∧
      halves next.curLo next.curHi = n / 10 ^ (i + 1) ∧
      WordsHold next.w blocks (filledByte message n params.nd.toNat (i + 1)) := by
  obtain ⟨quotient, digit⟩ := divmod10_correct st.curLo st.curHi
  have bounds := paddedLen_bounds (message.length % 64) params.nd.toNat (by omega) short
  let place := message.length % 64 + (params.nd.toNat - 1 - i)
  have pos := digitPos_toNat message params buffered short i more
  have wi : ((params.buffered + (params.nd - 1 - UInt32.ofNat i)) >>> 2).toNat = place / 4 := by
    rw [UInt32.toNat_shiftRight, pos, Nat.shiftRight_eq_div_pow]
    rfl
  have byte : (params.buffered + (params.nd - 1 - UInt32.ofNat i)) &&& 3 =
      UInt32.ofNat (place % 4) := by
    apply UInt32.toNat.inj
    rw [mask_mod _ 2 3 rfl, pos, UInt32.toNat_ofNat']
    omega
  have ascii : 0x30 + (divmod10 st.curLo st.curHi).rem =
      (Decimal.ascii (n / 10 ^ i % 10)).toUInt32 := by
    apply UInt32.toNat.inj
    simp only [UInt32.toNat_add, digit, value, Decimal.ascii, UInt8.toNat_toUInt32,
      UInt8.toNat_ofNat', UInt32.reduceToNat]
    omega
  have inside : place / 4 < 32 := by omega
  -- the byte is still zero, so or-ing writes it
  have hole : filledByte message n params.nd.toNat i place = 0 :=
    filledByte_hole message n _ i more short
  have word := holds (place / 4) inside (by omega)
  have overlay := tailWord_overlay _ place (Decimal.ascii (n / 10 ^ i % 10)) hole
  have next := filledByte_succ message n params.nd.toNat i more count
  refine ⟨{ curLo := (divmod10 st.curLo st.curHi).qLo
            curHi := (divmod10 st.curLo st.curHi).qHi
            w := st.w.set (place / 4) (st.w[place / 4] |||
              ((Decimal.ascii (n / 10 ^ i % 10)).toUInt32 <<<
                (24 - UInt32.ofNat (place % 4) * 8))) inside }, ?_, ?_, ?_⟩
  · simp only [overlayDigit, wi, byte, ascii, Buffer.load_inside st.w _ inside,
      Buffer.store_inside st.w _ _ inside, Option.bind_eq_bind, Option.bind_some, Option.pure_def]
  · rw [quotient, value, Nat.div_div_eq_div_mul, pow_succ]
  · intro t bound within
    rw [next]
    by_cases here : t = place / 4
    · subst here
      rw [Vector.getElem_set_self, word, overlay]
    · rw [Vector.getElem_set_ne _ _ (Ne.symm here), tailWord_other _ _ _ _ here]
      exact holds t bound within

theorem overlayDigits_correct (blocks : Nat) (st : Overlay)
    (fits : paddedLen (message.length % 64) params.nd.toNat = 64 * blocks)
    (value : halves st.curLo st.curHi = n)
    (holds : WordsHold st.w blocks (holeByte message params.nd.toNat)) :
    ∃ filled, overlayDigits params st = some filled ∧
      WordsHold filled.w blocks (filledByte message n params.nd.toNat params.nd.toNat) := by
  have filled (i : Nat) (within : i ≤ params.nd.toNat) :
      ∃ next, (List.range i).foldlM (overlayDigit params) st = some next ∧
        halves next.curLo next.curHi = n / 10 ^ i ∧
        WordsHold next.w blocks (filledByte message n params.nd.toNat i) := by
    induction i with
    | zero =>
      refine ⟨st, rfl, by simpa using value, ?_⟩
      rw [filledByte_zero]
      exact holds
    | succ i ih =>
      obtain ⟨middle, looped, rest, words⟩ := ih (by omega)
      obtain ⟨next, step, value, words⟩ := overlayDigit_correct message n params buffered count
        short blocks i middle (by omega) fits rest words
      refine ⟨next, ?_, value, words⟩
      rw [List.range_succ, List.foldlM_append, looped]
      simp [step]
  obtain ⟨last, looped, -, words⟩ := filled params.nd.toNat (Nat.le_refl _)
  exact ⟨last, looped, words⟩

end

def paddedByte (message : List UInt8) (skip j : Nat) : UInt8 :=
  (pad message).getD (64 * skip + j) 0

theorem tail_blocks (length nd : Nat) :
    64 * (length / 64) + paddedLen (length % 64) nd = 64 * blockCount (length + nd) := by
  unfold paddedLen blockCount
  omega

theorem filledByte_padded (message : List UInt8) (n nd j : Nat)
    (count : (Decimal.digits n).length = nd) (short : nd ≤ 20)
    (inside : j < paddedLen (message.length % 64) nd) :
    filledByte message n nd nd j =
      paddedByte (message ++ Decimal.text n) (message.length / 64) j := by
  have bounds := paddedLen_bounds (message.length % 64) nd (by omega) short
  have whole := tail_blocks message.length nd
  have length : (message ++ Decimal.text n).length = message.length + nd := by
    rw [List.length_append, Decimal.text_length, count]
  have position : 64 * (message.length / 64) + message.length % 64 = message.length := by omega
  rw [paddedByte, filledByte]
  -- live bytes and digits are the message; then the marker, the length field, and the gap
  by_cases digits : message.length % 64 ≤ j ∧ j < message.length % 64 + nd
  · have offset : 64 * (message.length / 64) + j - message.length = j - message.length % 64 := by
      omega
    rw [if_pos (by omega), pad_message _ _ (by omega), List.getD_append_right _ _ _ _ (by omega),
      offset]
  · rw [if_neg (by omega), holeByte]
    by_cases early : j < message.length % 64
    · rw [if_pos early, pad_message _ _ (by omega), List.getD_append _ _ _ _ (by omega)]
    · rw [if_neg early]
      by_cases marker : j = message.length % 64 + nd
      · have here : 64 * (message.length / 64) + j = (message ++ Decimal.text n).length := by omega
        rw [if_pos marker, here, pad_marker]
      · rw [if_neg marker]
        by_cases field : paddedLen (message.length % 64) nd ≤ j + 8
        · have offset : 64 * (message.length / 64) + j + 8 - 64 * blockCount (message.length + nd) =
              j + 8 - paddedLen (message.length % 64) nd := by omega
          rw [if_pos ⟨field, inside⟩, pad_bitLength _ _ (by rw [length]; omega), length, offset]
        · rw [if_neg (by omega), pad_zero _ _ (by omega) (by rw [length]; omega)]

theorem copyWords_correct (uninit constantW : TailWords) (numBlocks : UInt32)
    (some_ : numBlocks.toNat = 1 ∨ numBlocks.toNat = 2) :
    ∃ w, copyWords uninit constantW numBlocks = some w ∧
      ∀ t (bound : t < 32), t < 16 * numBlocks.toNat -> w[t] = constantW[t] := by
  obtain ⟨first, copied, same, -⟩ := Buffer.copyLoop_inside constantW 0 uninit 0 16 (by omega)
    (by omega)
  simp only [copyWords, copied, Option.bind_eq_bind, Option.bind_some]
  rcases some_ with one | two
  · have single : numBlocks ≠ 2 := by
      intro double
      simp [double] at one
    refine ⟨first, if_neg single, fun t bound within => ?_⟩
    simpa using same t (by omega)
  · have double : numBlocks = 2 := UInt32.toNat.inj two
    obtain ⟨second, again, later, kept⟩ := Buffer.copyLoop_inside constantW 16 first 16 16
      (by omega) (by omega)
    refine ⟨second, by rw [if_pos double, again], fun t bound _ => ?_⟩
    by_cases low : t < 16
    · rw [kept t bound (.inl low)]
      simpa using same t low
    · have entry := later (t - 16) (by omega)
      simpa only [show 16 + (t - 16) = t by omega] using entry

theorem tailWord_block (message : List UInt8) (skip b t : Nat) (bound : t < 16) :
    tailWord (paddedByte message skip) (16 * b + t) =
      (blockWords (blockAt (pad message) (skip + b)))[t] := by
  have byte (k : Nat) (small : k < 4) : paddedByte message skip (4 * (16 * b + t) + k) =
      (blockAt (pad message) (skip + b))[4 * t + k] := by
    rw [blockAt_getElem, paddedByte]
    congr 1
    omega
  rw [blockWords_getElem _ _ bound, tailWord]
  exact congr (congr (congr (congrArg beWord (byte 0 (by omega))) (byte 1 (by omega)))
    (byte 2 (by omega))) (byte 3 (by omega))

theorem compressBlocks_correct (compressBlock : State -> Words -> State) (w : TailWords)
    (message : List UInt8) (skip : Nat) (numBlocks : UInt32) (h : State)
    (few : numBlocks.toNat ≤ 2) (holds : WordsHold w numBlocks.toNat (paddedByte message skip)) :
    compressBlocks compressBlock w numBlocks h =
      some (((List.range numBlocks.toNat).map fun b =>
        blockWords (blockAt (pad message) (skip + b))).foldl compressBlock h) := by
  have loop (count : Nat) (within : count ≤ numBlocks.toNat) :
      (List.range count).foldlM (fun h b => do
        let m ← Buffer.copyLoop w (b * 16) (Vector.replicate 16 0 : Words) 0 16
        return compressBlock h m) h =
      some (((List.range count).map fun b =>
        blockWords (blockAt (pad message) (skip + b))).foldl compressBlock h) := by
    induction count with
    | zero => rfl
    | succ count ih =>
      obtain ⟨m, copied, same, -⟩ := Buffer.copyLoop_inside w (count * 16)
        (Vector.replicate 16 0 : Words) 0 16 (by omega) (by omega)
      have block : m = blockWords (blockAt (pad message) (skip + count)) := by
        apply Vector.ext
        intro t bound
        have entry := same t bound
        rw [holds (count * 16 + t) (by omega) (by omega), Nat.mul_comm count 16,
          tailWord_block message skip count t bound] at entry
        simpa using entry
      rw [List.range_succ, List.foldlM_append, ih (by omega), List.map_append, List.foldl_append]
      simp [copied, block]
  exact loop _ (Nat.le_refl _)

theorem zbitsLoop_correct (words : List UInt32) (zbits : UInt32)
    (room : zbits.toNat + 32 * words.length < 2 ^ 32) :
    (zbitsLoop words zbits).toNat =
      zbits.toNat + Positional.leadingBits 32 (words.map UInt32.toNat) := by
  induction words generalizing zbits with
  | nil => rfl
  | cons word rest ih =>
    have clz := leadingZeros_toNat word
    rw [List.length_cons] at room
    have sum : (zbits + leadingZeros word).toNat = zbits.toNat + (leadingZeros word).toNat := by
      rw [UInt32.toNat_add]
      exact Nat.mod_eq_of_lt (by omega)
    rw [zbitsLoop, List.map_cons, Positional.leadingBits]
    by_cases zero : word.toNat = 0
    · have whole : ¬ leadingZeros word < 32 := by
        rw [UInt32.lt_iff_toNat_lt, clz, zero]
        simp
      rw [if_neg whole, if_pos zero, ih _ (by omega), sum, clz, zero]
      simp only [Nat.size_zero]
      omega
    · have positive : 0 < word.toNat.size := Nat.size_pos.mpr (by omega)
      have early : leadingZeros word < 32 := by
        rw [UInt32.lt_iff_toNat_lt, clz]
        simp only [UInt32.reduceToNat]
        omega
      rw [if_pos early, if_neg zero, sum, clz]

theorem matched_correct (h : State) (difficulty : UInt32) (within : difficulty.toNat < 2 ^ 30) :
    decide (difficulty * 4 ≤ zbitsLoop h.toList 0) = true ↔
      4 * difficulty.toNat ≤ Positional.leadingBits 32 (stateWords h) := by
  have required : (difficulty * 4).toNat = 4 * difficulty.toNat := by
    simp only [UInt32.toNat_mul, UInt32.reduceToNat]
    omega
  rw [decide_eq_true_iff, UInt32.le_iff_toNat_le, required, zbitsLoop_correct _ _ (by simp)]
  simp [stateWords]

end ScamMiner.Gpu
