import ScamMiner.Sha.Finish

set_option autoImplicit false

namespace ScamMiner

open Fips180

-- `state_to_bytes`: the eight 4-byte slices tile `out`.
def stateToBytes (state : State) : List UInt8 :=
  state.toList.flatMap fun (w : UInt32) =>
    [(w >>> 24).toUInt8, (w >>> 16).toUInt8, (w >>> 8).toUInt8, w.toUInt8]

theorem stateToBytes_correct (state : State) : stateToBytes state = stateBytes state := rfl

theorem IV_correct : IV = initialState := rfl

namespace Midstate

def finish (compress : State -> Block -> State) (mid : Midstate State) (tail : List UInt8) :
    Option (List UInt8) :=
  (mid.finishRaw compress tail).map stateToBytes

def finishRawOf {σ : Type} (compress : σ -> Block -> σ) (iv : σ) (slices : List (List UInt8))
    (tail : List UInt8) : Option σ :=
  ((new iv).updates compress slices).bind fun mid => mid.finishRaw compress tail

def finishOf (compress : State -> Block -> State) (slices : List (List UInt8))
    (tail : List UInt8) : Option (List UInt8) :=
  ((new IV).updates compress slices).bind fun mid => mid.finish compress tail

/-- The blocks passed to the compression function, in order: the state that records them. -/
def passedBlocks (slices : List (List UInt8)) (tail : List UInt8) : Option (List Block) :=
  finishRawOf (fun seen block => seen ++ [block]) [] slices tail

theorem finishRawOf_correct {σ : Type} (compress : σ -> Block -> σ) (iv : σ)
    (slices : List (List UInt8)) (tail : List UInt8) :
    finishRawOf compress iv slices tail =
      if tail ≠ [] ∧ (slices.flatten ++ tail).length % 64 = 0 then none
      else some ((finishBlocks slices.flatten tail).foldl compress iv) := by
  rw [finishRawOf, updates_new, Option.bind_some, finishRaw_absorbed]

theorem finishOf_map (compress : State -> Block -> State) (slices : List (List UInt8))
    (tail : List UInt8) :
    finishOf compress slices tail = (finishRawOf compress IV slices tail).map stateToBytes := by
  rw [finishOf, finishRawOf, Option.map_bind]
  rfl

theorem foldl_record (blocks seen : List Block) :
    blocks.foldl (fun seen block => seen ++ [block]) seen = seen ++ blocks := by
  induction blocks generalizing seen with
  | nil => simp
  | cons block rest ih => simp [ih]

theorem passedBlocks_correct (slices : List (List UInt8)) (tail : List UInt8) :
    passedBlocks slices tail =
      if tail ≠ [] ∧ (slices.flatten ++ tail).length % 64 = 0 then none
      else some (finishBlocks slices.flatten tail) := by
  rw [passedBlocks, finishRawOf_correct, foldl_record, List.nil_append]

/-- `finish_raw` stays inside `buf` exactly when no tail fills its last block. -/
theorem finishRaw_inBounds {σ : Type} (compress : σ -> Block -> σ) (iv : σ)
    (slices : List (List UInt8)) (tail : List UInt8) :
    (∃ mid, (new iv).updates compress slices = some mid ∧
      (mid.finishRaw compress tail).isSome) ↔
      (tail = [] ∨ (slices.flatten ++ tail).length % 64 ≠ 0) := by
  simp only [updates_new, Option.some.injEq, exists_eq_left', finishRaw_absorbed]
  by_cases aligned : tail ≠ [] ∧ (slices.flatten ++ tail).length % 64 = 0
  · rw [if_pos aligned]
    simp only [Option.isSome_none, Bool.false_eq_true, false_iff]
    tauto
  · rw [if_neg aligned]
    simp only [Option.isSome_some, true_iff]
    tauto

-- A prefix of 63 bytes and a one-digit nonce fill a block: the miner aborts.
theorem finishRaw_overflows :
    ¬ ∀ (slices : List (List UInt8)) (tail : List UInt8),
      (slices.flatten ++ tail).length < 2 ^ 61 ->
      ∃ mid, (new IV).updates Fips180.compress slices = some mid ∧
        (mid.finishRaw Fips180.compress tail).isSome := by
  intro all
  obtain ⟨mid, fed, finished⟩ := all [List.replicate 63 97] [48] (by simp)
  rw [updates_new] at fed
  obtain rfl := Option.some.inj fed
  rw [finishRaw_absorbed] at finished
  simp at finished

/-- The length field does not fit and the flushed block still holds a stale non-zero byte. -/
def StaleGap (message tail : List UInt8) : Prop :=
  let used := (message ++ tail).length % 64
  56 ≤ used ∧ ∃ i, i < 64 ∧ used < i ∧ stale message tail i ≠ 0

instance (message tail : List UInt8) : Decidable (StaleGap message tail) := by
  unfold StaleGap
  infer_instance

theorem blocks_split (message : List UInt8) :
    blocks message = (List.range (message.length / 64)).map (blockAt message) ++
      if message.length % 64 < 56 then [blockAt (pad message) (message.length / 64)]
      else [gapBlock message (message.length / 64) (message.length % 64) (fun _ => 0),
        blockAt (pad message) (message.length / 64 + 1)] := by
  have whole : (List.range (message.length / 64)).map (blockAt (pad message)) =
      (List.range (message.length / 64)).map (blockAt message) := by
    apply List.map_congr_left
    intro k member
    have less := List.mem_range.mp member
    exact blockAt_append message _ k (by omega)
  by_cases short : message.length % 64 < 56
  · have count : blockCount message.length = message.length / 64 + 1 := by
      unfold blockCount; omega
    rw [blocks, count, List.range_succ, List.map_append, whole, if_pos short]
    rfl
  · have count : blockCount message.length = message.length / 64 + 1 + 1 := by
      unfold blockCount; omega
    have gap : blockAt (pad message) (message.length / 64) =
        gapBlock message (message.length / 64) (message.length % 64) fun _ => 0 := by
      apply Vector.ext
      intro i bound
      simp only [blockAt_getElem, gapBlock, Vector.getElem_ofFn]
      by_cases live : i < message.length % 64
      · rw [if_pos live, pad_message message _ (by omega)]
      · by_cases here : i = message.length % 64
        · rw [if_neg live, if_pos here, here, Nat.div_add_mod, pad_marker]
        · rw [if_neg live, if_neg here, pad_zero message _ (by omega) (by rw [count]; omega)]
    rw [blocks, count, List.range_succ, List.map_append, List.range_succ, List.map_append, whole,
      if_neg short, List.map_singleton, List.map_singleton, gap, List.append_assoc]
    rfl

theorem gapBlock_inj (message : List UInt8) (k pos : Nat) (left right : Nat -> UInt8) :
    gapBlock message k pos left = gapBlock message k pos right ↔
      ∀ i, i < 64 -> pos < i -> left i = right i := by
  constructor
  · intro same i bound after
    have byte := congrArg (fun b : Block => b[i]) same
    simpa [gapBlock, show ¬ i < pos by omega, show i ≠ pos by omega] using byte
  · intro same
    apply Vector.ext
    intro i bound
    simp only [gapBlock, Vector.getElem_ofFn]
    by_cases live : i < pos
    · rw [if_pos live, if_pos live]
    · by_cases here : i = pos
      · rw [if_neg live, if_neg live, if_pos here, if_pos here]
      · rw [if_neg live, if_neg live, if_neg here, if_neg here, same i bound (by omega)]

theorem finishBlocks_correct (message tail : List UInt8) :
    finishBlocks message tail = blocks (message ++ tail) ↔ ¬ StaleGap message tail := by
  rw [finishBlocks, blocks_split, List.append_cancel_left_eq]
  by_cases short : (message ++ tail).length % 64 < 56
  · rw [if_pos short, if_pos short]
    simp only [StaleGap, true_iff]
    omega
  · rw [if_neg short, if_neg short]
    simp only [List.cons.injEq, and_true, gapBlock_inj, StaleGap]
    push Not
    constructor
    · intro same _ i bound after
      exact same i bound after
    · intro same i bound after
      exact same (by omega) i bound after

theorem StaleGap.merge {message tail : List UInt8} (gap : StaleGap message tail) :
    StaleGap (message ++ tail) [] := by
  obtain ⟨late, i, bound, after, nonzero⟩ := gap
  have fits : message.length % 64 + tail.length ≤ 64 := by
    by_contra spills
    exact nonzero (if_neg spills)
  rw [List.length_append] at late after
  rw [stale, if_pos fits] at nonzero
  simp only [StaleGap, List.append_nil, stale, List.length_nil]
  refine ⟨by rw [List.length_append]; omega, i, bound, by rw [List.length_append]; omega, ?_⟩
  rw [if_pos (by rw [List.length_append]; omega), leftover_append message tail i bound (by omega)]
  exact nonzero

def bump (state : State) : State :=
  state.setIfInBounds 0 (state[0]! + 1)

theorem stateToBytes_bump (state : State) : stateToBytes state ≠ stateToBytes (bump state) := by
  intro same
  have byte := congrArg (fun bytes => bytes[3]?) same
  have left (s : State) : (stateToBytes s)[3]? = some s[0]!.toUInt8 := by
    obtain ⟨⟨entries⟩, size⟩ := s
    match entries, size with
    | [_, _, _, _, _, _, _, _], _ => rfl
  have entry : (bump state)[0]! = state[0]! + 1 := by simp [bump]
  simp only [left, entry, Option.some.injEq] at byte
  have wrapped := congrArg UInt8.toNat byte
  simp only [UInt32.toNat_toUInt8, UInt32.toNat_add, UInt32.reduceToNat] at wrapped
  omega

theorem distinguish (before : List Block) (left right last : Block) (differ : left ≠ right) :
    ∃ compress : State -> Block -> State,
      stateToBytes ((before ++ [left, last]).foldl compress IV) ≠
        stateToBytes ((before ++ [right, last]).foldl compress IV) := by
  let compress : State -> Block -> State := fun s b => if b = right then bump s else s
  refine ⟨compress, ?_⟩
  simp only [List.foldl_append, List.foldl_cons, List.foldl_nil]
  generalize before.foldl compress IV = s
  have kept : compress s left = s := if_neg differ
  have bumped : compress s right = bump s := if_pos rfl
  rw [kept, bumped]
  by_cases again : last = right
  · have twice (s : State) : compress s last = bump s := if_pos again
    rw [twice, twice]
    exact stateToBytes_bump _
  · have same (s : State) : compress s last = s := if_neg again
    rw [same, same]
    exact stateToBytes_bump s

/-- What a caller of `finish` expects of FIPS 180-4, whenever `finish_raw` returns. -/
def FinishMeetsFips (slices : List (List UInt8)) (tail : List UInt8) : Prop :=
  ∀ passed, passedBlocks slices tail = some passed ->
    passed = blocks (slices.flatten ++ tail) ∧
      ∀ compress : State -> Block -> State,
        finishOf compress slices tail =
          some (stateBytes (digestState compress initialState (slices.flatten ++ tail))) ∧
        finishOf compress slices tail = finishOf compress [slices.flatten ++ tail] []

theorem finishOf_whole (compress : State -> Block -> State) (message : List UInt8) :
    finishOf compress [message] [] =
      some (stateToBytes ((finishBlocks message []).foldl compress IV)) := by
  rw [finishOf_map, finishRawOf_correct]
  simp

/-- `finish` is FIPS 180-4 exactly for the messages whose last flush leaves no stale byte. -/
theorem finish_meetsFips_iff (slices : List (List UInt8)) (tail : List UInt8) :
    FinishMeetsFips slices tail ↔ ¬ StaleGap (slices.flatten ++ tail) [] := by
  generalize merged : slices.flatten ++ tail = message
  constructor
  · intro meets gap
    have late := gap.1
    rw [List.append_nil] at late
    have returns : ¬ (tail ≠ [] ∧ message.length % 64 = 0) := by omega
    obtain ⟨passed, agree⟩ := meets (finishBlocks slices.flatten tail) (by
      rw [passedBlocks_correct, merged, if_neg returns])
    rw [merged] at passed agree
    have differ : gapBlock message (message.length / 64) (message.length % 64) (fun _ => 0) ≠
        gapBlock message (message.length / 64) (message.length % 64) (stale message []) := by
      obtain ⟨_, i, bound, after, nonzero⟩ := gap
      rw [List.append_nil] at after
      intro same
      exact nonzero ((gapBlock_inj _ _ _ _ _).mp same i bound after).symm
    obtain ⟨compress, apart⟩ := distinguish ((List.range (message.length / 64)).map (blockAt message))
      _ _ (blockAt (pad message) (message.length / 64 + 1)) differ
    have digests := (agree compress).2
    rw [finishOf_whole, finishOf_map, finishRawOf_correct, merged, if_neg returns, passed,
      Option.map_some] at digests
    have whole : finishBlocks message [] =
        (List.range (message.length / 64)).map (blockAt message) ++
          [gapBlock message (message.length / 64) (message.length % 64) (stale message []),
            blockAt (pad message) (message.length / 64 + 1)] := by
      simp only [finishBlocks, List.append_nil, if_neg (Nat.not_lt.mpr late)]
    rw [blocks_split, if_neg (Nat.not_lt.mpr late), whole] at digests
    exact apart (Option.some.inj digests)
  · intro clean passed recorded
    rw [passedBlocks_correct] at recorded
    by_cases aligned : tail ≠ [] ∧ (slices.flatten ++ tail).length % 64 = 0
    · rw [if_pos aligned] at recorded
      cases recorded
    · rw [if_neg aligned, Option.some.injEq] at recorded
      have split : finishBlocks slices.flatten tail = blocks message := by
        rw [← merged]
        exact (finishBlocks_correct _ _).mpr fun gap => clean (merged ▸ gap.merge)
      have whole : finishBlocks message [] = blocks message := by
        simpa using (finishBlocks_correct message []).mpr clean
      refine ⟨by rw [← recorded, split, merged], fun compress => ?_⟩
      have digest : finishOf compress slices tail =
          some (stateToBytes ((blocks message).foldl compress IV)) := by
        rw [finishOf_map, finishRawOf_correct, if_neg aligned, split, Option.map_some]
      rw [merged, digest, finishOf_whole, whole]
      exact ⟨rfl, rfl⟩

-- 120 bytes: the length field does not fit, and byte 57 of the first block is still in `buf`.
theorem finish_stale : ¬ FinishMeetsFips [List.replicate 120 97] [] := by
  intro meets
  have gap : StaleGap [List.replicate 120 97].flatten [] := by
    refine ⟨by simp, 57, by decide, by simp, ?_⟩
    rw [stale, if_pos (by simp), leftover, if_pos (by simp), List.flatten_singleton,
      List.length_replicate, List.getD_replicate _ (by decide)]
    decide
  have passed := (meets (finishBlocks [List.replicate 120 97].flatten []) (by
    rw [passedBlocks_correct, if_neg (by simp)])).1
  rw [finishBlocks_correct] at passed
  exact passed gap

end Midstate

end ScamMiner
