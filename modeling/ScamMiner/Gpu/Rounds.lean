import ScamMiner.Gpu.Kernel

set_option autoImplicit false

namespace ScamMiner.Gpu

open Fips180

theorem K_correct : K.toList = roundConstants := rfl

theorem roundStep_correct (k w : UInt32) (v : Work) : roundStep k w v = Fips180.round k w v := by
  simp only [roundStep, Fips180.round, UInt32.add_assoc]
  rfl

theorem addBack_correct (h : State) (v : Work) : addBack h v = v.addTo h := by
  simp [addBack, Work.addTo, Work.toState, UInt32.add_comm]

/-- Slot `s & 15` holds `W_s` for the sixteen words before round `t`. -/
def WindowHolds (words m : Words) (t : Nat) : Prop :=
  ∀ s, t ≤ s + 16 -> s < max t 16 -> window m s = schedule words s

theorem windowHolds_start (words : Words) : WindowHolds words words 0 := by
  intro s _ bound
  have small : s < 16 := by omega
  rw [window, schedule, dif_pos small]
  simp only [Nat.mod_eq_of_lt small]

theorem schedule_step (words : Words) (t : Nat) (late : 16 ≤ t) :
    schedule words t = smallSigma1 (schedule words (t - 2)) + schedule words (t - 7) +
      smallSigma0 (schedule words (t - 15)) + schedule words (t - 16) := by
  rw [schedule, dif_neg (by omega)]

theorem rollingRound_correct (words m : Words) (v : Work) (t : Nat)
    (holds : WindowHolds words m t) :
    WindowHolds words (rollingRound (m, v) t).1 (t + 1) ∧
      (rollingRound (m, v) t).2 = Fips180.round (roundConstants.getD t 0) (schedule words t) v := by
  by_cases late : 16 ≤ t
  · -- the slot of `W_(t-16)` receives `W_t`
    have oldest : window m t = schedule words (t - 16) := by
      rw [← holds (t - 16) (by omega) (by omega)]
      unfold window
      congr 1
      omega
    have entry : window m t + (rotr (window m (t - 15)) 7 ^^^ rotr (window m (t - 15)) 18 ^^^
        (window m (t - 15) >>> 3)) + window m (t - 7) + (rotr (window m (t - 2)) 17 ^^^
        rotr (window m (t - 2)) 19 ^^^ (window m (t - 2) >>> 10)) = schedule words t := by
      rw [oldest, holds (t - 15) (by omega) (by omega), holds (t - 7) (by omega) (by omega),
        holds (t - 2) (by omega) (by omega), schedule_step words t late]
      change schedule words (t - 16) + smallSigma0 (schedule words (t - 15)) +
        schedule words (t - 7) + smallSigma1 (schedule words (t - 2)) = _
      ac_rfl
    simp only [rollingRound, if_pos late, entry, roundStep_correct, K_correct]
    refine ⟨fun s low high => ?_, ?_⟩
    · by_cases here : s = t
      · subst here
        simp [window]
      · have differ : t % 16 ≠ s % 16 := by omega
        rw [← holds s (by omega) (by omega), window, window, Vector.getElem_set_ne _ _ differ]
    · simp [window]
  · have small : t < 16 := by omega
    simp only [rollingRound, if_neg late, roundStep_correct, K_correct,
      holds t (by omega) (by omega)]
    exact ⟨fun s low high => holds s (by omega) (by omega), trivial⟩

theorem rollingBlock_correct (h : State) (m : Words) : rollingBlock h m = compressWords h m := by
  have rolled (count : Nat) :
      WindowHolds m ((List.range count).foldl rollingRound (m, Work.ofState h)).1 count ∧
        ((List.range count).foldl rollingRound (m, Work.ofState h)).2 =
          rounds m count (Work.ofState h) := by
    induction count with
    | zero => exact ⟨windowHolds_start m, rfl⟩
    | succ count ih =>
      rw [List.range_succ, List.foldl_append, List.foldl_cons, List.foldl_nil]
      have step := rollingRound_correct m _
        ((List.range count).foldl rollingRound (m, Work.ofState h)).2 count ih.1
      refine ⟨step.1, step.2.trans ?_⟩
      rw [ih.2, rounds, rounds, List.range_succ, List.foldl_append, List.foldl_cons,
        List.foldl_nil]
  rw [rollingBlock, (rolled 64).2, addBack_correct, compressWords]

theorem expandStep_correct (words : Words) (w64 : Vector UInt32 64) (t : Nat) (late : 16 ≤ t)
    (bound : t < 64) (holds : ∀ s, s < t -> w64.toList.getD s 0 = schedule words s) :
    ∀ s, s < t + 1 -> (expandStep w64 t).toList.getD s 0 = schedule words s := by
  have entry : w64.toList.getD (t - 16) 0 +
      ((w64.toList.getD (t - 15) 0 >>> 7 ||| w64.toList.getD (t - 15) 0 <<< 25) ^^^
        (w64.toList.getD (t - 15) 0 >>> 18 ||| w64.toList.getD (t - 15) 0 <<< 14) ^^^
        w64.toList.getD (t - 15) 0 >>> 3) + w64.toList.getD (t - 7) 0 +
      ((w64.toList.getD (t - 2) 0 >>> 17 ||| w64.toList.getD (t - 2) 0 <<< 15) ^^^
        (w64.toList.getD (t - 2) 0 >>> 19 ||| w64.toList.getD (t - 2) 0 <<< 13) ^^^
        w64.toList.getD (t - 2) 0 >>> 10) = schedule words t := by
    rw [holds (t - 16) (by omega), holds (t - 15) (by omega), holds (t - 7) (by omega),
      holds (t - 2) (by omega), schedule_step words t late]
    change schedule words (t - 16) + smallSigma0 (schedule words (t - 15)) +
      schedule words (t - 7) + smallSigma1 (schedule words (t - 2)) = _
    ac_rfl
  have stepped : expandStep w64 t = w64.setIfInBounds t (schedule words t) := by
    simp only [expandStep, entry]
  intro s low
  rw [stepped, Vector.toList_setIfInBounds, List.getD_eq_getElem?_getD]
  by_cases here : t = s
  · subst here
    rw [List.getElem?_set_self (by simpa using bound)]
    rfl
  · rw [List.getElem?_set_ne here, ← List.getD_eq_getElem?_getD]
    exact holds s (by omega)

theorem expand_correct (m : Words) (t : Nat) (bound : t < 64) :
    (expand m).toList.getD t 0 = schedule m t := by
  have filled (count : Nat) (within : count ≤ 48) : ∀ s, s < 16 + count ->
      ((List.range' 16 count).foldl expandStep
        (Vector.ofFn fun t => m.toList.getD t.val 0)).toList.getD s 0 = schedule m s := by
    induction count with
    | zero =>
      intro s small
      rw [schedule, dif_pos (by omega)]
      simp [List.getD_eq_getElem?_getD, show s < 64 by omega, show s < 16 by omega]
    | succ count ih =>
      rw [List.range'_concat, List.foldl_append, List.foldl_cons, List.foldl_nil, Nat.one_mul]
      exact expandStep_correct m _ (16 + count) (by omega) (by omega) (ih (by omega))
  exact filled 48 (Nat.le_refl _) t bound

theorem expandedBlock_correct (h : State) (m : Words) : expandedBlock h m = compressWords h m := by
  have same : (List.range 64).foldl
      (fun v t => roundStep (K.toList.getD t 0) ((expand m).toList.getD t 0) v) (Work.ofState h) =
        rounds m 64 (Work.ofState h) := by
    apply List.foldl_ext
    intro v t member
    rw [expand_correct m t (List.mem_range.mp member), roundStep_correct, K_correct]
  rw [expandedBlock, same, addBack_correct, compressWords]

theorem compressBlock_correct (dialect : Dialect) (h : State) (m : Words) :
    dialect.compressBlock h m = compressWords h m := by
  cases dialect with
  | wgsl => exact rollingBlock_correct h m
  | opencl => exact expandedBlock_correct h m
  | hip => exact rollingBlock_correct h m

theorem compressBlocks_foldl (dialect : Dialect) (h : State) (blocks : List Words) :
    blocks.foldl dialect.compressBlock h = blocks.foldl compressWords h :=
  List.foldl_ext _ _ _ fun h m _ => compressBlock_correct dialect h m

/-- Over any number of blocks the rolling loops and the expanded one are FIPS 180-4. -/
theorem compressionLoops_agree (h : State) (blocks : List Words) :
    blocks.foldl Dialect.wgsl.compressBlock h = blocks.foldl Dialect.opencl.compressBlock h ∧
      blocks.foldl Dialect.hip.compressBlock h = blocks.foldl Dialect.opencl.compressBlock h ∧
      blocks.foldl Dialect.opencl.compressBlock h = blocks.foldl compressWords h := by
  simp only [compressBlocks_foldl, and_self]

end ScamMiner.Gpu
