import ScamMiner.Gpu.Kernel

set_option autoImplicit false

namespace ScamMiner.Gpu

theorem mask_mod (x : UInt32) (k : Nat) (mask : UInt32) (shape : mask.toNat = 2 ^ k - 1) :
    (x &&& mask).toNat = x.toNat % 2 ^ k := by
  rw [UInt32.toNat_and, shape, Nat.and_two_pow_sub_one_eq_mod]

theorem reciprocal_exact (x : Nat) (small : x < 5120) : x * 13108 % 2 ^ 32 / 2 ^ 17 = x / 10 := by
  rw [Nat.mod_eq_of_lt (by omega)]
  omega

def u20Tmp (cur : UInt32) : UInt32 :=
  cur >>> 10 * 4 + (cur &&& 0x3ff)

def u20QRem (cur : UInt32) : UInt32 :=
  (u20Tmp cur * 13108) >>> 17

/-- No product, sum or difference of `divmod10_u20` wraps, and its results are exact. -/
structure U20Exact (cur : UInt32) : Prop where
  small : cur.toNat < 2 ^ 20
  scaled : (cur >>> 10 * 4).toNat = (cur >>> 10).toNat * 4
  tmp : (u20Tmp cur).toNat = (cur >>> 10).toNat * 4 + (cur &&& 0x3ff).toNat
  reciprocal : (u20Tmp cur * 13108).toNat = (u20Tmp cur).toNat * 13108
  back : (u20QRem cur * 10).toNat = (u20QRem cur).toNat * 10
  borrow : u20QRem cur * 10 ≤ u20Tmp cur
  high : (cur >>> 10 * 102).toNat = (cur >>> 10).toNat * 102
  sum : (cur >>> 10 * 102 + u20QRem cur).toNat = (cur >>> 10).toNat * 102 + (u20QRem cur).toNat
  quotient : (divmod10U20 cur).1.toNat = cur.toNat / 10
  remainder : (divmod10U20 cur).2.toNat = cur.toNat % 10

theorem divmod10U20_exact (cur : UInt32) (small : cur.toNat < 2 ^ 20) : U20Exact cur := by
  have hi : (cur >>> 10).toNat = cur.toNat / 1024 := by
    simp [Nat.shiftRight_eq_div_pow]
  have lo : (cur &&& 0x3ff).toNat = cur.toNat % 1024 := mask_mod cur 10 0x3ff rfl
  have scaled : (cur >>> 10 * 4).toNat = (cur >>> 10).toNat * 4 := by
    simp only [UInt32.toNat_mul, hi, UInt32.reduceToNat]
    omega
  have tmp : (u20Tmp cur).toNat = (cur >>> 10).toNat * 4 + (cur &&& 0x3ff).toNat := by
    rw [u20Tmp, UInt32.toNat_add, scaled]
    omega
  have reciprocal : (u20Tmp cur * 13108).toNat = (u20Tmp cur).toNat * 13108 := by
    simp only [UInt32.toNat_mul, UInt32.reduceToNat]
    omega
  have qRem : (u20QRem cur).toNat = (u20Tmp cur).toNat / 10 := by
    rw [u20QRem, UInt32.toNat_shiftRight, UInt32.toNat_mul, Nat.shiftRight_eq_div_pow]
    exact reciprocal_exact _ (by omega)
  have back : (u20QRem cur * 10).toNat = (u20QRem cur).toNat * 10 := by
    simp only [UInt32.toNat_mul, UInt32.reduceToNat]
    omega
  have borrow : u20QRem cur * 10 ≤ u20Tmp cur := by
    rw [UInt32.le_iff_toNat_le]
    omega
  have high : (cur >>> 10 * 102).toNat = (cur >>> 10).toNat * 102 := by
    simp only [UInt32.toNat_mul, hi, UInt32.reduceToNat]
    omega
  have sum : (cur >>> 10 * 102 + u20QRem cur).toNat =
      (cur >>> 10).toNat * 102 + (u20QRem cur).toNat := by
    rw [UInt32.toNat_add, high]
    omega
  refine ⟨small, scaled, tmp, reciprocal, back, borrow, high, sum, ?_, ?_⟩
  · change (cur >>> 10 * 102 + u20QRem cur).toNat = _
    omega
  · change (u20Tmp cur - u20QRem cur * 10).toNat = _
    rw [UInt32.toNat_sub_of_le _ _ borrow]
    omega

theorem shifted_toNat (high : UInt32) (small : high.toNat < 2 ^ 16) :
    (high <<< 16).toNat = high.toNat * 2 ^ 16 := by
  rw [UInt32.toNat_shiftLeft, ← Nat.shiftLeft_eq]
  refine Nat.mod_eq_of_lt ?_
  simp only [Nat.shiftLeft_eq, UInt32.reduceToNat, Nat.reduceMod, Nat.reducePow] at *
  omega

theorem packed_toNat (high low : UInt32) (highSmall : high.toNat < 2 ^ 16)
    (lowSmall : low.toNat < 2 ^ 16) :
    ((high <<< 16) ||| low).toNat = high.toNat * 2 ^ 16 + low.toNat := by
  rw [UInt32.toNat_or, shifted_toNat high highSmall, ← Nat.shiftLeft_eq,
    ← Nat.shiftLeft_add_eq_or_of_lt lowSmall]

theorem halves_apart (high low : UInt32) (lowSmall : low.toNat < 2 ^ 16) :
    (high <<< 16) &&& low = 0 := by
  apply UInt32.toNat.inj
  apply Nat.eq_of_testBit_eq
  intro i
  rw [UInt32.toNat_and, Nat.testBit_and]
  by_cases far : 16 ≤ i
  · have upper : low.toNat.testBit i = false :=
      Nat.testBit_lt_two_pow (lowSmall.trans_le (Nat.pow_le_pow_right (by omega) far))
    simp [upper]
  · have lower : (high <<< 16).toNat.testBit i = false := by
      rw [UInt32.toNat_shiftLeft, Nat.testBit_mod_two_pow]
      simp [far]
    rw [lower]
    simp

/-- A call whose quotient is one half of a word and whose results are shifted without loss. -/
structure LimbExact (cur : UInt32) : Prop extends U20Exact cur where
  half : (divmod10U20 cur).1.toNat < 2 ^ 16
  quotientShift : ((divmod10U20 cur).1 <<< 16).toNat = (divmod10U20 cur).1.toNat * 2 ^ 16
  remainderShift : ((divmod10U20 cur).2 <<< 16).toNat = (divmod10U20 cur).2.toNat * 2 ^ 16

theorem limb_exact (cur : UInt32) (small : cur.toNat < 10 * 2 ^ 16) : LimbExact cur := by
  have division := divmod10U20_exact cur (by omega)
  have quotient := division.quotient
  have remainder := division.remainder
  exact { division with
    half := by omega
    quotientShift := shifted_toNat _ (by omega)
    remainderShift := shifted_toNat _ (by omega) }

theorem carry_small (cur limb : UInt32) (division : LimbExact cur) (limbSmall : limb.toNat < 2 ^ 16) :
    (((divmod10U20 cur).2 <<< 16) ||| limb).toNat = cur.toNat % 10 * 2 ^ 16 + limb.toNat := by
  have remainder := division.remainder
  rw [packed_toNat _ _ (by omega) limbSmall, remainder]

def passed (lo hi : UInt32) : List UInt32 :=
  let c3 := hi >>> 16
  let c2 := ((divmod10U20 c3).2 <<< 16) ||| (hi &&& 0xffff)
  let c1 := ((divmod10U20 c2).2 <<< 16) ||| (lo >>> 16)
  let c0 := ((divmod10U20 c1).2 <<< 16) ||| (lo &&& 0xffff)
  [c3, c2, c1, c0]

def halves (lo hi : UInt32) : Nat :=
  hi.toNat * 2 ^ 32 + lo.toNat

structure DivisionExact (lo hi : UInt32) : Prop where
  calls : ∀ cur ∈ passed lo hi, LimbExact cur
  apart : ∀ cur ∈ passed lo hi, ∀ other ∈ passed lo hi,
    ((divmod10U20 cur).1 <<< 16) &&& (divmod10U20 other).1 = 0
  quotient : halves (divmod10 lo hi).qLo (divmod10 lo hi).qHi = halves lo hi / 10
  remainder : (divmod10 lo hi).rem.toNat = halves lo hi % 10

theorem division_exact (lo hi : UInt32) : DivisionExact lo hi := by
  have loBound := lo.toNat_lt
  have hiBound := hi.toNat_lt
  have a3 : (hi >>> 16).toNat = hi.toNat / 2 ^ 16 := by simp [Nat.shiftRight_eq_div_pow]
  have a2 : (hi &&& 0xffff).toNat = hi.toNat % 2 ^ 16 := mask_mod hi 16 0xffff rfl
  have a1 : (lo >>> 16).toNat = lo.toNat / 2 ^ 16 := by simp [Nat.shiftRight_eq_div_pow]
  have a0 : (lo &&& 0xffff).toNat = lo.toNat % 2 ^ 16 := mask_mod lo 16 0xffff rfl
  -- each remainder is below ten, so the next value stays in the range of `divmod10_u20`
  have e3 := limb_exact (hi >>> 16) (by omega)
  have v2 := carry_small (hi >>> 16) (hi &&& 0xffff) e3 (by omega)
  generalize c2 : ((divmod10U20 (hi >>> 16)).2 <<< 16) ||| (hi &&& 0xffff) = cur2 at v2
  have e2 := limb_exact cur2 (by omega)
  have v1 := carry_small cur2 (lo >>> 16) e2 (by omega)
  generalize c1 : ((divmod10U20 cur2).2 <<< 16) ||| (lo >>> 16) = cur1 at v1
  have e1 := limb_exact cur1 (by omega)
  have v0 := carry_small cur1 (lo &&& 0xffff) e1 (by omega)
  generalize c0 : ((divmod10U20 cur1).2 <<< 16) ||| (lo &&& 0xffff) = cur0 at v0
  have e0 := limb_exact cur0 (by omega)
  have calls : ∀ cur ∈ passed lo hi, LimbExact cur := by
    simp only [passed, c2, c1, c0, List.mem_cons, List.not_mem_nil, or_false]
    rintro cur (rfl | rfl | rfl | rfl)
    · exact e3
    · exact e2
    · exact e1
    · exact e0
  refine ⟨calls, fun cur member other member' => halves_apart _ _ (calls other member').half,
    ?_, ?_⟩
  · have q3 := e3.quotient
    have q2 := e2.quotient
    have q1 := e1.quotient
    have q0 := e0.quotient
    simp only [divmod10, c2, c1, c0, halves, packed_toNat _ _ e1.half e0.half,
      packed_toNat _ _ e3.half e2.half]
    omega
  · have r0 := e0.remainder
    simp only [divmod10, c2, c1, c0, halves]
    omega

theorem divmod10_correct (lo hi : UInt32) :
    halves (divmod10 lo hi).qLo (divmod10 lo hi).qHi = halves lo hi / 10 ∧
      (divmod10 lo hi).rem.toNat = halves lo hi % 10 :=
  ⟨(division_exact lo hi).quotient, (division_exact lo hi).remainder⟩

-- `cur_lo` and `cur_hi` through `count` rounds of the digit loop, and the digits it takes off.
def kernelDigits : Nat -> UInt32 -> UInt32 -> List UInt32 × UInt32 × UInt32
  | 0, lo, hi => ([], lo, hi)
  | count + 1, lo, hi =>
    let r := divmod10 lo hi
    let (digits, rest) := kernelDigits count r.qLo r.qHi
    (r.rem :: digits, rest)

theorem kernelDigits_succ (count : Nat) (lo hi : UInt32) :
    kernelDigits (count + 1) lo hi =
      ((divmod10 lo hi).rem :: (kernelDigits count (divmod10 lo hi).qLo (divmod10 lo hi).qHi).1,
        (kernelDigits count (divmod10 lo hi).qLo (divmod10 lo hi).qHi).2) := rfl

theorem overlayLoop_chain (params : Params) (start count : Nat) (st filled : Overlay)
    (done : (List.range' start count).foldlM (overlayDigit params) st = some filled) :
    (filled.curLo, filled.curHi) = (kernelDigits count st.curLo st.curHi).2 := by
  induction count generalizing start st with
  | zero =>
    obtain rfl : st = filled := by simpa using done
    rfl
  | succ count ih =>
    rw [List.range'_succ, List.foldlM_cons] at done
    obtain ⟨next, stepped, rest⟩ := Option.bind_eq_some_iff.mp done
    have chain := ih (start + 1) next rest
    have moved : next.curLo = (divmod10 st.curLo st.curHi).qLo ∧
        next.curHi = (divmod10 st.curLo st.curHi).qHi := by
      obtain ⟨old, -, stored⟩ := Option.bind_eq_some_iff.mp stepped
      obtain ⟨w, -, last⟩ := Option.bind_eq_some_iff.mp stored
      obtain rfl := Option.some.inj last
      exact ⟨rfl, rfl⟩
    rw [chain, moved.1, moved.2, kernelDigits_succ]

theorem overlayDigits_chain (params : Params) (st filled : Overlay)
    (done : overlayDigits params st = some filled) :
    (filled.curLo, filled.curHi) = (kernelDigits params.nd.toNat st.curLo st.curHi).2 := by
  rw [overlayDigits, List.range_eq_range'] at done
  exact overlayLoop_chain params 0 _ st filled done

theorem kernelDigits_correct (count : Nat) (lo hi : UInt32) :
    (kernelDigits count lo hi).1.map UInt32.toNat =
        (List.range count).map (fun i => halves lo hi / 10 ^ i % 10) ∧
      halves (kernelDigits count lo hi).2.1 (kernelDigits count lo hi).2.2 =
        halves lo hi / 10 ^ count := by
  induction count generalizing lo hi with
  | zero => simp [kernelDigits]
  | succ count ih =>
    obtain ⟨quotient, remainder⟩ := divmod10_correct lo hi
    obtain ⟨digits, rest⟩ := ih (divmod10 lo hi).qLo (divmod10 lo hi).qHi
    rw [quotient] at digits rest
    rw [kernelDigits_succ]
    refine ⟨?_, ?_⟩
    · rw [List.map_cons, digits, remainder, List.range_succ_eq_map, List.map_cons,
        List.map_map, pow_zero, Nat.div_one]
      congr 1
      apply List.map_congr_left
      intro i _
      rw [Nat.div_div_eq_div_mul, Function.comp_apply, Nat.succ_eq_add_one, pow_succ']
    · rw [rest, Nat.div_div_eq_div_mul, pow_succ']

theorem halves_zero (lo hi : UInt32) (zero : halves lo hi = 0) : lo = 0 ∧ hi = 0 := by
  unfold halves at zero
  constructor
  · apply UInt32.toNat.inj
    simp only [UInt32.reduceToNat]
    omega
  · apply UInt32.toNat.inj
    simp only [UInt32.reduceToNat]
    omega

theorem halves_lt (lo hi : UInt32) : halves lo hi < 2 ^ 64 := by
  have loBound := lo.toNat_lt
  have hiBound := hi.toNat_lt
  unfold halves
  omega

/-- The division is exact, and `decimal_digits` rounds of it take off all the digits, those of the
kernel's own loop too. -/
theorem divmod10_exact (lo hi : UInt32) :
    let rounds := (decimalDigits (UInt64.ofNat (halves lo hi))).toNat
    DivisionExact lo hi ∧
      (kernelDigits rounds lo hi).1.map UInt32.toNat = Decimal.digits (halves lo hi) ∧
      (kernelDigits rounds lo hi).2 = (0, 0) ∧
      ∀ params st filled, params.nd.toNat = rounds -> (st.curLo, st.curHi) = (lo, hi) ->
        overlayDigits params st = some filled -> (filled.curLo, filled.curHi) = (0, 0) := by
  intro rounds
  have bound := halves_lt lo hi
  have count : rounds = (Decimal.digits (halves lo hi)).length := by
    simp only [rounds]
    rw [decimalDigits_correct, UInt64.toNat_ofNat', Nat.mod_eq_of_lt bound]
  obtain ⟨digits, rest⟩ := kernelDigits_correct rounds lo hi
  have used : halves lo hi / 10 ^ rounds = 0 := by
    refine Nat.div_eq_of_lt ((Decimal.digits_length_le _ _ ?_).mp (Nat.le_of_eq count.symm))
    rw [count]
    exact Decimal.digits_length_pos _
  have ends : (kernelDigits rounds lo hi).2 = (0, 0) := by
    obtain ⟨low, high⟩ := halves_zero _ _ (rest.trans used)
    exact Prod.ext low high
  refine ⟨division_exact lo hi, ?_, ends, ?_⟩
  · rw [digits, count]
    apply List.ext_getElem (by simp)
    intro i inRange inDigits
    rw [List.getElem_map, List.getElem_range, ← Decimal.digits_getD,
      List.getD_eq_getElem _ _ inDigits]
  · rintro params st filled nd ⟨⟩ done
    rw [overlayDigits_chain params st filled done, nd]
    exact ends

end ScamMiner.Gpu
