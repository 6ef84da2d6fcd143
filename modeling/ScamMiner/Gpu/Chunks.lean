import ScamMiner.Shared.Decimal
import ScamMiner.Shared.Proc

set_option autoImplicit false

namespace ScamMiner.Gpu

def WORKGROUP : UInt32 := 256
def MAX_WORKGROUPS : UInt32 := 65535

def digitLoop (d : UInt32) (x : UInt64) : UInt32 :=
  if _more : 0 < x then digitLoop (d + 1) (x / 10) else d
termination_by x.toNat
decreasing_by
  have positive : 0 < x.toNat := UInt64.lt_iff_toNat_lt.mp _more
  simp only [UInt64.toNat_div, UInt64.reduceToNat]
  omega

def decimalDigits (n : UInt64) : UInt32 :=
  if n = 0 then 1 else digitLoop 0 n

def pow10 (exp : UInt32) : UInt64 :=
  (List.range exp.toNat).foldl (fun v _ => v * 10) 1

inductive ChunkOutcome where
  | notFound
  | found (nonce : UInt64)
  | abort

def chunkSize (chunkStart remaining : UInt64) : UInt32 :=
  let threadsPerDispatch := (WORKGROUP * MAX_WORKGROUPS).toUInt64
  let nd := decimalDigits chunkStart
  let digitLimit := if 20 ≤ nd then 0xffffffffffffffff else pow10 nd - chunkStart
  (min (min remaining threadsPerDispatch) digitLimit).toUInt32

def digitLimit (chunkStart : UInt64) : UInt64 :=
  if 20 ≤ decimalDigits chunkStart then 0xffffffffffffffff
  else pow10 (decimalDigits chunkStart) - chunkStart

def chunkWidth (chunkStart remaining : UInt64) : UInt64 :=
  min (min remaining (WORKGROUP * MAX_WORKGROUPS).toUInt64) (digitLimit chunkStart)

theorem chunkSize_cast (chunkStart remaining : UInt64) :
    chunkSize chunkStart remaining = (chunkWidth chunkStart remaining).toUInt32 := rfl

theorem digitLoop_correct (x : UInt64) (d : UInt32)
    (room : d.toNat + (Nat.digits 10 x.toNat).length < 2 ^ 32) :
    (digitLoop d x).toNat = d.toNat + (Nat.digits 10 x.toNat).length := by
  rw [digitLoop]
  by_cases zero : x.toNat = 0
  · have stop : ¬ 0 < x := by
      simp only [UInt64.lt_iff_toNat_lt, UInt64.reduceToNat]; omega
    rw [dif_neg stop, zero]
    rfl
  · have more : 0 < x := by
      simp only [UInt64.lt_iff_toNat_lt, UInt64.reduceToNat]; omega
    have peeled : (Nat.digits 10 x.toNat).length = (Nat.digits 10 (x / 10).toNat).length + 1 := by
      rw [UInt64.toNat_div, Nat.digits_eq_cons_digits_div (by omega) zero, List.length_cons]
      rfl
    have next : (d + 1).toNat = d.toNat + 1 := by
      simp only [UInt32.toNat_add, UInt32.reduceToNat]
      omega
    rw [dif_pos more, digitLoop_correct (x / 10) (d + 1) (by omega), next]
    omega
termination_by x.toNat
decreasing_by
  simp only [UInt64.toNat_div, UInt64.reduceToNat]
  omega

theorem decimalDigits_correct (n : UInt64) :
    (decimalDigits n).toNat = (Decimal.digits n.toNat).length := by
  by_cases zero : n = 0
  · subst zero
    rfl
  · have nonzero : n.toNat ≠ 0 := fun same => zero (UInt64.toNat.inj same)
    have digits : Decimal.digits n.toNat = Nat.digits 10 n.toNat := if_neg nonzero
    have short := Decimal.digits_length_u64 n.toNat n.toNat_lt
    rw [digits] at short ⊢
    rw [decimalDigits, if_neg zero, digitLoop_correct n 0 (by simp; omega)]
    simp

theorem pow10_correct (exp : UInt32) (small : exp.toNat < 20) :
    (pow10 exp).toNat = 10 ^ exp.toNat := by
  have power (k : Nat) (fits : k < 20) :
      ((List.range k).foldl (fun v _ => v * 10) (1 : UInt64)).toNat = 10 ^ k := by
    induction k with
    | zero => rfl
    | succ k ih =>
      have smaller : 10 ^ (k + 1) ≤ 10 ^ 19 := Nat.pow_le_pow_right (by omega) (by omega)
      rw [List.range_succ, List.foldl_append, List.foldl_cons, List.foldl_nil, UInt64.toNat_mul,
        ih (by omega), pow_succ]
      simp only [UInt64.reduceToNat]
      omega
  exact power _ small

-- A dispatch: its first nonce, the number of its nonces and their digit count.
abbrev Dispatch := UInt64 × UInt32 × UInt32

/-- A non-empty chunk that fits one dispatch and whose nonces have `nd` digits each. -/
structure DispatchOk (d : Dispatch) : Prop where
  nonempty : 1 ≤ d.2.1.toNat
  capped : d.2.1.toNat ≤ 256 * 65535
  inside : d.1.toNat + d.2.1.toNat ≤ 2 ^ 64
  uniform : ∀ i, i < d.2.1.toNat -> (Decimal.digits (d.1.toNat + i)).length = d.2.2.toNat

theorem few_digits (chunkStart : UInt64) :
    (decimalDigits chunkStart).toNat < 20 ↔ ¬ 20 ≤ decimalDigits chunkStart := by
  rw [UInt32.le_iff_toNat_le]
  exact Nat.not_le.symm

-- Below twenty digits the subtraction is exact and leaves something.
theorem pow10_exact (chunkStart : UInt64) (few : (decimalDigits chunkStart).toNat < 20) :
    chunkStart.toNat < (pow10 (decimalDigits chunkStart)).toNat ∧
      (pow10 (decimalDigits chunkStart)).toNat =
        (pow10 (decimalDigits chunkStart) - chunkStart).toNat + chunkStart.toNat := by
  have digits := decimalDigits_correct chunkStart
  have positive := Decimal.digits_length_pos chunkStart.toNat
  have power := pow10_correct _ few
  have below : chunkStart.toNat < 10 ^ (decimalDigits chunkStart).toNat :=
    (Decimal.digits_length_le _ _ (by omega)).mp (by omega)
  have least : chunkStart ≤ pow10 (decimalDigits chunkStart) := by
    rw [UInt64.le_iff_toNat_le]
    omega
  rw [UInt64.toNat_sub_of_le _ _ least]
  omega

theorem digitLimit_toNat (chunkStart : UInt64) : 1 ≤ (digitLimit chunkStart).toNat ∧
    ((decimalDigits chunkStart).toNat < 20 ->
      (digitLimit chunkStart).toNat + chunkStart.toNat = 10 ^ (decimalDigits chunkStart).toNat) := by
  have short := few_digits chunkStart
  by_cases long : 20 ≤ decimalDigits chunkStart
  · have full : (digitLimit chunkStart).toNat = 2 ^ 64 - 1 := by
      rw [digitLimit, if_pos long]
      rfl
    exact ⟨by omega, fun few => absurd long (short.mp few)⟩
  · have few := short.mpr long
    have power := pow10_correct _ few
    have bounds := pow10_exact chunkStart few
    rw [digitLimit, if_neg long]
    omega

theorem chunkWidth_toNat (chunkStart remaining : UInt64) :
    (chunkWidth chunkStart remaining).toNat =
      min (min remaining.toNat (256 * 65535)) (digitLimit chunkStart).toNat := by
  have cap : ((WORKGROUP * MAX_WORKGROUPS).toUInt64).toNat = 256 * 65535 := by decide
  rw [chunkWidth, UInt64.toNat_min, UInt64.toNat_min, cap]

theorem chunkSize_width (chunkStart remaining : UInt64) :
    (chunkSize chunkStart remaining).toNat = (chunkWidth chunkStart remaining).toNat := by
  have width := chunkWidth_toNat chunkStart remaining
  rw [chunkSize_cast, UInt64.toNat_toUInt32]
  omega

theorem chunkSize_toNat (chunkStart remaining : UInt64) :
    ∃ limit, (chunkSize chunkStart remaining).toNat =
        min (min remaining.toNat (256 * 65535)) limit ∧ 1 ≤ limit ∧
      ((decimalDigits chunkStart).toNat < 20 ->
        limit + chunkStart.toNat = 10 ^ (decimalDigits chunkStart).toNat) := by
  refine ⟨(digitLimit chunkStart).toNat, ?_, digitLimit_toNat chunkStart⟩
  rw [chunkSize_width, chunkWidth_toNat]

theorem chunkSize_pos (chunkStart remaining : UInt64) (more : 0 < remaining) :
    1 ≤ (chunkSize chunkStart remaining).toNat ∧
      (chunkSize chunkStart remaining).toNat ≤ remaining.toNat := by
  have left : 0 < remaining.toNat := UInt64.lt_iff_toNat_lt.mp more
  obtain ⟨limit, size, positive, -⟩ := chunkSize_toNat chunkStart remaining
  omega

theorem rest_toNat (chunkStart remaining : UInt64) (more : 0 < remaining) :
    (remaining - (chunkSize chunkStart remaining).toUInt64).toNat =
      remaining.toNat - (chunkSize chunkStart remaining).toNat := by
  have within := (chunkSize_pos chunkStart remaining more).2
  rw [UInt64.toNat_sub_of_le, UInt32.toNat_toUInt64]
  rwa [UInt64.le_iff_toNat_le, UInt32.toNat_toUInt64]

theorem chunkSize_ok (chunkStart remaining : UInt64)
    (more : 0 < remaining) (fits : chunkStart.toNat + remaining.toNat ≤ 2 ^ 64) :
    DispatchOk (chunkStart, chunkSize chunkStart remaining, decimalDigits chunkStart) := by
  have left : 0 < remaining.toNat := UInt64.lt_iff_toNat_lt.mp more
  have digits := decimalDigits_correct chunkStart
  have positive := Decimal.digits_length_pos chunkStart.toNat
  obtain ⟨limit, size, -, exact⟩ := chunkSize_toNat chunkStart remaining
  have within := chunkSize_pos chunkStart remaining more
  refine ⟨within.1, by simp only; omega, by simp only; omega, fun i less => ?_⟩
  simp only at less ⊢
  have atLeast : (Decimal.digits chunkStart.toNat).length ≤
      (Decimal.digits (chunkStart.toNat + i)).length := by
    have below := (Decimal.digits_length_le (chunkStart.toNat + i) _
      (Decimal.digits_length_pos _)).mp (Nat.le_refl _)
    exact (Decimal.digits_length_le _ _ (Decimal.digits_length_pos _)).mpr (by omega)
  have atMost : (Decimal.digits (chunkStart.toNat + i)).length ≤
      (decimalDigits chunkStart).toNat := by
    by_cases few : (decimalDigits chunkStart).toNat < 20
    · have power := exact few
      exact (Decimal.digits_length_le _ _ (by omega)).mpr (by omega)
    · have short := Decimal.digits_length_u64 (chunkStart.toNat + i) (by omega)
      omega
  omega

section
variable {m : Type -> Type} [Monad m] (fetchAdd : UInt64 -> m Unit)
  (f : UInt64 -> UInt32 -> UInt32 -> m ChunkOutcome)

def chunkLoop (start off remaining : UInt64) : m (Option UInt64) :=
  if _more : 0 < remaining then do
    let chunkStart := start + off
    let c := chunkSize chunkStart remaining
    fetchAdd c.toUInt64
    match ← f chunkStart c (decimalDigits chunkStart) with
    | .found nonce => pure (some nonce)
    | .abort => pure none
    | .notFound => chunkLoop start (off + c.toUInt64) (remaining - c.toUInt64)
  else pure none
termination_by remaining.toNat
decreasing_by
  have size := chunkSize_pos (start + off) remaining _more
  have rest := rest_toNat (start + off) remaining _more
  omega

def mineChunks (start count : UInt64) : m (Option UInt64) :=
  chunkLoop fetchAdd f start 0 count

end

section
variable {σ : Type} (fetchAdd : UInt64 -> Proc σ Unit)

/-- The loop rule: `inv k` holds when the first `k` nonces have been dispatched in vain. -/
theorem chunkLoop_steps (f : UInt64 -> UInt32 -> UInt32 -> Proc σ ChunkOutcome) (start : UInt64)
    (count : Nat) (small : count < 2 ^ 64) (inv : Nat -> σ -> Prop) (post : Option (Option UInt64) -> σ -> Prop)
    (dispatch : ∀ off remaining s, off.toNat + remaining.toNat = count -> 0 < remaining ->
      inv off.toNat s ->
      Proc.Ensures
        (do fetchAdd (chunkSize (start + off) remaining).toUInt64
            f (start + off) (chunkSize (start + off) remaining) (decimalDigits (start + off)))
        (Proc.Then (fun outcome t =>
          match outcome with
          | .notFound => inv (off.toNat + (chunkSize (start + off) remaining).toNat) t
          | .found nonce => post (some (some nonce)) t
          | .abort => post (some none) t) (post none)) s)
    (exhausted : ∀ s, inv count s -> post (some none) s) (off remaining : UInt64)
    (total : off.toNat + remaining.toNat = count) (s : σ) (holds : inv off.toNat s) :
    Proc.Ensures (chunkLoop fetchAdd f start off remaining) post s := by
  rw [chunkLoop]
  by_cases more : 0 < remaining
  · have size := chunkSize_pos (start + off) remaining more
    have rest := rest_toNat (start + off) remaining more
    have step := dispatch off remaining s total more holds
    simp only [more, dif_pos, Proc.ensures_bind] at step ⊢
    refine step.mono fun o t counted => ?_
    cases o with
    | none => exact counted
    | some u =>
      refine Proc.Ensures.mono counted fun o t outcome => ?_
      rcases o with _ | _ | nonce | _
      · exact outcome
      · have consumed : (off + (chunkSize (start + off) remaining).toUInt64).toNat =
            off.toNat + (chunkSize (start + off) remaining).toNat := by
          rw [UInt64.toNat_add, UInt32.toNat_toUInt64]
          exact Nat.mod_eq_of_lt (by omega)
        exact chunkLoop_steps f start count small inv post dispatch exhausted _ _
          (by omega) t (by rw [consumed]; exact outcome)
      · exact (Proc.ensures_pure _ _ _).mpr outcome
      · exact (Proc.ensures_pure _ _ _).mpr outcome
  · have empty : remaining.toNat = 0 := by
      simp only [UInt64.lt_iff_toNat_lt, UInt64.reduceToNat] at more
      omega
    simp only [more, dif_neg, not_false_iff, Proc.ensures_pure]
    exact exhausted s (by rw [← total, empty]; exact holds)
termination_by remaining.toNat

theorem chunkLoop_rule (f : UInt64 -> UInt32 -> UInt32 -> Proc σ ChunkOutcome) (start : UInt64)
    (count : Nat) (small : count < 2 ^ 64) (fits : start.toNat + count ≤ 2 ^ 64)
    (inv : Nat -> σ -> Prop) (post : Option (Option UInt64) -> σ -> Prop)
    (dispatch : ∀ k s chunkStart c nd, inv k s -> chunkStart.toNat = start.toNat + k ->
      k + c.toNat ≤ count -> DispatchOk (chunkStart, c, nd) ->
      Proc.Ensures (do fetchAdd c.toUInt64; f chunkStart c nd)
        (Proc.Then (fun outcome t =>
          match outcome with
          | .notFound => inv (k + c.toNat) t
          | .found nonce => post (some (some nonce)) t
          | .abort => post (some none) t) (post none)) s)
    (exhausted : ∀ s, inv count s -> post (some none) s) (off remaining : UInt64)
    (total : off.toNat + remaining.toNat = count) (s : σ) (holds : inv off.toNat s) :
    Proc.Ensures (chunkLoop fetchAdd f start off remaining) post s := by
  refine chunkLoop_steps fetchAdd f start count small inv post ?_ exhausted off remaining
    total s holds
  intro off remaining s total more holds
  have left : 0 < remaining.toNat := UInt64.lt_iff_toNat_lt.mp more
  have first : (start + off).toNat = start.toNat + off.toNat := by
    rw [UInt64.toNat_add]
    exact Nat.mod_eq_of_lt (by omega)
  have size := chunkSize_pos (start + off) remaining more
  exact dispatch off.toNat s (start + off) _ _ holds first (by omega)
    (chunkSize_ok (start + off) remaining more (by omega))

theorem chunkLoop_total (f : UInt64 -> UInt32 -> UInt32 -> Proc σ ChunkOutcome)
    (counted : ∀ c, Proc.Total (fetchAdd c))
    (chunks : ∀ chunkStart c nd, Proc.Total (f chunkStart c nd))
    (start off remaining : UInt64) : Proc.Total (chunkLoop fetchAdd f start off remaining) := by
  induction off, remaining using chunkLoop.induct start with
  | case1 off remaining more chunkStart c ih =>
    rw [chunkLoop, dif_pos more]
    refine (counted _).bind fun _ => (chunks _ _ _).bind fun outcome => ?_
    cases outcome with
    | notFound => exact ih
    | found nonce => exact Proc.total_pure _
    | abort => exact Proc.total_pure _
  | case2 off remaining more =>
    rw [chunkLoop, dif_neg more]
    exact Proc.total_pure _

theorem chunkLoop_within (f g : UInt64 -> UInt32 -> UInt32 -> Proc σ ChunkOutcome)
    (chunks : ∀ chunkStart c nd, Proc.Within (f chunkStart c nd) (g chunkStart c nd))
    (start off remaining : UInt64) :
    Proc.Within (chunkLoop fetchAdd f start off remaining)
      (chunkLoop fetchAdd g start off remaining) := by
  induction off, remaining using chunkLoop.induct start with
  | case1 off remaining more chunkStart c ih =>
    rw [chunkLoop, chunkLoop, dif_pos more, dif_pos more]
    refine (Proc.Within.refl _).bind fun _ => (chunks _ _ _).bind fun outcome => ?_
    cases outcome with
    | notFound => exact ih
    | found nonce => exact Proc.Within.refl _
    | abort => exact Proc.Within.refl _
  | case2 off remaining more =>
    rw [chunkLoop, chunkLoop, dif_neg more, dif_neg more]
    exact Proc.Within.refl _

end

theorem mineChunks_rule {σ : Type} (fetchAdd : UInt64 -> Proc σ Unit)
    (f : UInt64 -> UInt32 -> UInt32 -> Proc σ ChunkOutcome) (start count : UInt64)
    (fits : start.toNat + count.toNat ≤ 2 ^ 64) (inv : Nat -> σ -> Prop)
    (post : Option (Option UInt64) -> σ -> Prop)
    (dispatch : ∀ k s chunkStart c nd, inv k s -> chunkStart.toNat = start.toNat + k ->
      k + c.toNat ≤ count.toNat -> DispatchOk (chunkStart, c, nd) ->
      Proc.Ensures (do fetchAdd c.toUInt64; f chunkStart c nd)
        (Proc.Then (fun outcome t =>
          match outcome with
          | .notFound => inv (k + c.toNat) t
          | .found nonce => post (some (some nonce)) t
          | .abort => post (some none) t) (post none)) s)
    (exhausted : ∀ s, inv count.toNat s -> post (some none) s) (s : σ) (holds : inv 0 s) :
    Proc.Ensures (mineChunks fetchAdd f start count) post s :=
  chunkLoop_rule fetchAdd f start count.toNat count.toNat_lt fits inv post dispatch exhausted 0
    count (by simp) s holds

def anyAnswer (chunkStart : UInt64) (c nd : UInt32) : Proc (List Dispatch) ChunkOutcome :=
  fun s o t => (∃ outcome, o = some outcome) ∧ t = s ++ [(chunkStart, c, nd)]

def Issues (start count : UInt64) (d : Dispatch) : Prop :=
  ∃ o calls, mineChunks (fun _ => pure ()) anyAnswer start count [] o calls ∧ d ∈ calls

theorem issues_ok (start count : UInt64) (fits : start.toNat + count.toNat ≤ 2 ^ 64)
    (d : Dispatch) (issued : Issues start count d) :
    DispatchOk d ∧ start.toNat ≤ d.1.toNat ∧
      d.1.toNat + d.2.1.toNat ≤ start.toNat + count.toNat := by
  obtain ⟨o, calls, run, member⟩ := issued
  let good (calls : List Dispatch) : Prop := ∀ d ∈ calls, DispatchOk d ∧
    start.toNat ≤ d.1.toNat ∧ d.1.toNat + d.2.1.toNat ≤ start.toNat + count.toNat
  have all := mineChunks_rule (fun _ => pure ()) anyAnswer start count fits
    (fun _ => good) (fun _ => good) ?_ (fun _ holds => holds) [] (by simp [good])
  · exact all o calls run d member
  · intro k calls chunkStart c nd before first within ok
    have next : good (calls ++ [(chunkStart, c, nd)]) := by
      intro d member
      rcases List.mem_append.mp member with old | new
      · exact before d old
      · obtain rfl := List.mem_singleton.mp new
        exact ⟨ok, by simp only; omega, by simp only; omega⟩
    simp only [Proc.ensures_bind, Proc.ensures_pure, Proc.Then]
    rintro o t ⟨⟨outcome, rfl⟩, rfl⟩
    cases outcome <;> exact next

theorem issues_first (start count : UInt64) (more : 0 < count) :
    Issues start count (start, chunkSize start count, decimalDigits start) := by
  refine ⟨some none, [(start, chunkSize start count, decimalDigits start)], ?_,
    List.mem_singleton_self _⟩
  rw [mineChunks, chunkLoop, dif_pos more, UInt64.add_zero]
  exact .inr ⟨(), [], ⟨rfl, rfl⟩, .inr ⟨.abort, _, ⟨⟨_, rfl⟩, rfl⟩, rfl, rfl⟩⟩

end ScamMiner.Gpu
