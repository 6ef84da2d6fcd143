import ScamMiner.Gpu.Chunks

set_option autoImplicit false

namespace ScamMiner.Gpu

theorem pow10_step (nd : UInt32) (small : nd.toNat < 20) (k : Nat) (less : k < nd.toNat) :
    (pow10 (UInt32.ofNat (k + 1))).toNat = (pow10 (UInt32.ofNat k)).toNat * 10 := by
  have index (k : Nat) (below : k < 20) : (UInt32.ofNat k).toNat = k := by
    rw [UInt32.toNat_ofNat']
    omega
  have next := index (k + 1) (by omega)
  have this := index k (by omega)
  rw [pow10_correct _ (by omega), pow10_correct _ (by omega), next, this, pow_succ]

/-- A chunk `off` nonces into the range, computed without wrapping or truncation. -/
structure ChunkExact (start count : UInt64) (off : Nat) (d : Dispatch) : Prop where
  ok : DispatchOk d
  added : d.1 = start + UInt64.ofNat off
  sum : d.1.toNat = start.toNat + off
  digits : d.2.2 = decimalDigits d.1
  powers : d.2.2.toNat < 20 -> ∀ k, k < d.2.2.toNat ->
    (pow10 (UInt32.ofNat (k + 1))).toNat = (pow10 (UInt32.ofNat k)).toNat * 10
  limit : d.2.2.toNat < 20 -> (pow10 d.2.2).toNat = (pow10 d.2.2 - d.1).toNat + d.1.toNat
  truncated : d.2.1 = (chunkWidth d.1 (count - UInt64.ofNat off)).toUInt32
  width : (chunkWidth d.1 (count - UInt64.ofNat off)).toNat = d.2.1.toNat
  inside : off + d.2.1.toNat ≤ count.toNat

theorem chunk_exact (start count off remaining : UInt64)
    (fits : start.toNat + count.toNat ≤ 2 ^ 64) (total : off.toNat + remaining.toNat = count.toNat)
    (more : 0 < remaining) : ChunkExact start count off.toNat
      (start + off, chunkSize (start + off) remaining, decimalDigits (start + off)) := by
  have left : 0 < remaining.toNat := UInt64.lt_iff_toNat_lt.mp more
  have sum : (start + off).toNat = start.toNat + off.toNat := by
    rw [UInt64.toNat_add]
    exact Nat.mod_eq_of_lt (by omega)
  have rest : count - off = remaining := by
    have within : off ≤ count := by
      rw [UInt64.le_iff_toNat_le]
      omega
    apply UInt64.toNat.inj
    rw [UInt64.toNat_sub_of_le _ _ within]
    omega
  have size := chunkSize_pos (start + off) remaining more
  exact {
    ok := chunkSize_ok (start + off) remaining more (by omega)
    added := by rw [UInt64.ofNat_toNat]
    sum := sum
    digits := rfl
    powers := pow10_step (decimalDigits (start + off))
    limit := fun few => (pow10_exact (start + off) few).2
    truncated := by rw [UInt64.ofNat_toNat, rest, chunkSize_cast]
    width := by rw [UInt64.ofNat_toNat, rest, chunkSize_width]
    inside := by simp only; omega }

-- Each call starts where the one before it ended, `off` nonces into the range.
def Laid (good : Nat -> Dispatch -> Prop) : Nat -> List Dispatch -> Prop
  | _, [] => True
  | off, d :: rest => good off d ∧ Laid good (off + d.2.1.toNat) rest

def sizes (calls : List Dispatch) : Nat :=
  (calls.map fun d => d.2.1.toNat).sum

@[simp]
theorem sizes_snoc (calls : List Dispatch) (d : Dispatch) :
    sizes (calls ++ [d]) = sizes calls + d.2.1.toNat := by
  simp [sizes]

theorem laid_snoc {good : Nat -> Dispatch -> Prop} {off : Nat} {calls : List Dispatch}
    {d : Dispatch} (laid : Laid good off calls) (last : good (off + sizes calls) d) :
    Laid good off (calls ++ [d]) := by
  induction calls generalizing off with
  | nil => exact ⟨last, trivial⟩
  | cons head rest ih =>
    refine ⟨laid.1, ih laid.2 ?_⟩
    simpa [sizes, Nat.add_assoc] using last

theorem laid_length {start count : UInt64} {off : Nat} {calls : List Dispatch}
    (laid : Laid (ChunkExact start count) off calls) : calls.length ≤ sizes calls := by
  induction calls generalizing off with
  | nil => exact Nat.zero_le _
  | cons head rest ih =>
    have one := laid.1.ok.nonempty
    have tail := ih laid.2
    simp only [sizes, List.map_cons, List.sum_cons, List.length_cons] at tail ⊢
    omega

theorem laid_inside {start count : UInt64} {off : Nat} {calls : List Dispatch}
    (laid : Laid (ChunkExact start count) off calls) (bound : off ≤ count.toNat) :
    off + sizes calls ≤ count.toNat := by
  induction calls generalizing off with
  | nil => exact bound
  | cons head rest ih =>
    have tail := ih laid.2 laid.1.inside
    simp only [sizes, List.map_cons, List.sum_cons] at tail ⊢
    omega

structure Chunked (τ : Type) where
  counter : UInt64
  calls : List (Dispatch × Option ChunkOutcome)
  inner : τ

section
variable {τ : Type}

def Chunked.dispatched (s : Chunked τ) : List Dispatch :=
  s.calls.map Prod.fst

def addCounter (c : UInt64) : Proc (Chunked τ) Unit :=
  Proc.modify fun s => { s with counter := s.counter + c }

-- A call of `f`, noted with its outcome; `none` is a panic.
def recorded (f : UInt64 -> UInt32 -> UInt32 -> Proc τ ChunkOutcome)
    (chunkStart : UInt64) (c nd : UInt32) : Proc (Chunked τ) ChunkOutcome :=
  fun s o t => ∃ inner, f chunkStart c nd s.inner o inner ∧
    t = { s with calls := s.calls ++ [((chunkStart, c, nd), o)], inner := inner }

/-- How a run ends: every call but the last came back in vain. -/
inductive Ends (count : UInt64) :
    List (Dispatch × Option ChunkOutcome) -> Option (Option UInt64) -> Prop where
  | exhausted (calls : List (Dispatch × Option ChunkOutcome))
      (vain : ∀ call ∈ calls, call.2 = some .notFound)
      (all : sizes (calls.map Prod.fst) = count.toNat) : Ends count calls (some none)
  | found (calls : List (Dispatch × Option ChunkOutcome)) (d : Dispatch) (nonce : UInt64)
      (vain : ∀ call ∈ calls, call.2 = some .notFound) :
      Ends count (calls ++ [(d, some (.found nonce))]) (some (some nonce))
  | aborted (calls : List (Dispatch × Option ChunkOutcome)) (d : Dispatch)
      (vain : ∀ call ∈ calls, call.2 = some .notFound) :
      Ends count (calls ++ [(d, some .abort)]) (some none)
  | panicked (calls : List (Dispatch × Option ChunkOutcome)) (d : Dispatch)
      (vain : ∀ call ∈ calls, call.2 = some .notFound) : Ends count (calls ++ [(d, none)]) none

-- What the calls so far have left behind, `counter` being the value at the start.
structure Recorded (start count counter : UInt64) (s : Chunked τ) : Prop where
  laid : Laid (ChunkExact start count) 0 s.dispatched
  counted : s.counter = counter + UInt64.ofNat (sizes s.dispatched)

structure InVain (start count counter : UInt64) (k : Nat) (s : Chunked τ) : Prop extends
    Recorded start count counter s where
  vain : ∀ call ∈ s.calls, call.2 = some .notFound
  reached : sizes s.dispatched = k

theorem Recorded.call {start count counter : UInt64} {s : Chunked τ}
    (before : Recorded start count counter s) (d : Dispatch) (o : Option ChunkOutcome)
    (inner : τ) (chunk : ChunkExact start count (sizes s.dispatched) d) :
    Recorded start count counter
      { counter := s.counter + d.2.1.toUInt64, calls := s.calls ++ [(d, o)], inner := inner } where
  laid := by
    have last : ChunkExact start count (0 + sizes s.dispatched) d := by rwa [Nat.zero_add]
    simpa [Chunked.dispatched] using laid_snoc before.laid last
  counted := by
    have widened : UInt64.ofNat d.2.1.toNat = d.2.1.toUInt64 := UInt64.ofNat_uInt32ToNat d.2.1
    simp only [Chunked.dispatched, List.map_append, List.map_cons, List.map_nil, sizes_snoc,
      UInt64.ofNat_add, widened, before.counted, UInt64.add_assoc]

theorem chunks_recorded (f : UInt64 -> UInt32 -> UInt32 -> Proc τ ChunkOutcome)
    (start count : UInt64) (fits : start.toNat + count.toNat ≤ 2 ^ 64) (counter : UInt64)
    (s : Chunked τ) (fresh : InVain start count counter 0 s) :
    Proc.Ensures (mineChunks addCounter (recorded f) start count)
      (fun o t => Recorded start count counter t ∧ Ends count t.calls o) s := by
  refine chunkLoop_steps addCounter (recorded f) start count.toNat count.toNat_lt
    (InVain start count counter) _ ?_ ?_ 0 count (by simp) s fresh
  · intro off remaining s total more before
    simp only [addCounter, Proc.ensures_bind, Proc.ensures_modify, Proc.Then]
    rintro o t ⟨inner, -, rfl⟩
    have chunk := chunk_exact start count off remaining fits total more
    rw [← before.reached] at chunk
    have after := before.toRecorded.call _ o inner chunk
    rcases o with _ | _ | nonce | _
    · exact ⟨after, .panicked _ _ before.vain⟩
    · refine { toRecorded := after, vain := ?_, reached := ?_ }
      · intro call member
        rcases List.mem_append.mp member with old | new
        · exact before.vain call old
        · obtain rfl := List.mem_singleton.mp new
          rfl
      · have reached := before.reached
        simp only [Chunked.dispatched, List.map_append, List.map_cons, List.map_nil,
          sizes_snoc] at reached ⊢
        rw [reached]
    · exact ⟨after, .found _ _ _ before.vain⟩
    · exact ⟨after, .aborted _ _ before.vain⟩
  · intro s before
    exact ⟨before.toRecorded, .exhausted _ before.vain before.reached⟩

theorem recorded_total (f : UInt64 -> UInt32 -> UInt32 -> Proc τ ChunkOutcome)
    (total : ∀ chunkStart c nd, Proc.Total (f chunkStart c nd)) (chunkStart : UInt64)
    (c nd : UInt32) : Proc.Total (recorded f chunkStart c nd) := by
  intro s
  obtain ⟨o, inner, outcome⟩ := total chunkStart c nd s.inner
  exact ⟨o, _, inner, outcome, rfl⟩

/-- The calls partition the range as far as the loop goes, and the loop stops. -/
theorem mineChunks_partition (f : UInt64 -> UInt32 -> UInt32 -> Proc τ ChunkOutcome)
    (start count : UInt64) (fits : start.toNat + count.toNat ≤ 2 ^ 64) (counter : UInt64)
    (inner : τ) :
    Proc.Ensures (mineChunks addCounter (recorded f) start count)
      (fun o t => Laid (ChunkExact start count) 0 t.dispatched ∧ Ends count t.calls o ∧
        t.calls.length ≤ count.toNat ∧
        sizes t.dispatched ≤ count.toNat ∧
        t.counter = counter + UInt64.ofNat (sizes t.dispatched)) ⟨counter, [], inner⟩ ∧
    ((∀ chunkStart c nd, Proc.Total (f chunkStart c nd)) ->
      Proc.Total (mineChunks addCounter (recorded f) start count)) := by
  constructor
  · have fresh : InVain start count counter 0 (⟨counter, [], inner⟩ : Chunked τ) :=
      { laid := trivial, counted := by simp [Chunked.dispatched, sizes], vain := by simp,
        reached := rfl }
    refine (chunks_recorded f start count fits counter _ fresh).mono ?_
    rintro o t ⟨recorded, ended⟩
    have many := laid_length recorded.laid
    have most := laid_inside recorded.laid (Nat.zero_le _)
    have length : t.calls.length = t.dispatched.length := by simp [Chunked.dispatched]
    exact ⟨recorded.laid, ended, by omega, by omega, recorded.counted⟩
  · intro total
    exact chunkLoop_total addCounter (recorded f) (fun _ => Proc.total_modify _)
      (recorded_total f total) start 0 count

theorem mineChunks_partition_boundary :
    Proc.Ensures
      (mineChunks addCounter (recorded fun _ _ _ => (pure .notFound : Proc Unit ChunkOutcome))
        999990 30)
      (fun o t => Laid (ChunkExact 999990 30) 0 t.dispatched ∧ Ends 30 t.calls o ∧
        t.calls.length ≤ (30 : UInt64).toNat ∧ sizes t.dispatched ≤ (30 : UInt64).toNat ∧
        t.counter = 7 + UInt64.ofNat (sizes t.dispatched)) ⟨7, [], ()⟩ ∧
    Proc.Total
      (mineChunks addCounter (recorded fun _ _ _ => (pure .notFound : Proc Unit ChunkOutcome))
        999990 30) :=
  (mineChunks_partition _ 999990 30 (by decide) 7 ()).imp_right fun terminates =>
    terminates fun _ _ _ => Proc.total_pure _

end

end ScamMiner.Gpu
