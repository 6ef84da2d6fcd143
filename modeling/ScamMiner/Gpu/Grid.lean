import ScamMiner.Gpu.Call
import ScamMiner.Gpu.Partition

set_option autoImplicit false

namespace ScamMiner.Gpu

open Fips180 (State Block)

def workgroup : UInt32 := 256

def divCeil (c d : UInt32) : UInt32 :=
  if 0 < c % d then c / d + 1 else c / d

def groups (c : UInt32) : UInt32 :=
  divCeil c workgroup

-- The global work size of an OpenCL launch, a product of `u32`s.
def globalWork (c : UInt32) : UInt32 :=
  divCeil c workgroup * workgroup

@[ext]
structure Place (c : UInt32) where
  group : UInt32
  lane : UInt32
  inGrid : group < groups c
  inGroup : lane < workgroup

-- `blockIdx.x * blockDim.x + threadIdx.x`; the other languages define their global ids by it.
def Place.index {c : UInt32} (p : Place c) : UInt32 :=
  p.group * workgroup + p.lane

theorem groups_toNat (c : UInt32) : (groups c).toNat = (c.toNat + 255) / 256 := by
  have bound := c.toNat_lt
  have rem : (c % workgroup).toNat = c.toNat % 256 := UInt32.toNat_mod c workgroup
  have quot : (c / workgroup).toNat = c.toNat / 256 := UInt32.toNat_div c workgroup
  rw [groups, divCeil]
  split_ifs with more
  · rw [UInt32.lt_iff_toNat_lt, rem] at more
    rw [UInt32.toNat_add, quot]
    simp only [UInt32.reduceToNat] at more ⊢
    omega
  · rw [UInt32.lt_iff_toNat_lt, rem] at more
    rw [quot]
    simp only [UInt32.reduceToNat] at more
    omega

section
variable {c : UInt32}

theorem Place.group_toNat (p : Place c) : p.group.toNat < (c.toNat + 255) / 256 := by
  rw [← groups_toNat]
  exact UInt32.lt_iff_toNat_lt.mp p.inGrid

theorem Place.lane_toNat (p : Place c) : p.lane.toNat < 256 :=
  UInt32.lt_iff_toNat_lt.mp p.inGroup

theorem Place.index_toNat (capped : c.toNat ≤ 256 * 65535) (p : Place c) :
    p.index.toNat = p.group.toNat * 256 + p.lane.toNat := by
  have group := p.group_toNat
  have lane := p.lane_toNat
  rw [Place.index, UInt32.toNat_add, UInt32.toNat_mul]
  simp only [workgroup, UInt32.reduceToNat]
  omega

theorem place_exists (capped : c.toNat ≤ 256 * 65535) (idx : UInt32)
    (inside : idx.toNat < globalSize c) : ∃ p : Place c, p.index = idx := by
  rw [globalSize] at inside
  have rem : (idx % workgroup).toNat = idx.toNat % 256 := UInt32.toNat_mod idx workgroup
  have quot : (idx / workgroup).toNat = idx.toNat / 256 := UInt32.toNat_div idx workgroup
  have grid : idx / workgroup < groups c := by
    rw [UInt32.lt_iff_toNat_lt, groups_toNat, quot]
    omega
  have group : idx % workgroup < workgroup := by
    rw [UInt32.lt_iff_toNat_lt, rem]
    exact Nat.mod_lt _ (by decide)
  let p : Place c := ⟨idx / workgroup, idx % workgroup, grid, group⟩
  refine ⟨p, UInt32.toNat.inj ?_⟩
  rw [p.index_toNat capped, quot, rem]
  omega

theorem place_unique (capped : c.toNat ≤ 256 * 65535) {p q : Place c} (same : p.index = q.index) :
    p = q := by
  have indices := congrArg UInt32.toNat same
  rw [p.index_toNat capped, q.index_toNat capped] at indices
  have left := p.lane_toNat
  have right := q.lane_toNat
  ext
  · omega
  · omega

theorem globalWork_toNat (capped : c.toNat ≤ 256 * 65535) :
    (globalWork c).toNat = globalSize c := by
  have count := groups_toNat c
  rw [groups] at count
  rw [globalWork, UInt32.toNat_mul, count, globalSize]
  simp only [workgroup, UInt32.reduceToNat]
  omega

end

structure Lane (calls : List Dispatch) where
  call : Fin calls.length
  place : Place (calls.get call).2.1

def Lane.dispatch {calls : List Dispatch} (lane : Lane calls) : Dispatch :=
  calls.get lane.call

def Lane.Searches {calls : List Dispatch} (lane : Lane calls) (mid : Midstate State)
    (difficulty : UInt32) (dialect : Dialect) (uninit : TailWords) (nonce : UInt64) : Prop :=
  ∃ words params v, dispatchData mid difficulty lane.dispatch = some (words, params) ∧
    kernelThread dialect uninit words params lane.place.index = some (some v) ∧ v.nonce = nonce

def reached (calls : List Dispatch) (i : Nat) : Nat :=
  sizes (calls.take i)

section
variable {host : State -> Block -> State} {message : List UInt8} {difficulty : UInt32}
  {dialect : Dialect} {uninit : TailWords} {calls : List Dispatch} {start count : UInt64}

theorem Lane.searches_iff (lane : Lane calls) (ok : DispatchOk lane.dispatch) (nonce : UInt64) :
    lane.Searches (Midstate.absorbed host IV message) difficulty dialect uninit nonce ↔
      lane.place.index < lane.dispatch.2.1 ∧
        lane.dispatch.1 + lane.place.index.toUInt64 = nonce := by
  obtain ⟨words, params, data, -, -⟩ := dispatch_runs host message difficulty lane.dispatch ok
  have thread := threads_run ok data dialect uninit lane.place.index
  constructor
  · rintro ⟨words', params', v, data', ran, rfl⟩
    obtain ⟨rfl, rfl⟩ : words = words' ∧ params = params' := by simpa [data] using data'
    rcases thread with ⟨-, idle⟩ | ⟨inside, w, runs, verdict⟩
    · rw [ran] at idle
      cases idle
    · obtain rfl : v = w := by simpa [ran] using runs
      exact ⟨inside, verdict.own.symm⟩
  · rintro ⟨inside, rfl⟩
    rcases thread with ⟨beyond, -⟩ | ⟨-, v, runs, verdict⟩
    · rw [UInt32.le_iff_toNat_le] at beyond
      rw [UInt32.lt_iff_toNat_lt] at inside
      omega
    · exact ⟨words, params, v, data, runs, verdict.own⟩

theorem reached_succ (i : Nat) (bound : i < calls.length) :
    reached calls (i + 1) = reached calls i + calls[i].2.1.toNat := by
  rw [reached, List.take_succ_eq_append_getElem bound, sizes_snoc]
  rfl

theorem reached_mono (calls : List Dispatch) {i j : Nat} (before : i ≤ j) : reached calls i ≤ reached calls j := by
  obtain ⟨more, rfl⟩ := Nat.exists_eq_add_of_le before
  rw [reached, reached, List.take_add, sizes, sizes, List.map_append, List.sum_append]
  omega

theorem reached_all (calls : List Dispatch) : reached calls calls.length = sizes calls := by
  rw [reached, List.take_length]

theorem laid_at {good : Nat -> Dispatch -> Prop} {off : Nat} (laid : Laid good off calls) (i : Nat)
    (bound : i < calls.length) : good (off + reached calls i) calls[i] := by
  induction calls generalizing off i with
  | nil => simp at bound
  | cons d rest ih =>
    cases i with
    | zero => exact laid.1
    | succ i =>
      have later := ih laid.2 i (by simpa using bound)
      simpa [reached, sizes, Nat.add_assoc] using later

theorem call_exists (calls : List Dispatch) (k : Nat) (inside : k < sizes calls) :
    ∃ i, i < calls.length ∧ reached calls i ≤ k ∧ k < reached calls (i + 1) := by
  have all := reached_all calls
  have some_ : ∃ i, k < reached calls i := ⟨calls.length, by omega⟩
  have first := Nat.find_spec some_
  have least (i : Nat) (before : i < Nat.find some_) : reached calls i ≤ k :=
    Nat.not_lt.mp (Nat.find_min some_ before)
  obtain ⟨i, found⟩ : ∃ i, Nat.find some_ = i + 1 := by
    refine Nat.exists_eq_succ_of_ne_zero fun zero => ?_
    rw [zero] at first
    exact absurd first (Nat.not_lt_zero k)
  refine ⟨i, ?_, least i (by omega), found ▸ first⟩
  by_contra beyond
  have past := reached_mono calls (Nat.not_lt.mp beyond)
  have below := least i (by omega)
  omega

/-- The launch of a chunk of `c` nonces: the grid is within the limits, no id wraps, and its threads
are those of `KernelRun`. -/
structure GridFits (c : UInt32) : Prop where
  groups : (groups c).toNat ≤ 65535
  global : (globalWork c).toNat = globalSize c
  ids : ∀ p : Place c, p.index.toNat < globalSize c
  threads : ∀ i : Fin (globalSize c), ∃! p : Place c, p.index = UInt32.ofNat i.val

structure SearchedOnce (start : UInt64) (calls : List Dispatch)
    (searches : Lane calls -> UInt64 -> Prop) : Prop where
  grid : ∀ d ∈ calls, GridFits d.2.1
  inside : ∀ lane nonce, searches lane nonce ->
    start.toNat ≤ nonce.toNat ∧ nonce.toNat < start.toNat + sizes calls
  once : ∀ nonce : UInt64, start.toNat ≤ nonce.toNat ->
    nonce.toNat < start.toNat + sizes calls -> ∃! lane, searches lane nonce

theorem gridFits (c : UInt32) (capped : c.toNat ≤ 256 * 65535) : GridFits c where
  groups := by
    rw [groups_toNat]
    omega
  global := globalWork_toNat capped
  ids := fun p => by
    have group := p.group_toNat
    have lane := p.lane_toNat
    rw [p.index_toNat capped, globalSize]
    omega
  threads := fun i => by
    have index : (UInt32.ofNat i.val).toNat = i.val := by
      have bound := i.isLt
      have size : globalSize c = (c.toNat + 255) / 256 * 256 := rfl
      rw [UInt32.toNat_ofNat']
      exact Nat.mod_eq_of_lt (by omega)
    obtain ⟨p, own⟩ := place_exists capped (UInt32.ofNat i.val) (by rw [index]; exact i.isLt)
    exact ⟨p, own, fun q other => place_unique capped (other.trans own.symm)⟩

theorem Lane.nonce_toNat (laid : Laid (ChunkExact start count) 0 calls) (lane : Lane calls)
    {nonce : UInt64} (searches : lane.Searches (Midstate.absorbed host IV message) difficulty dialect
      uninit nonce) :
    start.toNat + reached calls lane.call.val ≤ nonce.toNat ∧
      nonce.toNat < start.toNat + reached calls (lane.call.val + 1) ∧
      nonce.toNat = lane.dispatch.1.toNat + lane.place.index.toNat := by
  have chunk : ChunkExact start count (0 + reached calls lane.call.val) lane.dispatch :=
    laid_at laid lane.call.val lane.call.isLt
  obtain ⟨inside, rfl⟩ := (lane.searches_iff chunk.ok nonce).mp searches
  have sum := chunk.sum
  have exact_ := chunk.ok.nonce_toNat _ inside
  have less := UInt32.lt_iff_toNat_lt.mp inside
  have next := reached_succ lane.call.val lane.call.isLt
  change _ = reached calls lane.call.val + lane.dispatch.2.1.toNat at next
  omega

theorem laid_searched (laid : Laid (ChunkExact start count) 0 calls) :
    SearchedOnce start calls fun lane nonce =>
      lane.Searches (Midstate.absorbed host IV message) difficulty dialect uninit nonce where
  grid := fun d member => by
    obtain ⟨i, bound, rfl⟩ := List.getElem_of_mem member
    exact gridFits _ (laid_at laid i bound).ok.capped
  inside := fun lane nonce searches => by
    obtain ⟨low, high, -⟩ := lane.nonce_toNat laid searches
    have all : reached calls (lane.call.val + 1) ≤ reached calls calls.length :=
      reached_mono calls lane.call.isLt
    rw [reached_all] at all
    omega
  once := fun nonce low high => by
    obtain ⟨i, bound, from_, upto⟩ := call_exists calls (nonce.toNat - start.toNat) (by omega)
    have chunk := laid_at laid i bound
    have sum := chunk.sum
    have next := reached_succ i bound
    obtain ⟨idx, inside, own⟩ := chunk.ok.index nonce (by omega) (by omega)
    have less := UInt32.lt_iff_toNat_lt.mp inside
    have cap := chunk.ok.capped
    obtain ⟨place, index⟩ := place_exists cap idx (by rw [globalSize]; omega)
    let lane : Lane calls := ⟨⟨i, bound⟩, place⟩
    refine ⟨lane, ?_, fun other searches => ?_⟩
    · rw [← index] at inside own
      exact (lane.searches_iff chunk.ok nonce).mpr ⟨inside, own⟩
    · obtain ⟨above, below, sum'⟩ := other.nonce_toNat laid searches
      obtain ⟨⟨j, bound'⟩, place'⟩ := other
      obtain rfl : j = i := by
        rcases Nat.lt_trichotomy j i with before | same | after
        · have apart : reached calls (j + 1) ≤ reached calls i := reached_mono calls before
          simp only at below
          omega
        · exact same
        · have apart : reached calls (i + 1) ≤ reached calls j := reached_mono calls after
          simp only at above
          omega
      have exact_ := chunk.ok.nonce_toNat idx inside
      rw [own] at exact_
      have same : place'.index = place.index := by
        apply UInt32.toNat.inj
        change nonce.toNat = calls[j].1.toNat + place'.index.toNat at sum'
        rw [index]
        omega
      rw [place_unique cap same]

/-- Whatever the closure answers, the threads launched for the chunks compute every nonce up to where
the loop has come exactly once and no other; in vain means all of the range. -/
theorem threads_partition {τ : Type} (f : UInt64 -> UInt32 -> UInt32 -> Proc τ ChunkOutcome)
    (fits : start.toNat + count.toNat ≤ 2 ^ 64) (counter : UInt64) (inner : τ)
    (host : State -> Block -> State) (message : List UInt8) (difficulty : UInt32)
    (dialect : Dialect) (uninit : TailWords) :
    Proc.Ensures (mineChunks addCounter (recorded f) start count)
      (fun _ t => SearchedOnce start t.dispatched (fun lane nonce =>
          lane.Searches (Midstate.absorbed host IV message) difficulty dialect uninit nonce) ∧
        ((∀ call ∈ t.calls, call.2 = some .notFound) -> sizes t.dispatched = count.toNat))
      ⟨counter, [], inner⟩ := by
  have fresh : InVain start count counter 0 (⟨counter, [], inner⟩ : Chunked τ) :=
    { laid := trivial, counted := by simp [Chunked.dispatched, sizes], vain := by simp,
      reached := rfl }
  refine (chunks_recorded f start count fits counter _ fresh).mono ?_
  rintro o t ⟨recorded, ended⟩
  refine ⟨laid_searched recorded.laid, fun vain => ?_⟩
  rw [Chunked.dispatched]
  generalize t.calls = calls at ended vain
  cases ended with
  | exhausted _ _ all => exact all
  | found calls d nonce =>
    have last := vain (d, some (.found nonce)) (by simp)
    cases last
  | aborted calls d =>
    have last := vain (d, some .abort) (by simp)
    cases last
  | panicked calls d =>
    have last := vain (d, none) (by simp)
    cases last

theorem threads_partition_boundary :
    Proc.Ensures
      (mineChunks addCounter (recorded fun _ _ _ => (pure .notFound : Proc Unit ChunkOutcome))
        999990 30)
      (fun _ t => SearchedOnce 999990 t.dispatched (fun lane nonce => lane.Searches
          (Midstate.absorbed Fips180.compress IV [116, 95]) 6 .hip (Vector.replicate 32 0) nonce) ∧
        ((∀ call ∈ t.calls, call.2 = some .notFound) -> sizes t.dispatched = (30 : UInt64).toNat))
      ⟨7, [], ()⟩ :=
  threads_partition _ (by decide) 7 () _ _ _ _ _

end

end ScamMiner.Gpu
