import Mathlib.Data.List.GetD
import Mathlib.Tactic.Common

set_option autoImplicit false

-- `none` is the panic of an index or a range outside the buffer.

namespace Buffer

variable {α : Type} {n : Nat}

-- `buf[lo..hi].copy_from_slice(src)`.
def copyFromSlice (buf : Vector α n) (lo hi : Nat) (src : List α) : Option (Vector α n) :=
  if lo ≤ hi ∧ hi ≤ n ∧ src.length = hi - lo then
    some (Vector.ofFn fun i => if lo ≤ i.val then (src[i.val - lo]?).getD buf[i] else buf[i])
  else none

def store (buf : Vector α n) (at_ : Nat) (value : α) : Option (Vector α n) :=
  if h : at_ < n then some (buf.set at_ value h) else none

def load (buf : Vector α n) (at_ : Nat) : Option α :=
  if h : at_ < n then some buf[at_] else none

-- `buf[lo..hi].fill(value)`.
def fill (buf : Vector α n) (lo hi : Nat) (value : α) : Option (Vector α n) :=
  if lo ≤ hi ∧ hi ≤ n then
    some (Vector.ofFn fun i => if lo ≤ i.val ∧ i.val < hi then value else buf[i])
  else none

-- `buf.copy_within(lo..hi, dest)`: the source range is read before anything is written.
def copyWithin (buf : Vector α n) (lo hi dest : Nat) : Option (Vector α n) :=
  if lo ≤ hi ∧ hi ≤ n ∧ dest + (hi - lo) ≤ n then
    some (Vector.ofFn fun i =>
      if dest ≤ i.val ∧ i.val < dest + (hi - lo) then
        (buf.toList[lo + (i.val - dest)]?).getD buf[i]
      else buf[i])
  else none

def sliceTo (buf : Vector α n) (hi : Nat) : Option (List α) :=
  if hi ≤ n then some (buf.toList.take hi) else none

-- `dst[dest + t] = src[origin + t]` for each `t` below `count`.
def copyLoop {k : Nat} (src : Vector α n) (origin : Nat) (dst : Vector α k) (dest count : Nat) :
    Option (Vector α k) :=
  (List.range count).foldlM (fun dst t => do store dst (dest + t) (← load src (origin + t))) dst

theorem copyFromSlice_inside (buf : Vector α n) (lo hi : Nat) (src : List α)
    (ordered : lo ≤ hi) (inside : hi ≤ n) (same : src.length = hi - lo) :
    copyFromSlice buf lo hi src = some (Vector.ofFn fun i =>
      if lo ≤ i.val then (src[i.val - lo]?).getD buf[i] else buf[i]) := by
  simp [copyFromSlice, ordered, inside, same]

theorem store_inside (buf : Vector α n) (at_ : Nat) (value : α) (inside : at_ < n) :
    store buf at_ value = some (buf.set at_ value inside) := by
  simp [store, inside]

theorem store_outside (buf : Vector α n) (at_ : Nat) (value : α) (outside : n ≤ at_) :
    store buf at_ value = none := by
  simp [store, Nat.not_lt.mpr outside]

theorem load_inside (buf : Vector α n) (at_ : Nat) (inside : at_ < n) :
    load buf at_ = some buf[at_] := by
  simp [load, inside]

theorem fill_inside (buf : Vector α n) (lo hi : Nat) (value : α) (ordered : lo ≤ hi)
    (inside : hi ≤ n) :
    fill buf lo hi value = some (Vector.ofFn fun i =>
      if lo ≤ i.val ∧ i.val < hi then value else buf[i]) := by
  simp [fill, ordered, inside]

theorem copyWithin_inside (buf : Vector α n) (lo hi dest : Nat) (ordered : lo ≤ hi)
    (inside : hi ≤ n) (fits : dest + (hi - lo) ≤ n) :
    copyWithin buf lo hi dest = some (Vector.ofFn fun i =>
      if dest ≤ i.val ∧ i.val < dest + (hi - lo) then
        (buf.toList[lo + (i.val - dest)]?).getD buf[i]
      else buf[i]) := by
  simp [copyWithin, ordered, inside, fits]

theorem sliceTo_inside (buf : Vector α n) (hi : Nat) (inside : hi ≤ n) :
    sliceTo buf hi = some (buf.toList.take hi) := by
  simp [sliceTo, inside]

theorem store_take (buf : Vector α n) (at_ k : Nat) (value : α) (inside : at_ < n) :
    ∃ next, store buf at_ value = some next ∧
      next.toList.take k = (buf.toList.take k).set at_ value := by
  refine ⟨_, store_inside buf at_ value inside, ?_⟩
  rw [Vector.toList_set, List.take_set]

theorem store_drop (buf : Vector α n) (at_ : Nat) (value : α) (inside : at_ < n) :
    ∃ next, store buf at_ value = some next ∧
      next.toList.drop at_ = value :: buf.toList.drop (at_ + 1) := by
  refine ⟨_, store_inside buf at_ value inside, ?_⟩
  have within : at_ < (buf.toList.set at_ value).length := by simpa using inside
  rw [Vector.toList_set, List.drop_eq_getElem_cons within, List.getElem_set_self,
    List.drop_set_of_lt (by omega)]

theorem load_take (buf : Vector α n) (at_ k : Nat) (value : α) (inside : k ≤ n)
    (found : (buf.toList.take k)[at_]? = some value) : load buf at_ = some value := by
  obtain ⟨within, equal⟩ := List.getElem?_eq_some_iff.mp found
  have bound : at_ < n := by
    rw [List.length_take, Vector.length_toList] at within
    omega
  rw [load_inside buf at_ bound, ← equal, List.getElem_take, Vector.getElem_toList]

theorem access_split (buf : Vector α n) (k : Nat) (front back : List α) (value : α) (inside : k ≤ n)
    (split : buf.toList.take k = front ++ value :: back) :
    load buf front.length = some value ∧
      ∀ other, ∃ next, store buf front.length other = some next ∧
        next.toList.take k = front ++ other :: back := by
  have bound : front.length < n := by
    have lengths := congrArg List.length split
    simp only [List.length_take, Vector.length_toList, List.length_append, List.length_cons]
      at lengths
    omega
  constructor
  · apply load_take buf _ k _ inside
    rw [split, List.getElem?_append_right (Nat.le_refl _)]
    simp
  · intro other
    obtain ⟨next, done, taken⟩ := store_take buf front.length k other bound
    refine ⟨next, done, ?_⟩
    rw [taken, split, List.set_append_right _ _ (Nat.le_refl _)]
    simp

theorem copyWithin_front (buf : Vector α n) (lo : Nat) (inside : lo ≤ n) :
    ∃ next, copyWithin buf lo n 0 = some next ∧
      next.toList.take (n - lo) = buf.toList.drop lo := by
  refine ⟨_, copyWithin_inside buf lo n 0 inside (Nat.le_refl _) (by omega), ?_⟩
  apply List.ext_getElem
  · simp
  · intro i inLeft inRight
    have bound : i < n - lo := by simpa using inRight
    have within : lo + i < buf.toList.length := by simp; omega
    simp only [List.getElem_take, List.getElem_drop, Vector.getElem_toList, Vector.getElem_ofFn,
      Nat.zero_le, Nat.zero_add, Nat.sub_zero, true_and, bound, if_true,
      List.getElem?_eq_getElem within, Option.getD_some]

theorem copyWithin_up (buf : Vector α n) (len : Nat) (inside : len + 1 ≤ n) :
    ∃ next, copyWithin buf 0 len 1 = some next ∧
      (next.toList.take (len + 1)).drop 1 = buf.toList.take len := by
  refine ⟨_, copyWithin_inside buf 0 len 1 (Nat.zero_le _) (by omega) (by omega), ?_⟩
  apply List.ext_getElem
  · simp only [List.length_drop, List.length_take, Vector.length_toList]
    omega
  · intro i inLeft inRight
    have bound : i < len := by
      simp only [List.length_take, Vector.length_toList] at inRight
      omega
    have within : i < buf.toList.length := by simp; omega
    simp only [List.getElem_drop, List.getElem_take, Vector.getElem_toList, Vector.getElem_ofFn,
      Nat.sub_zero, Nat.le_add_right, Nat.add_lt_add_left bound 1, and_self, if_true,
      Nat.add_sub_cancel_left, Nat.zero_add, List.getElem?_eq_getElem within, Option.getD_some]

theorem push_front (buf : Vector α n) (len : Nat) (value : α) (inside : len + 1 ≤ n) :
    ∃ moved next, copyWithin buf 0 len 1 = some moved ∧ store moved 0 value = some next ∧
      next.toList.take (len + 1) = value :: buf.toList.take len := by
  obtain ⟨moved, copied, shifted⟩ := copyWithin_up buf len inside
  obtain ⟨next, wrote, final⟩ := store_take moved 0 (len + 1) value (by omega)
  refine ⟨moved, next, copied, wrote, ?_⟩
  cases taken : moved.toList.take (len + 1) with
  | nil =>
    have lengths := congrArg List.length taken
    simp only [List.length_take, Vector.length_toList, List.length_nil] at lengths
    omega
  | cons head back =>
    rw [taken, List.drop_succ_cons, List.drop_zero] at shifted
    rw [final, taken, List.set_cons_zero, shifted]

theorem copyLoop_inside {k : Nat} (src : Vector α n) (origin : Nat) (dst : Vector α k)
    (dest count : Nat) (fromInside : origin + count ≤ n) (toInside : dest + count ≤ k) :
    ∃ out, copyLoop src origin dst dest count = some out ∧
      (∀ t (bound : t < count), out[dest + t] = src[origin + t]) ∧
      ∀ i (bound : i < k), (i < dest ∨ dest + count ≤ i) -> out[i] = dst[i] := by
  induction count with
  | zero => exact ⟨dst, rfl, by simp, fun _ _ _ => rfl⟩
  | succ count ih =>
    obtain ⟨out, looped, copied, kept⟩ := ih (by omega) (by omega)
    refine ⟨out.set (dest + count) src[origin + count], ?_, ?_, ?_⟩
    · rw [copyLoop] at looped
      rw [copyLoop, List.range_succ, List.foldlM_append, looped]
      simp [load_inside src (origin + count) (by omega), store_inside out (dest + count) _ (by omega)]
    · intro t bound
      by_cases last : t = count
      · subst last
        simp
      · rw [Vector.getElem_set_ne _ _ (by omega)]
        exact copied t (by omega)
    · intro i bound outside
      rw [Vector.getElem_set_ne _ _ (by omega)]
      exact kept i bound (by omega)

end Buffer
