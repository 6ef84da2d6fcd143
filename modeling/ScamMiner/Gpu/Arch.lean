import Mathlib.Data.List.TakeWhile
import Mathlib.Tactic

set_option autoImplicit false

namespace ScamMiner.Gpu

def isAsciiDigit (b : UInt8) : Bool :=
  decide (48 ≤ b.toNat ∧ b.toNat ≤ 57)

def isAsciiAlphanumeric (b : UInt8) : Bool :=
  isAsciiDigit b || decide (65 ≤ b.toNat ∧ b.toNat ≤ 90) || decide (97 ≤ b.toNat ∧ b.toNat ≤ 122)

def gfx : List UInt8 := [103, 102, 120]

-- The inner loop, from `end_` on; `left` bounds its rounds.
def runEnd (buf : List UInt8) : Nat -> Nat -> Option Nat
  | 0, end_ => some end_
  | left + 1, end_ =>
    if end_ < buf.length then do
      let b ← buf[end_]?
      if isAsciiAlphanumeric b then runEnd buf left (end_ + 1) else some end_
    else some end_

-- The candidate at `i`: ASCII, so `from_utf8` takes it.
def candidate (buf : List UInt8) (i : Nat) : Option (Option (List UInt8)) := do
  let b0 ← buf[i]?
  let b1 ← buf[i + 1]?
  let b2 ← buf[i + 2]?
  if b0 = 103 ∧ b1 = 102 ∧ b2 = 120 then do
    let end_ ← runEnd buf buf.length (i + 3)
    let s := (buf.take end_).drop i
    if 3 < s.length then do
      let d ← s[3]?
      if isAsciiDigit d then return some s else return none
    else return none
  else return none

def archLoop (buf : List UInt8) : Nat -> Nat -> Option (Option (List UInt8))
  | 0, _ => some none
  | left + 1, i =>
    if i + 3 ≤ buf.length then do
      match ← candidate buf i with
      | some s => return some s
      | none => archLoop buf left (i + 1)
    else some none

-- `buf` is what `hipGetDeviceProperties` has filled in; `none` is an index outside it.
def queryGcnArch (buf : List UInt8) : Option (Option (List UInt8)) :=
  archLoop buf buf.length 0

def ArchAt (buf : List UInt8) (i : Nat) : Prop :=
  ∃ d rest, buf.drop i = gfx ++ d :: rest ∧ isAsciiDigit d = true

theorem runEnd_correct (buf : List UInt8) (left end_ : Nat) (inside : end_ ≤ buf.length)
    (enough : buf.length ≤ end_ + left) :
    runEnd buf left end_ = some (end_ + ((buf.drop end_).takeWhile isAsciiAlphanumeric).length) := by
  induction left generalizing end_ with
  | zero =>
    have all : buf.drop end_ = [] := List.drop_eq_nil_of_le (by omega)
    rw [runEnd, all]
    rfl
  | succ left ih =>
    by_cases more : end_ < buf.length
    · rw [runEnd, if_pos more, List.getElem?_eq_getElem more, List.drop_eq_getElem_cons more]
      cases letter : isAsciiAlphanumeric buf[end_] with
      | true =>
        have next := ih (end_ + 1) (by omega) (by omega)
        simp only [Option.bind_eq_bind, Option.bind_some, letter, if_true, next,
          List.takeWhile_cons, List.length_cons, Option.some.injEq]
        omega
      | false => simp [letter]
    · have all : buf.drop end_ = [] := List.drop_eq_nil_of_le (by omega)
      rw [runEnd, if_neg more, all]
      rfl

theorem cut_text (buf : List UInt8) (i count : Nat) (b0 b1 b2 : UInt8) (tail : List UInt8)
    (here : buf.drop i = b0 :: b1 :: b2 :: tail) :
    (buf.take (i + 3 + count)).drop i = b0 :: b1 :: b2 :: tail.take count := by
  have width : i + 3 + count - i = count + 1 + 1 + 1 := by omega
  rw [List.drop_take, width, here]
  rfl

theorem candidate_correct (buf : List UInt8) (i : Nat) (inside : i + 3 ≤ buf.length) :
    ArchAt buf i ∧ candidate buf i =
        some (some (gfx ++ (buf.drop (i + 3)).takeWhile isAsciiAlphanumeric)) ∨
      ¬ ArchAt buf i ∧ candidate buf i = some none := by
  obtain ⟨b0, b1, b2, here⟩ : ∃ b0 b1 b2, buf.drop i = b0 :: b1 :: b2 :: buf.drop (i + 3) :=
    ⟨buf[i], buf[i + 1], buf[i + 2], by
      rw [List.drop_eq_getElem_cons (by omega), List.drop_eq_getElem_cons (by omega),
        List.drop_eq_getElem_cons (by omega)]⟩
  have read (k : Nat) : buf[i + k]? = (b0 :: b1 :: b2 :: buf.drop (i + 3))[k]? := by
    rw [← here, List.getElem?_drop]
  have first : buf[i]? = some b0 := read 0
  have second : buf[i + 1]? = some b1 := read 1
  have third : buf[i + 2]? = some b2 := read 2
  have ended := runEnd_correct buf buf.length (i + 3) inside (by omega)
  simp only [candidate, first, second, third, Option.bind_eq_bind, Option.bind_some]
  by_cases named : b0 = 103 ∧ b1 = 102 ∧ b2 = 120
  · obtain ⟨rfl, rfl, rfl⟩ := named
    simp only [and_self, if_true, ended, Option.bind_some]
    have run := List.prefix_iff_eq_take.mp
      (List.takeWhile_prefix isAsciiAlphanumeric (l := buf.drop (i + 3)))
    rw [cut_text buf i _ _ _ _ _ here, ← run]
    cases tail : buf.drop (i + 3) with
    | nil =>
      refine .inr ⟨?_, by simp⟩
      rintro ⟨d, rest, split, -⟩
      rw [here, tail] at split
      simp [gfx] at split
    | cons d rest =>
      cases digit : isAsciiDigit d with
      | true =>
        have letter : isAsciiAlphanumeric d = true := by simp [isAsciiAlphanumeric, digit]
        refine .inl ⟨⟨d, rest, by rw [here, tail]; rfl, digit⟩, ?_⟩
        simp [letter, digit, gfx]
      | false =>
        refine .inr ⟨?_, ?_⟩
        · rintro ⟨d', rest', split, other⟩
          rw [here, tail] at split
          simp only [gfx, List.cons_append, List.nil_append, List.cons.injEq] at split
          rw [split.2.2.2.1] at digit
          simp [other] at digit
        · cases letter : isAsciiAlphanumeric d <;> simp [letter, digit]
  · refine .inr ⟨?_, by rw [if_neg named]; rfl⟩
    rintro ⟨d, rest, split, -⟩
    rw [here] at split
    simp only [gfx, List.cons_append, List.nil_append, List.cons.injEq] at split
    exact named ⟨split.1, split.2.1, split.2.2.1⟩

theorem archLoop_correct (buf : List UInt8) (left i : Nat) (enough : buf.length ≤ i + left) :
    (∃ j, i ≤ j ∧ ArchAt buf j ∧ (∀ k, i ≤ k -> k < j -> ¬ ArchAt buf k) ∧ archLoop buf left i =
        some (some (gfx ++ (buf.drop (j + 3)).takeWhile isAsciiAlphanumeric))) ∨
      (∀ j, i ≤ j -> ¬ ArchAt buf j) ∧ archLoop buf left i = some none := by
  have beyond (j : Nat) (past : buf.length < j + 3) : ¬ ArchAt buf j := by
    rintro ⟨d, rest, here, -⟩
    have size := congrArg List.length here
    simp only [List.length_drop, gfx, List.length_append, List.length_cons, List.length_nil] at size
    omega
  induction left generalizing i with
  | zero => exact .inr ⟨fun j above => beyond j (by omega), rfl⟩
  | succ left ih =>
    by_cases inside : i + 3 ≤ buf.length
    · rw [archLoop, if_pos inside]
      rcases candidate_correct buf i inside with ⟨found, cut⟩ | ⟨poor, cut⟩
      · refine .inl ⟨i, Nat.le_refl i, found, fun k above below => by omega, ?_⟩
        rw [cut]
        rfl
      · have here (k : Nat) (above : i ≤ k) (later : ¬ i + 1 ≤ k) : ¬ ArchAt buf k := by
          obtain rfl : k = i := by omega
          exact poor
        have next : (candidate buf i >>= fun
            | some s => some (some s)
            | none => archLoop buf left (i + 1)) = archLoop buf left (i + 1) := by
          rw [cut]
          rfl
        rcases ih (i + 1) (by omega) with ⟨j, above, found, least, rest⟩ | ⟨none_, rest⟩
        · refine .inl ⟨j, by omega, found, fun k low below => ?_, next.trans rest⟩
          by_cases later : i + 1 ≤ k
          · exact least k later below
          · exact here k low later
        · refine .inr ⟨fun j low => ?_, next.trans rest⟩
          by_cases later : i + 1 ≤ j
          · exact none_ j later
          · exact here j low later
    · rw [archLoop, if_neg inside]
      exact .inr ⟨fun j above => beyond j (by omega), rfl⟩

/-- Whatever the runtime leaves in the buffer, no index leaves it, and the name is the first "gfx"
with a digit behind it and all the letters and digits that follow. -/
theorem queryGcnArch_first (buf : List UInt8) :
    (∃ i, ArchAt buf i ∧ (∀ j, j < i -> ¬ ArchAt buf j) ∧ queryGcnArch buf =
        some (some (gfx ++ (buf.drop (i + 3)).takeWhile isAsciiAlphanumeric))) ∨
      (∀ i, ¬ ArchAt buf i) ∧ queryGcnArch buf = some none := by
  rcases archLoop_correct buf buf.length 0 (by omega) with
    ⟨i, -, found, least, cut⟩ | ⟨none_, nothing⟩
  · exact .inl ⟨i, found, fun j before => least j (Nat.zero_le j) before, cut⟩
  · exact .inr ⟨fun i => none_ i (Nat.zero_le i), nothing⟩

example : queryGcnArch "AMD gfx\x00gfx1100\x00".toUTF8.toList =
    some (some "gfx1100".toUTF8.toList) := by
  decide +kernel

end ScamMiner.Gpu
