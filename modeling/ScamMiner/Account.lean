import Mathlib.Tactic

set_option autoImplicit false

namespace ScamMiner.Account

-- `char::is_whitespace`, the Unicode property White_Space.
def isWhitespace (c : Char) : Bool :=
  let n := c.toNat
  decide (9 ≤ n ∧ n ≤ 13) || decide (0x2000 ≤ n ∧ n ≤ 0x200a) ||
    [0x20, 0x85, 0xa0, 0x1680, 0x2028, 0x2029, 0x202f, 0x205f, 0x3000].contains n

def kept (c : Char) : Bool :=
  !isWhitespace c && c != '-'

-- `str::to_uppercase` maps each character on its own.
def toUppercase (upper : Char -> List Char) (s : String) : String :=
  String.ofList (s.toList.flatMap upper)

def accountError : String :=
  "Invalid account format. Expected DN420042... (24 chars)"

def bank : List Char :=
  "DN420042".toList

def parseAccount (upper : Char -> List Char) (account : String) : Except String String :=
  let clean := toUppercase upper (String.ofList (account.toList.filter kept))
  let clean :=
    if clean.utf8ByteSize = 16 ∧ clean.toList.all Char.isDigit then String.ofList bank ++ clean
    else clean
  if ¬ bank.isPrefixOf clean.toList ∨ clean.utf8ByteSize ≠ 24 then .error accountError
  else .ok clean

/-- What is used of Unicode uppercasing. -/
structure UnicodeUpper (upper : Char -> List Char) : Prop where
  ascii : ∀ c, c.toNat < 128 -> upper c = [c.toUpper]
  settled : ∀ c d, d ∈ upper c -> upper d = [d]
  kept : ∀ c, kept c = true -> ∀ d ∈ upper c, kept d = true

theorem ascii_rule (good : Char -> Prop) (table : ∀ n : Fin 128, good (Char.ofNat n)) (c : Char)
    (small : c.toNat < 128) : good c := by
  have entry := table ⟨c.toNat, small⟩
  rwa [Char.ofNat_toNat] at entry

theorem toUpper_wide (c : Char) (wide : 128 ≤ c.toNat) : c.toUpper = c := by
  have outside : ¬ ('a'.val ≤ c.val ∧ c.val ≤ 'z'.val) := by
    rintro ⟨-, upto⟩
    have bound : c.toNat ≤ 122 := UInt32.le_iff_toNat_le.mp upto
    omega
  exact dif_neg outside

theorem toUpper_ascii (c : Char) (small : c.toNat < 128) :
    c.toUpper.toNat < 128 ∧ c.toUpper.toUpper = c.toUpper ∧ kept c.toUpper = kept c :=
  ascii_rule (fun c => c.toUpper.toNat < 128 ∧ c.toUpper.toUpper = c.toUpper ∧
    kept c.toUpper = kept c) (by decide) c small

theorem digit_ascii (c : Char) (digit : c.isDigit = true) :
    c.toNat < 128 ∧ c.toUpper = c ∧ kept c = true := by
  have small : c.toNat < 128 := by
    simp only [Char.isDigit, Bool.and_eq_true, decide_eq_true_eq] at digit
    have bound : c.toNat ≤ 57 := UInt32.le_iff_toNat_le.mp digit.2
    omega
  refine ⟨small, ?_⟩
  revert digit
  exact ascii_rule (fun c => c.isDigit = true -> c.toUpper = c ∧ kept c = true) (by decide) c small

theorem utf8Size_one (c : Char) : c.utf8Size = 1 ↔ c.toNat < 128 := by
  have narrow : c.val ≤ 0x7f ↔ c.toNat < 128 := by
    rw [UInt32.le_iff_toNat_le]
    exact Nat.lt_succ_iff.symm
  rw [← narrow, Char.utf8Size]
  split_ifs <;> simp_all

def utf8Len (clean : List Char) : Nat :=
  (clean.map Char.utf8Size).sum

theorem utf8ByteSize_ofList (clean : List Char) :
    (String.ofList clean).utf8ByteSize = utf8Len clean := by
  induction clean with
  | nil => rfl
  | cons c rest ih =>
    have split : String.ofList (c :: rest) = String.singleton c ++ String.ofList rest := by
      apply String.toList_inj.mp
      simp
    rw [split, String.utf8ByteSize_append, String.utf8ByteSize_singleton, ih]
    simp [utf8Len]

theorem length_le_utf8Len (clean : List Char) : clean.length ≤ utf8Len clean := by
  induction clean with
  | nil => exact Nat.le_refl _
  | cons c rest ih =>
    have one := c.utf8Size_pos
    simp only [utf8Len, List.map_cons, List.sum_cons, List.length_cons] at ih ⊢
    omega

theorem utf8Len_ascii (clean : List Char) :
    utf8Len clean = clean.length ↔ ∀ c ∈ clean, c.toNat < 128 := by
  induction clean with
  | nil => simp [utf8Len]
  | cons c rest ih =>
    have one := c.utf8Size_pos
    have rest_le := length_le_utf8Len rest
    have narrow := utf8Size_one c
    rw [List.forall_mem_cons, ← ih, ← narrow]
    simp only [utf8Len, List.map_cons, List.sum_cons, List.length_cons] at rest_le ⊢
    omega

section
variable (upper : Char -> List Char)

def cleaned (input : String) : List Char :=
  (input.toList.filter kept).flatMap upper

def bare (input : String) : List Char :=
  (input.toList.filter kept).map Char.toUpper

def BareDigits (clean : List Char) : Prop :=
  clean.length = 16 ∧ clean.all Char.isDigit = true

instance (clean : List Char) : Decidable (BareDigits clean) :=
  inferInstanceAs (Decidable (_ ∧ _))

theorem digits_ascii {clean : List Char} (digits : clean.all Char.isDigit = true) :
    ∀ c ∈ clean, c.toNat < 128 ∧ c.toUpper = c ∧ kept c = true :=
  fun c member => digit_ascii c (List.all_eq_true.mp digits c member)

theorem bank_ascii : ∀ c ∈ bank, c.toNat < 128 ∧ c.toUpper = c ∧ kept c = true := by
  have table : bank.all (fun c => decide (c.toNat < 128) && c.toUpper == c && kept c) = true := by
    decide
  intro c member
  have entry := List.all_eq_true.mp table c member
  simp only [Bool.and_eq_true, decide_eq_true_eq, beq_iff_eq] at entry
  exact ⟨entry.1.1, entry.1.2, entry.2⟩

theorem bank_length : bank.length = 8 := by
  decide

theorem digits_utf8Len {clean : List Char} (digits : clean.all Char.isDigit = true) :
    utf8Len clean = clean.length :=
  (utf8Len_ascii clean).mpr fun c member => (digits_ascii digits c member).1

theorem bare_test (clean : List Char) :
    (utf8Len clean = 16 ∧ clean.all Char.isDigit = true) ↔ BareDigits clean := by
  constructor
  · rintro ⟨bytes, digits⟩
    exact ⟨(digits_utf8Len digits).symm.trans bytes, digits⟩
  · rintro ⟨chars, digits⟩
    exact ⟨(digits_utf8Len digits).trans chars, digits⟩

theorem parseAccount_cleaned (input : String) :
    parseAccount upper input =
      if BareDigits (cleaned upper input) then
        .ok (String.ofList (bank ++ cleaned upper input))
      else if bank <+: cleaned upper input ∧ utf8Len (cleaned upper input) = 24 then
        .ok (String.ofList (cleaned upper input))
      else .error accountError := by
  have clean : toUppercase upper (String.ofList (input.toList.filter kept)) =
      String.ofList (cleaned upper input) := by
    rw [toUppercase, String.toList_ofList, cleaned]
  simp only [parseAccount, clean, utf8ByteSize_ofList, String.toList_ofList, bare_test]
  by_cases bare : BareDigits (cleaned upper input)
  · have size : utf8Len (bank ++ cleaned upper input) = 24 := by
      have digits := digits_utf8Len bare.2
      have wide : utf8Len bank = 8 := by decide
      have count := bare.1
      simp only [utf8Len, List.map_append, List.sum_append] at digits wide ⊢
      omega
    rw [if_pos bare, if_pos bare, ← String.ofList_append, String.toList_ofList,
      utf8ByteSize_ofList, size]
    simp
  · simp only [if_neg bare, String.toList_ofList, utf8ByteSize_ofList,
      List.isPrefixOf_iff_prefix]
    by_cases accepted : bank <+: cleaned upper input ∧ utf8Len (cleaned upper input) = 24
    · simp [accepted]
    · rw [if_neg accepted, if_pos (by tauto)]

/-- What the error text promises for the cleaned input. -/
def promised (clean : List Char) : Except String String :=
  if BareDigits clean then .ok (String.ofList (bank ++ clean))
  else if bank <+: clean ∧ clean.length = 24 then .ok (String.ofList clean)
  else .error accountError

variable {upper}

theorem upper_toUpper (unicode : UnicodeUpper upper) (c : Char) : upper c.toUpper = upper c := by
  by_cases small : c.toNat < 128
  · obtain ⟨still, twice, -⟩ := toUpper_ascii c small
    rw [unicode.ascii _ still, twice, unicode.ascii c small]
  · rw [toUpper_wide c (by omega)]

theorem cleaned_bare (unicode : UnicodeUpper upper) (input : String) :
    cleaned upper input = (bare input).flatMap upper := by
  rw [cleaned, bare, List.flatMap_map]
  simp only [upper_toUpper unicode]

theorem cleaned_settled (clean : List Char)
    (plain : ∀ c ∈ clean, upper c = [c] ∧ kept c = true) :
    cleaned upper (String.ofList clean) = clean := by
  rw [cleaned, String.toList_ofList, List.filter_eq_self.mpr fun c member => (plain c member).2]
  induction clean with
  | nil => rfl
  | cons c rest ih =>
    rw [List.flatMap_cons, (plain c (by simp)).1,
      ih fun d member => plain d (List.mem_cons_of_mem _ member)]
    rfl

theorem cleaned_plain (unicode : UnicodeUpper upper) (input : String) :
    ∀ c ∈ cleaned upper input, upper c = [c] ∧ kept c = true := by
  intro d member
  obtain ⟨c, filtered, mapped⟩ := List.mem_flatMap.mp member
  exact ⟨unicode.settled c d mapped, unicode.kept c (List.mem_filter.mp filtered).2 d mapped⟩

theorem banked_ascii {clean : List Char} (digits : clean.all Char.isDigit = true) :
    ∀ c ∈ bank ++ clean, c.toNat < 128 ∧ c.toUpper = c ∧ kept c = true := by
  intro c member
  rcases List.mem_append.mp member with first | rest
  · exact bank_ascii c first
  · exact digits_ascii digits c rest

theorem banked_plain (unicode : UnicodeUpper upper) {clean : List Char}
    (digits : clean.all Char.isDigit = true) :
    ∀ c ∈ bank ++ clean, upper c = [c] ∧ kept c = true := by
  intro c member
  obtain ⟨small, same, stays⟩ := banked_ascii digits c member
  exact ⟨by rw [unicode.ascii c small, same], stays⟩

theorem parseAccount_fixed (unicode : UnicodeUpper upper) (input account : String)
    (ok : parseAccount upper input = .ok account) : parseAccount upper account = .ok account := by
  rw [parseAccount_cleaned] at ok
  split_ifs at ok with digits accepted
  · obtain rfl := Except.ok.inj ok
    have count := digits.1
    have long : (bank ++ cleaned upper input).length = 24 := by
      rw [List.length_append, bank_length, count]
    have narrow : utf8Len (bank ++ cleaned upper input) = 24 := by
      rw [← long]
      exact (utf8Len_ascii _).mpr fun c member => (banked_ascii digits.2 c member).1
    have whole : ¬ BareDigits (bank ++ cleaned upper input) := by
      rintro ⟨short, -⟩
      omega
    rw [parseAccount_cleaned, cleaned_settled _ (banked_plain unicode digits.2), if_neg whole,
      if_pos ⟨List.prefix_append _ _, narrow⟩]
  · obtain rfl := Except.ok.inj ok
    rw [parseAccount_cleaned, cleaned_settled _ (cleaned_plain unicode input), if_neg digits,
      if_pos accepted]

theorem parseAccount_bare (unicode : UnicodeUpper upper) (input other : String)
    (same : bare other = bare input) : parseAccount upper other = parseAccount upper input := by
  rw [parseAccount_cleaned, parseAccount_cleaned, cleaned_bare unicode, cleaned_bare unicode, same]

def Measured (clean : List Char) : Prop :=
  (∀ c ∈ clean, c.toNat < 128) ∨ (utf8Len clean ≠ 24 ∧ clean.length ≠ 24)

theorem measured_iff (clean : List Char) :
    Measured clean ↔ (utf8Len clean = 24 ↔ clean.length = 24) := by
  have least := length_le_utf8Len clean
  have narrow := utf8Len_ascii clean
  rw [Measured, ← narrow]
  omega

structure AccountKept (upper : Char -> List Char) (input : String) : Prop where
  result : parseAccount upper input = promised (cleaned upper input)
  length : ∀ account, parseAccount upper input = .ok account -> account.length = 24
  fixed : ∀ account, parseAccount upper input = .ok account ->
    parseAccount upper account = .ok account
  same : ∀ other, bare other = bare input ->
    parseAccount upper other = parseAccount upper input

theorem promised_length (clean : List Char) (account : String)
    (ok : promised clean = .ok account) : account.length = 24 := by
  unfold promised at ok
  split_ifs at ok with digits accepted
  · obtain rfl := Except.ok.inj ok
    have count := digits.1
    rw [String.length_ofList, List.length_append, bank_length, count]
  · obtain rfl := Except.ok.inj ok
    rw [String.length_ofList, accepted.2]

theorem bank_not_digits {clean : List Char} (banked : bank <+: clean) : ¬ BareDigits clean := by
  rintro ⟨-, digits⟩
  have first := List.all_eq_true.mp digits 'D' (banked.subset (by decide))
  exact absurd first (by decide)

theorem accountKept_iff (unicode : UnicodeUpper upper) (input : String) :
    AccountKept upper input ↔
      ¬ bank <+: cleaned upper input ∨ Measured (cleaned upper input) := by
  rw [measured_iff]
  have code := parseAccount_cleaned upper input
  constructor
  · intro keeps
    by_cases banked : bank <+: cleaned upper input
    · right
      have whole := bank_not_digits banked
      have result := keeps.result
      rw [code, promised, if_neg whole, if_neg whole] at result
      simp only [banked, true_and] at result
      split_ifs at result with bytes chars chars
      · exact ⟨fun _ => chars, fun _ => bytes⟩
      · exact ⟨fun b => absurd b bytes, fun c => absurd c chars⟩
    · exact .inl banked
  · intro condition
    have result : parseAccount upper input = promised (cleaned upper input) := by
      rw [code, promised]
      by_cases digits : BareDigits (cleaned upper input)
      · rw [if_pos digits, if_pos digits]
      · rw [if_neg digits, if_neg digits]
        by_cases banked : bank <+: cleaned upper input
        · rcases condition with unbanked | measured
          · exact absurd banked unbanked
          · simp only [banked, measured]
        · simp only [banked, false_and]
    exact {
      result := result
      length := fun account ok => promised_length _ _ (result.symm.trans ok)
      fixed := parseAccount_fixed unicode input
      same := parseAccount_bare unicode input }

end

def asciiUpper (c : Char) : List Char :=
  [c.toUpper]

theorem asciiUpper_unicode : UnicodeUpper asciiUpper where
  ascii := fun _ _ => rfl
  settled := by
    intro c d member
    obtain rfl := List.mem_singleton.mp member
    by_cases small : c.toNat < 128
    · rw [asciiUpper, (toUpper_ascii c small).2.1]
    · rw [asciiUpper, toUpper_wide c (by omega), toUpper_wide c (by omega)]
  kept := by
    intro c stays d member
    obtain rfl := List.mem_singleton.mp member
    by_cases small : c.toNat < 128
    · rw [(toUpper_ascii c small).2.2, stays]
    · rw [toUpper_wide c (by omega), stays]

theorem accountKept_iff_ascii : AccountKept asciiUpper "dn42-0042 1234 5678-9012 3456" ↔
    ¬ bank <+: cleaned asciiUpper "dn42-0042 1234 5678-9012 3456" ∨
      Measured (cleaned asciiUpper "dn42-0042 1234 5678-9012 3456") :=
  accountKept_iff asciiUpper_unicode _

-- Eight two-byte letters make up for eight missing digits.
theorem account_accented : ¬ AccountKept asciiUpper "DN420042ÉÉÉÉÉÉÉÉ" := by
  intro keeps
  have clean : cleaned asciiUpper "DN420042ÉÉÉÉÉÉÉÉ" = "DN420042ÉÉÉÉÉÉÉÉ".toList := rfl
  have accepted : parseAccount asciiUpper "DN420042ÉÉÉÉÉÉÉÉ" = .ok "DN420042ÉÉÉÉÉÉÉÉ" := by
    rw [parseAccount_cleaned, clean, if_neg (by decide), if_pos (by decide), String.ofList_toList]
  exact absurd (keeps.length _ accepted) (by decide)

end ScamMiner.Account
