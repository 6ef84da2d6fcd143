import ScamMiner.Backend.Contract

set_option autoImplicit false

namespace ScamMiner

def utf8 (s : String) : List UInt8 :=
  s.toUTF8.toList

theorem byteArray_toList (bytes : ByteArray) : bytes.toList = bytes.data.toList := by
  have loop (left i : Nat) (front : List UInt8) (rest : left = bytes.size - i) :
      ByteArray.toList.loop bytes i front = front.reverse ++ bytes.data.toList.drop i := by
    induction left generalizing i front with
    | zero =>
      have past : bytes.data.toList.length ≤ i := by
        rw [Array.length_toList, ByteArray.size_data]
        omega
      rw [ByteArray.toList.loop, if_neg (by omega), List.drop_of_length_le past, List.append_nil]
    | succ left ih =>
      have inside : i < bytes.data.toList.length := by
        rw [Array.length_toList, ByteArray.size_data]
        omega
      have here : bytes.get! i = bytes.data.toList[i] := by
        rw [Array.length_toList] at inside
        change bytes.data[i]! = _
        rw [getElem!_pos bytes.data i inside, Array.getElem_toList]
      rw [ByteArray.toList.loop, if_pos (by omega), ih (i + 1) _ (by omega), here,
        List.drop_eq_getElem_cons inside]
      simp
  rw [ByteArray.toList, loop bytes.size 0 [] rfl]
  rfl

theorem utf8_append (s t : String) : utf8 (s ++ t) = utf8 s ++ utf8 t := by
  simp [utf8, byteArray_toList]

theorem utf8_injective {s t : String} (same : utf8 s = utf8 t) : s = t := by
  simpa [utf8, byteArray_toList, ← ByteArray.ext_iff, String.toByteArray_inj] using same

theorem utf8_repr (n : Nat) : utf8 n.repr = Decimal.text n := by
  induction n using Nat.strongRecOn with
  | ind n ih =>
    by_cases small : n < 10
    · have digits : ∀ d : Fin 10, utf8 d.val.repr = Decimal.text d.val := by
        decide +kernel
      exact digits ⟨n, small⟩
    · have last := ih (n % 10) (by omega)
      rw [Nat.repr_eq_repr_append_repr (by omega), utf8_append, ih (n / 10) (by omega), last,
        Decimal.text, Decimal.text, Decimal.text, Decimal.digits_step n (by omega),
        Decimal.digits_small (n % 10) (by omega)]
      simp

section
variable {A : Type} {sep : A} {left left' right right' : List A}

theorem split_first (here : sep ∉ left) (here' : sep ∉ left')
    (same : left ++ sep :: right = left' ++ sep :: right') : left = left' ∧ right = right' := by
  induction left generalizing left' with
  | nil =>
    cases left' with
    | nil => exact ⟨rfl, (List.cons.inj same).2⟩
    | cons first rest => exact absurd (List.cons.inj same).1 fun first => here' (by simp [first])
  | cons first rest ih =>
    cases left' with
    | nil => exact absurd (List.cons.inj same).1 fun first => here (by simp [first])
    | cons first' rest' =>
      obtain ⟨rfl, tails⟩ := List.cons.inj same
      obtain ⟨rfl, rights⟩ := ih (fun member => here (List.mem_cons_of_mem _ member))
        (fun member => here' (List.mem_cons_of_mem _ member)) tails
      exact ⟨rfl, rights⟩

theorem split_last (here : sep ∉ right) (here' : sep ∉ right')
    (same : left ++ sep :: right = left' ++ sep :: right') : left = left' ∧ right = right' := by
  have mirrored := congrArg List.reverse same
  simp only [List.reverse_append, List.reverse_cons, List.append_assoc, List.singleton_append]
    at mirrored
  obtain ⟨rights, lefts⟩ := split_first (by simpa using here) (by simpa using here') mirrored
  exact ⟨List.reverse_injective lefts, List.reverse_injective rights⟩

end

def Task.message (task : Task) (nonce : UInt64) : List UInt8 :=
  task.prefixBytes ++ Decimal.text nonce.toNat

def Id.Plain (id : Id) : Prop :=
  '_' ∉ id.display.toList

theorem Id.num_plain (n : UInt64) : (Id.num n).Plain := by
  simp [Id.Plain, Id.display, Nat.underscore_not_in_toDigits]

theorem Task.message_text (task : Task) (nonce : UInt64) :
    task.message nonce = utf8 (task.prefixText ++ nonce.toNat.repr) := by
  rw [Task.message, utf8_append, utf8_repr]
  rfl

theorem repr_injective {m n : Nat} (same : m.repr.toList = n.repr.toList) : m = n := by
  apply Decimal.text_injective
  rw [← utf8_repr, ← utf8_repr, String.toList_inj.mp same]

/-- The message determines the task that was mined and the nonce. -/
theorem message_determines {left right : Task} {m n : UInt64} (plain : left.id.Plain)
    (plain' : right.id.Plain) : left.message m = right.message n ↔
      left.id.display = right.id.display ∧ left.difficulty = right.difficulty ∧
        left.data = right.data ∧ m = n := by
  constructor
  · intro same
    have digits (k : Nat) : '_' ∉ k.repr.toList := by
      simp [Nat.underscore_not_in_toDigits]
    rw [Task.message_text, Task.message_text] at same
    have texts := congrArg String.toList (utf8_injective same)
    simp only [Task.prefixText, String.toList_append, List.append_assoc, Nat.toString_eq_repr]
      at texts
    have past := List.append_cancel_left texts
    -- the id ends at the first underscore, the difficulty at the next
    obtain ⟨ids, past⟩ := split_first plain plain' past
    have past := (List.append_cancel_left_eq "diff_".toList _ _).mp past
    obtain ⟨levels, past⟩ := split_first (digits _) (digits _) past
    -- and the nonce begins behind the last
    obtain ⟨data, nonces⟩ := split_last (digits _) (digits _) past
    exact ⟨String.toList_inj.mp ids, UInt32.toNat.inj (repr_injective levels),
      String.toList_inj.mp data, UInt64.toNat.inj (repr_injective nonces)⟩
  · rintro ⟨ids, levels, data, rfl⟩
    simp only [Task.message, Task.prefixBytes, Task.prefixText, ids, levels, data]

theorem message_determines_numbered : Task.message ⟨.num 1, "a", 2, 0, 99⟩ 12 ≠
    Task.message ⟨.num 1, "a_1", 2, 0, 99⟩ 2 := by
  intro same
  have fields := (message_determines (Id.num_plain 1) (Id.num_plain 1)).mp same
  exact absurd fields.2.2.1 (by decide)

-- A server that names its tasks with underscores can serve two tasks that look the same.
example (n : UInt64) : Task.message ⟨.str "1_diff_2", "b", 3, 0, 9⟩ n =
    Task.message ⟨.num 1, "diff_3_b", 2, 0, 9⟩ n := by
  have same : Task.prefixText ⟨.str "1_diff_2", "b", 3, 0, 9⟩ =
      Task.prefixText ⟨.num 1, "diff_3_b", 2, 0, 9⟩ := by decide +kernel
  simp only [Task.message, Task.prefixBytes, same]

end ScamMiner
