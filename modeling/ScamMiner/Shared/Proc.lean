import Mathlib.Tactic.Common

set_option autoImplicit false

/-- A relation between a state and the results and states a program may end in; the result `none` is
a panic. -/
def Proc (σ α : Type) : Type :=
  σ -> Option α -> σ -> Prop

namespace Proc

variable {σ α β : Type}

instance : Monad (Proc σ) where
  pure a := fun s o t => o = some a ∧ t = s
  bind x f := fun s o t =>
    (o = none ∧ x s none t) ∨ ∃ a u, x s (some a) u ∧ f a u o t

theorem bind_iff {x : Proc σ α} {f : α -> Proc σ β} {s t : σ} {o : Option β} :
    (x >>= f) s o t ↔ (o = none ∧ x s none t) ∨ ∃ a u, x s (some a) u ∧ f a u o t :=
  Iff.rfl

theorem pure_bind_eq (a : α) (f : α -> Proc σ β) : pure a >>= f = f a := by
  funext s o t
  apply propext
  constructor
  · rintro (⟨-, ⟨⟩, -⟩ | ⟨_, _, ⟨⟨⟩, rfl⟩, outcome⟩)
    exact outcome
  · exact fun outcome => .inr ⟨a, s, ⟨rfl, rfl⟩, outcome⟩

theorem bind_assoc_eq {γ : Type} (x : Proc σ α) (f : α -> Proc σ β) (g : β -> Proc σ γ) :
    x >>= f >>= g = x >>= fun a => f a >>= g := by
  funext s o t
  apply propext
  constructor
  · rintro (⟨rfl, ⟨-, outcome⟩ | ⟨a, u, first, outcome⟩⟩ |
      ⟨b, v, ⟨⟨⟩, -⟩ | ⟨a, u, first, second⟩, outcome⟩)
    · exact .inl ⟨rfl, outcome⟩
    · exact .inr ⟨a, u, first, .inl ⟨rfl, outcome⟩⟩
    · exact .inr ⟨a, u, first, .inr ⟨b, v, second, outcome⟩⟩
  · rintro (⟨rfl, outcome⟩ | ⟨a, u, first, ⟨rfl, outcome⟩ | ⟨b, v, second, outcome⟩⟩)
    · exact .inl ⟨rfl, .inl ⟨rfl, outcome⟩⟩
    · exact .inl ⟨rfl, .inr ⟨a, u, first, outcome⟩⟩
    · exact .inr ⟨b, v, .inr ⟨a, u, first, second⟩, outcome⟩

def modify (f : σ -> σ) : Proc σ Unit :=
  fun s o t => o = some () ∧ t = f s

def read : Proc σ σ :=
  fun s o t => o = some s ∧ t = s

def ofOption (result : Option α) : Proc σ α :=
  fun s o t => o = result ∧ t = s

/-- Every outcome from `s` satisfies `post`. -/
def Ensures (x : Proc σ α) (post : Option α -> σ -> Prop) (s : σ) : Prop :=
  ∀ o t, x s o t -> post o t

def Then (next : α -> σ -> Prop) (panics : σ -> Prop) : Option α -> σ -> Prop
  | some a, t => next a t
  | none, t => panics t

theorem Ensures.mono {x : Proc σ α} {post weaker : Option α -> σ -> Prop} {s : σ}
    (ensures : Ensures x post s) (implies : ∀ o t, post o t -> weaker o t) :
    Ensures x weaker s :=
  fun o t outcome => implies o t (ensures o t outcome)

def Total (x : Proc σ α) : Prop :=
  ∀ s, ∃ o t, x s o t

def Within (x y : Proc σ α) : Prop :=
  ∀ s o t, x s o t -> y s o t

@[simp]
theorem ensures_pure (a : α) (post : Option α -> σ -> Prop) (s : σ) :
    Ensures (pure a : Proc σ α) post s ↔ post (some a) s := by
  constructor
  · intro ensures
    exact ensures _ _ ⟨rfl, rfl⟩
  · rintro holds o t ⟨rfl, rfl⟩
    exact holds

@[simp]
theorem ensures_bind (x : Proc σ α) (f : α -> Proc σ β) (post : Option β -> σ -> Prop)
    (s : σ) : Ensures (x >>= f) post s ↔
      Ensures x (Then (fun a t => Ensures (f a) post t) (post none)) s := by
  constructor
  · intro ensures o t outcome
    cases o with
    | none => exact ensures none t (.inl ⟨rfl, outcome⟩)
    | some a => exact fun o' u rest => ensures o' u (.inr ⟨a, t, outcome, rest⟩)
  · rintro ensures o t (⟨rfl, outcome⟩ | ⟨a, u, outcome, rest⟩)
    · exact ensures none t outcome
    · exact ensures (some a) u outcome o t rest

@[simp]
theorem ensures_modify (f : σ -> σ) (post : Option Unit -> σ -> Prop) (s : σ) :
    Ensures (modify f) post s ↔ post (some ()) (f s) := by
  constructor
  · intro ensures
    exact ensures _ _ ⟨rfl, rfl⟩
  · rintro holds o t ⟨rfl, rfl⟩
    exact holds

@[simp]
theorem ensures_read (post : Option σ -> σ -> Prop) (s : σ) :
    Ensures read post s ↔ post (some s) s := by
  constructor
  · intro ensures
    exact ensures _ _ ⟨rfl, rfl⟩
  · rintro holds o t ⟨rfl, rfl⟩
    exact holds

@[simp]
theorem ensures_ofOption (result : Option α) (post : Option α -> σ -> Prop) (s : σ) :
    Ensures (ofOption result : Proc σ α) post s ↔ post result s := by
  constructor
  · intro ensures
    exact ensures _ _ ⟨rfl, rfl⟩
  · rintro holds o t ⟨rfl, rfl⟩
    exact holds

theorem total_pure (a : α) : Total (pure a : Proc σ α) :=
  fun s => ⟨some a, s, rfl, rfl⟩

theorem total_modify (f : σ -> σ) : Total (modify f) :=
  fun s => ⟨some (), f s, rfl, rfl⟩

theorem total_ofOption (result : Option α) : Total (ofOption result : Proc σ α) :=
  fun s => ⟨result, s, rfl, rfl⟩

theorem Total.bind {x : Proc σ α} {f : α -> Proc σ β} (first : Total x)
    (rest : ∀ a, Total (f a)) : Total (x >>= f) := by
  intro s
  obtain ⟨o, t, outcome⟩ := first s
  cases o with
  | none => exact ⟨none, t, .inl ⟨rfl, outcome⟩⟩
  | some a =>
    obtain ⟨o, u, next⟩ := rest a t
    exact ⟨o, u, .inr ⟨a, t, outcome, next⟩⟩

def Keeps {γ : Type} (view : σ -> γ) (x : Proc σ α) : Prop :=
  ∀ s o t, x s o t -> view t = view s

theorem keeps_pure {γ : Type} (view : σ -> γ) (a : α) : Keeps view (pure a : Proc σ α) := by
  rintro s o t ⟨-, rfl⟩
  rfl

theorem keeps_ofOption {γ : Type} (view : σ -> γ) (result : Option α) :
    Keeps view (ofOption result : Proc σ α) := by
  rintro s o t ⟨-, rfl⟩
  rfl

theorem Keeps.bind {γ : Type} {view : σ -> γ} {x : Proc σ α} {f : α -> Proc σ β}
    (first : Keeps view x) (rest : ∀ a, Keeps view (f a)) : Keeps view (x >>= f) := by
  rintro s o t (⟨-, outcome⟩ | ⟨a, u, outcome, next⟩)
  · exact first s none t outcome
  · exact (rest a u o t next).trans (first s (some a) u outcome)

theorem Keeps.cond {γ : Type} {view : σ -> γ} {x y : Proc σ α} {b : Bool} (left : Keeps view x)
    (right : Keeps view y) : Keeps view (if b then x else y) := by
  cases b with
  | true => exact left
  | false => exact right

theorem Within.refl (x : Proc σ α) : Within x x :=
  fun _ _ _ outcome => outcome

theorem Within.bind {x y : Proc σ α} {f g : α -> Proc σ β} (first : Within x y)
    (rest : ∀ a, Within (f a) (g a)) : Within (x >>= f) (y >>= g) := by
  rintro s o t (⟨rfl, outcome⟩ | ⟨a, u, outcome, next⟩)
  · exact .inl ⟨rfl, first s none t outcome⟩
  · exact .inr ⟨a, u, first s (some a) u outcome, rest a u o t next⟩

end Proc
