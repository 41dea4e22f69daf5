import Mathlib.Data.List.Forall2

set_option autoImplicit false

/-!
# Two runs side by side

To compare two scores, their runs are followed side by side. At every step either both succeed, with
results that are alike, or both fail, with faults that are alike; what "alike" means is left open
here. Steps that go side by side do so one after another (`SideBySide.bind`).
-/

namespace SungScore

/-! ## Results -/

/-- Two results that are alike. -/
inductive AlikeExcept {ε α : Type} (F : ε → ε → Prop) (A : α → α → Prop) :
    Except ε α → Except ε α → Prop
  | ok {a a' : α} (h : A a a') : AlikeExcept F A (.ok a) (.ok a')
  | error {f f' : ε} (h : F f f') : AlikeExcept F A (.error f) (.error f')

theorem AlikeExcept.cases {ε α : Type} {F : ε → ε → Prop} {A : α → α → Prop} {x y : Except ε α}
    (h : AlikeExcept F A x y) :
    (∃ a a', x = .ok a ∧ y = .ok a' ∧ A a a') ∨
      ∃ f f', x = .error f ∧ y = .error f' ∧ F f f' := by
  cases h with
  | ok h => exact Or.inl ⟨_, _, rfl, rfl, h⟩
  | error h => exact Or.inr ⟨_, _, rfl, rfl, h⟩

theorem AlikeExcept.of_ok {ε α : Type} {F : ε → ε → Prop} {A : α → α → Prop} {a : α}
    {y : Except ε α} (h : AlikeExcept F A (.ok a) y) : ∃ a', y = .ok a' ∧ A a a' := by
  cases h with
  | ok h => exact ⟨_, rfl, h⟩

theorem AlikeExcept.imp {ε α : Type} {F F' : ε → ε → Prop} {A A' : α → α → Prop} {x y : Except ε α}
    (h : AlikeExcept F A x y) (hF : ∀ f f', F f f' → F' f f') (hA : ∀ a a', A a a' → A' a a') :
    AlikeExcept F' A' x y := by
  cases h with
  | ok h => exact .ok (hA _ _ h)
  | error h => exact .error (hF _ _ h)

/-- Two results with the states that they leave: the values are the same, and the states and the
faults are alike. -/
inductive AlikeResult {ε τ α : Type} (F : ε → ε → Prop) (S : τ → τ → Prop) :
    EStateM.Result ε τ α → EStateM.Result ε τ α → Prop
  | ok (a : α) {s s' : τ} (h : S s s') : AlikeResult F S (.ok a s) (.ok a s')
  | error {f f' : ε} {s s' : τ} (hf : F f f') (h : S s s') :
      AlikeResult F S (.error f s) (.error f' s')

/-- Two steps that lead from states that are alike to results that are alike. -/
def SideBySide {ε τ α : Type} (F : ε → ε → Prop) (S : τ → τ → Prop) (x y : EStateM ε τ α) : Prop :=
  ∀ s s', S s s' → AlikeResult F S (x s) (y s')

section

variable {ε τ α β : Type} {F : ε → ε → Prop} {S : τ → τ → Prop}

theorem AlikeResult.cases {x y : EStateM.Result ε τ α} (h : AlikeResult F S x y) :
    (∃ a s s', x = .ok a s ∧ y = .ok a s' ∧ S s s') ∨
      ∃ f f' s s', x = .error f s ∧ y = .error f' s' ∧ F f f' ∧ S s s' := by
  cases h with
  | ok a h => exact Or.inl ⟨a, _, _, rfl, rfl, h⟩
  | error hf h => exact Or.inr ⟨_, _, _, _, rfl, rfl, hf, h⟩

theorem AlikeResult.of_ok {a : α} {s : τ} {y : EStateM.Result ε τ α}
    (h : AlikeResult F S (.ok a s) y) : ∃ s', y = .ok a s' ∧ S s s' := by
  cases h with
  | ok a h => exact ⟨_, rfl, h⟩

/-- Where the first step succeeds, so does the second. -/
theorem SideBySide.ok {x y : EStateM ε τ α} (h : SideBySide F S x y) {s s' t : τ} {a : α}
    (hs : S s s') (hx : x s = .ok a t) : ∃ t', y s' = .ok a t' ∧ S t t' := by
  have hresult := h s s' hs
  rw [hx] at hresult
  exact hresult.of_ok

theorem SideBySide.pure (a : α) : SideBySide F S (Pure.pure a : EStateM ε τ α) (Pure.pure a) :=
  fun _ _ hs => .ok a hs

theorem SideBySide.bind {x y : EStateM ε τ α} {f g : α → EStateM ε τ β} (hx : SideBySide F S x y)
    (hf : ∀ a, SideBySide F S (f a) (g a)) : SideBySide F S (x >>= f) (y >>= g) := by
  intro s s' hs
  show AlikeResult F S (EStateM.bind x f s) (EStateM.bind y g s')
  unfold EStateM.bind
  obtain ⟨a, t, t', ha, ha', ht⟩ | ⟨e, e', t, t', he, he', hee, ht⟩ := (hx s s' hs).cases
  · rw [ha, ha']
    exact hf a t t' ht
  · rw [he, he']
    exact .error hee ht

end

/-! ## Lists -/

section

variable {α β : Type} {R : α → β → Prop} {xs : List α} {ys : List β}

theorem isEmpty_of_forall₂ (h : List.Forall₂ R xs ys) : ys.isEmpty = xs.isEmpty := by
  cases h <;> rfl

/-- Lists that are alike have last entries that are alike, if they have any. -/
theorem getLast?_of_forall₂ (h : List.Forall₂ R xs ys) :
    (xs.getLast? = none ∧ ys.getLast? = none) ∨
      ∃ x y, xs.getLast? = some x ∧ ys.getLast? = some y ∧ R x y := by
  induction h with
  | nil => exact Or.inl ⟨rfl, rfl⟩
  | cons hxy _ ih =>
      rename_i x y xs ys _
      rw [List.getLast?_cons, List.getLast?_cons]
      rcases ih with ⟨hx, hy⟩ | ⟨a, b, hx, hy, hab⟩
      · rw [hx, hy]
        exact Or.inr ⟨x, y, rfl, rfl, hxy⟩
      · rw [hx, hy]
        exact Or.inr ⟨a, b, rfl, rfl, hab⟩

theorem dropLast_of_forall₂ (h : List.Forall₂ R xs ys) :
    List.Forall₂ R xs.dropLast ys.dropLast := by
  induction h with
  | nil => exact .nil
  | cons hxy h ih =>
      cases h with
      | nil => exact .nil
      | cons hxy' h => exact .cons hxy ih

/-- What is alike to a list with a last entry has a last entry as well. -/
theorem exists_concat_of_forall₂ {y : β} (h : List.Forall₂ R xs (ys ++ [y])) :
    ∃ init x, xs = init ++ [x] ∧ List.Forall₂ R init ys ∧ R x y := by
  rcases getLast?_of_forall₂ h with ⟨-, hnone⟩ | ⟨x, z, hx, hz, hxz⟩
  · simp at hnone
  · obtain ⟨init, rfl⟩ := List.getLast?_eq_some_iff.mp hx
    obtain rfl := Option.some.inj (List.getLast?_concat.symm.trans hz)
    have hinit := dropLast_of_forall₂ h
    rw [List.dropLast_concat, List.dropLast_concat] at hinit
    exact ⟨init, x, rfl, hinit, hxz⟩

end

end SungScore
