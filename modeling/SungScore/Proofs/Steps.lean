import Mathlib.Tactic

set_option autoImplicit false

/-!
# Steps one after another

Engines, scores and melodies are run through lists: the step of the first entry, then the run of
the others. Every step changes a state and may fail. Two steps succeed together if both do
(`bind_ok`), and so a run succeeds if and only if all of its steps do. It fails at the first step that
does (`run_error`).

A state is left behind also by a step that fails. `Keeps` says of a step that it keeps a property
of the state in either case, and how it can fail; steps that keep a property keep it one after
another (`Keeps.bind`).
-/

namespace SungScore

/-- The result of two steps, one after the other. -/
theorem bind_ok {ε τ α β : Type} {x : EStateM ε τ α} {f : α → EStateM ε τ β} {s s' : τ}
    {b : β} : (x >>= f) s = .ok b s' ↔ ∃ a s₁, x s = .ok a s₁ ∧ f a s₁ = .ok b s' := by
  show EStateM.bind x f s = _ ↔ _
  unfold EStateM.bind
  cases x s with
  | ok a s₁ => simp
  | error e s₁ => simp

theorem bind_error {ε τ α β : Type} {x : EStateM ε τ α} {f : α → EStateM ε τ β} {s s' : τ}
    {e : ε} :
    (x >>= f) s = .error e s' ↔
      x s = .error e s' ∨ ∃ a s₁, x s = .ok a s₁ ∧ f a s₁ = .error e s' := by
  show EStateM.bind x f s = _ ↔ _
  unfold EStateM.bind
  cases x s with
  | ok a s₁ => simp
  | error e s₁ => simp

/-- A step that gives a result succeeds. -/
theorem exists_ok_of_run' {ε τ α : Type} {x : EStateM ε τ α} {s : τ} {a : α}
    (h : x.run' s = some a) : ∃ s', x s = .ok a s' := by
  unfold EStateM.run' EStateM.run at h
  split at h
  · rename_i b s' hx
    cases h
    exact ⟨s', hx⟩
  · cases h

/-- The fault of a step and the state that it leaves, if it fails. -/
def failure? {ε τ α : Type} (x : EStateM ε τ α) (s : τ) : Option (ε × τ) :=
  match x s with
  | .ok _ _ => none
  | .error e s' => some (e, s')

theorem failure?_eq_some {ε τ α : Type} {x : EStateM ε τ α} {s s' : τ} {e : ε} :
    failure? x s = some (e, s') ↔ x s = .error e s' := by
  unfold failure?
  cases x s with
  | ok a s₁ => simp
  | error e₁ s₁ => simp

/-- The step keeps `P` of the state whether it succeeds or not, and fails with a `Q` only. -/
structure Keeps {ε τ α : Type} (P : τ → Prop) (Q : ε → Prop) (x : EStateM ε τ α) : Prop where
  ok : ∀ {s a s'}, P s → x s = .ok a s' → P s'
  error : ∀ {s e s'}, P s → x s = .error e s' → P s' ∧ Q e

theorem Keeps.pure {ε τ α : Type} (P : τ → Prop) (Q : ε → Prop) (a : α) :
    Keeps P Q (Pure.pure a : EStateM ε τ α) :=
  ⟨fun hs h => (by cases h; exact hs), fun _ h => (by cases h)⟩

theorem Keeps.bind {ε τ α β : Type} {P : τ → Prop} {Q : ε → Prop} {x : EStateM ε τ α}
    {f : α → EStateM ε τ β} (hx : Keeps P Q x) (hf : ∀ a, Keeps P Q (f a)) :
    Keeps P Q (x >>= f) := by
  constructor
  · intro s b s' hs h
    obtain ⟨a, s₁, h₁, h₂⟩ := bind_ok.mp h
    exact (hf a).ok (hx.ok hs h₁) h₂
  · intro s e s' hs h
    rcases bind_error.mp h with h₁ | ⟨a, s₁, h₁, h₂⟩
    · exact hx.error hs h₁
    · exact (hf a).error (hx.ok hs h₁) h₂

section Run

variable {ε τ α : Type} {step : α → EStateM ε τ Unit} {run : List α → EStateM ε τ Unit}
  {s s' : τ} {u : Unit}

theorem run_cons_ok (hcons : ∀ x xs, run (x :: xs) = do step x; run xs) {x : α} {xs : List α} :
    run (x :: xs) s = .ok u s' ↔ ∃ s₁, step x s = .ok () s₁ ∧ run xs s₁ = .ok () s' := by
  rw [hcons, bind_ok]
  exact ⟨fun ⟨_, s₁, h₁, h₂⟩ => ⟨s₁, h₁, h₂⟩, fun ⟨s₁, h₁, h₂⟩ => ⟨(), s₁, h₁, h₂⟩⟩

theorem run_append_ok (hnil : run [] = pure ())
    (hcons : ∀ x xs, run (x :: xs) = do step x; run xs) {xs ys : List α} :
    run (xs ++ ys) s = .ok u s' ↔ ∃ s₁, run xs s = .ok () s₁ ∧ run ys s₁ = .ok () s' := by
  induction xs generalizing s with
  | nil =>
      constructor
      · intro h
        exact ⟨s, by rw [hnil]; rfl, h⟩
      · rintro ⟨s₁, h₁, h₂⟩
        rw [hnil] at h₁
        cases h₁
        exact h₂
  | cons x xs ih =>
      rw [List.cons_append, run_cons_ok hcons]
      constructor
      · rintro ⟨s₁, h₁, h₂⟩
        obtain ⟨s₂, h₃, h₄⟩ := ih.mp h₂
        exact ⟨s₂, (run_cons_ok hcons).mpr ⟨s₁, h₁, h₃⟩, h₄⟩
      · rintro ⟨s₂, h₁, h₂⟩
        obtain ⟨s₁, h₃, h₄⟩ := (run_cons_ok hcons).mp h₁
        exact ⟨s₁, h₃, ih.mpr ⟨s₂, h₄, h₂⟩⟩

/-- A run fails at its first step that does. -/
theorem run_error (hnil : run [] = pure ()) (hcons : ∀ x xs, run (x :: xs) = do step x; run xs)
    {xs : List α} {e : ε} (h : run xs s = .error e s') :
    ∃ ys x zs s₁, xs = ys ++ x :: zs ∧ run ys s = .ok () s₁ ∧ step x s₁ = .error e s' := by
  induction xs generalizing s with
  | nil =>
      rw [hnil] at h
      cases h
  | cons x xs ih =>
      rw [hcons] at h
      rcases bind_error.mp h with hx | ⟨u, s₁, hx, hrun⟩
      · exact ⟨[], x, xs, s, rfl, by rw [hnil]; rfl, hx⟩
      · obtain ⟨ys, y, zs, s₂, rfl, hys, hy⟩ := ih hrun
        exact ⟨x :: ys, y, zs, s₂, rfl, (run_cons_ok hcons).mpr ⟨s₁, hx, hys⟩, hy⟩

end Run

end SungScore
