import Mathlib.Data.Set.Basic
import SungScore.Proofs.Score.Alike

set_option autoImplicit false

/-!
# Lines renumbered

The number of a line is reported in faults and is of no other use. So two scores that differ in the
numbers of their lines go on side by side (`Likeness.renumbered`), and what they have in common is told
apart by how the numbers may differ: in some way or other, or in one given way.
-/

namespace SungScore

/-- The faults differ in nothing but the lines where they are reported. -/
def Fault.SameButLine (f f' : Fault) : Prop := ∃ g, f' = f.moved g id

namespace Likeness

/-- Everything is alike that differs in the numbers of its lines, in one of the ways given. The line
that is read goes from one number to the other in such a way. -/
def renumbered (ways : Set (Nat → Nat)) (f : Nat → Nat) (hf : f ∈ ways) : Likeness where
  lines := f
  keys := id
  settings σ σ' := σ' = σ
  syllable s s' := ∃ g ∈ ways, s' = s.moved g id
  note n n' := n' = n
  fault e e' := ∃ g ∈ ways, e' = e.moved g id
  keys_injective := Function.injective_id
  settings_bound := by
    rintro σ _ rfl
    rfl
  settings_keys := by
    rintro σ _ n _ rfl rfl
    exact (Option.map_id_apply).symm
  syllable_place := by
    rintro s _ ⟨g, -, rfl⟩
    exact ⟨g s.line, s.column, rfl⟩
  note_place := by
    rintro _ n rfl
    exact ⟨n.column, rfl⟩
  note_length := by
    rintro n _ rfl length
    rfl
  syllable_fault := by
    rintro s _ ⟨g, hg, rfl⟩ cause
    exact ⟨g, hg, rfl⟩
  note_fault := by
    rintro n _ rfl line cause
    exact ⟨f, hf, rfl⟩
  tie_fault := by
    rintro n _ rfl line
    exact ⟨f, hf, rfl⟩
  rest_fault := by
    rintro m _ n _ rfl rfl line
    exact ⟨f, hf, rfl⟩
  coda_fault line text := ⟨f, hf, rfl⟩

variable {ways : Set (Nat → Nat)} {f : Nat → Nat} (hf : f ∈ ways)

theorem ofLines_renumbered : (renumbered ways f hf).OfLines where
  syllable s := ⟨f, hf, rfl⟩
  fault e := ⟨f, hf, rfl⟩
  settings := by
    rintro σ _ rfl octave
    rfl

theorem map_mora_renumbered (ms : List Mora) : ms.map (renumbered ways f hf).mora = ms :=
  List.map_id ms

/-- A new engine is alike to itself, since it holds nothing. -/
theorem engines_new (L : Likeness) : L.Engines {} {} := ⟨rfl, .none, .nil, rfl⟩

end Likeness

open Likeness

/-- **Sources further down**: a source that is read from a later line on has the same morae, or the same
fault at a line that is as much later. -/
theorem Score.read_moved (σ : Settings) (k : Nat) (source : Text) :
    ({ settings := σ, line := k } : Score).read source
      = (compile σ source).mapError (.moved (· + k) id) := by
  have hL := ofLines_renumbered (Set.mem_singleton (· + k))
  have hs : (renumbered {(· + k)} (· + k) rfl).Scores { settings := σ }
      { settings := σ, line := k } :=
    ⟨rfl, rfl, rfl, (Nat.zero_add k).symm, rfl, engines_new _⟩
  have hlines := feedLines_alike hL (fun _ => rfl) (fun hσ c => congrArg (Settings.apply · c) hσ) hs
    (fun j => by simp [renumbered, Nat.add_comm]) source.lines
  obtain ⟨ms, ms', hread, hread', rfl⟩ | ⟨f, f', hread, hread', g, rfl, rfl⟩ :=
    (read_alike hL hlines).cases
  · rw [hread', map_mora_renumbered, compile, hread]
    rfl
  · rw [hread', compile, hread]
    rfl

end SungScore
