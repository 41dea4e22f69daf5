import SungScore.Proofs.Phrase

set_option autoImplicit false

/-!
# Plain morae

What a phrase is sung as is *plain*: not refrained, at the usual volume and tension, and with a
silence and a consonant that leave room in it. Nothing that is added to a first mora takes more
room than it brings (`Phrase.plain_of_openWith`).
-/

namespace SungScore

/-- A mora as it is sung, before any refrain. -/
structure Mora.Plain (m : Mora) : Prop where
  attenuation_eq : m.attenuation = 0
  tenseness_eq : m.tenseness = 0
  bends_eq : m.bends = []
  /-- The silence and the consonant are within the mora. -/
  room : m.onTick.toNat + m.offTick.toNat ≤ m.tick.toNat

theorem Mora.plain_loneConsonant (text : Text) (key : Int) (tick : Ticks) :
    (Mora.loneConsonant text key tick).Plain := by
  refine ⟨rfl, rfl, rfl, ?_⟩
  show (0 : Ticks).toNat + tick.pred.toNat ≤ tick.toNat
  rw [Ticks.toNat_pred]
  show 0 + (tick.toNat - 1) ≤ tick.toNat
  omega

section

variable {m : Mora} {t tick : Ticks}

/-- The silence of a mora is within it, so that it cannot overflow where the whole does not. -/
theorem Mora.Plain.toNat_onTick_add (hm : m.Plain) (hadd : Ticks.add? m.tick t = some tick) :
    (m.onTick + t).toNat = m.onTick.toNat + t.toNat := by
  have hroom := hm.room
  obtain ⟨hlt, -⟩ := Ticks.add?_eq_some.mp hadd
  exact Ticks.toNat_add (by omega)

/-- So is its consonant. -/
theorem Mora.Plain.toNat_offTick_add (hm : m.Plain) (hadd : Ticks.add? m.tick t = some tick) :
    (m.offTick + t).toNat = m.offTick.toNat + t.toNat := by
  have hroom := hm.room
  obtain ⟨hlt, -⟩ := Ticks.add?_eq_some.mp hadd
  exact Ticks.toNat_add (by omega)

end

namespace Phrase

variable (σ : Settings) (p : Phrase)

theorem toNat_offTick_firstMora (key : Int) :
    (p.firstMora σ key).offTick.toNat = min 30 ((p.firstMora σ key).tick.toNat / 2) := by
  show (min onsetLimit ((p.firstMora σ key).tick / 2)).toNat = _
  rw [Ticks.toNat_min, Ticks.toNat_half]
  rfl

theorem plain_firstMora (key : Int) : (p.firstMora σ key).Plain := by
  refine ⟨rfl, rfl, rfl, ?_⟩
  rw [toNat_offTick_firstMora]
  show 0 + _ ≤ _
  omega

variable {line : Nat} {before : Option Int} {m : Mora} {carried : Option Carry}
  {opening : List Mora}

/-- Carried time makes as much room as it takes. -/
theorem plain_of_openWith (hm : m.Plain)
    (h : p.openWith line before m carried = .ok opening) : ∀ x ∈ opening, x.Plain := by
  have hroom := hm.room
  cases p.opens_of_openWith h with
  | nothing => simpa using hm
  | silence hadd =>
      rw [List.forall_mem_singleton]
      refine ⟨hm.attenuation_eq, hm.tenseness_eq, hm.bends_eq, ?_⟩
      dsimp only
      rw [hm.toNat_onTick_add hadd, Ticks.toNat_of_add? hadd]
      omega
  | consonant hadd =>
      rw [List.forall_mem_singleton]
      refine ⟨hm.attenuation_eq, hm.tenseness_eq, hm.bends_eq, ?_⟩
      dsimp only
      rw [hm.toNat_offTick_add hadd, Ticks.toNat_of_add? hadd]
      omega
  | coda =>
      intro x hx
      rcases List.mem_cons.mp hx with rfl | hx
      · exact Mora.plain_loneConsonant _ _ _
      · rw [List.mem_singleton.mp hx]
        exact hm

theorem plain_closing (key : Int) : ∀ x ∈ p.closing σ key, x.Plain := by
  unfold closing
  split
  · rw [List.forall_mem_singleton]
    exact Mora.plain_loneConsonant _ _ _
  · simp

theorem plain_laterMorae (key : Int) (ns : List Note) :
    ∀ x ∈ p.laterMorae σ key ns, x.Plain := by
  induction ns generalizing key with
  | nil => exact plain_closing σ p key
  | cons n after ih =>
      intro x hx
      rw [laterMorae] at hx
      rcases List.mem_cons.mp hx with rfl | hx
      · exact ⟨rfl, rfl, rfl, Nat.zero_le _⟩
      · exact ih _ x hx

end Phrase

end SungScore
