import Mathlib.Algebra.Order.Round
import SungScore.Settings
import SungScore.Proofs.Ticks

set_option autoImplicit false

/-!
# Which configurations are valid

A configuration gives the length of a beat in ticks or by a tempo. The ticks at a tempo are the exact
quotient rounded to the nearest integer, halves upward (`tickUnitOfTempo?_eq_some_iff`), so that the beat
never gets longer at a higher tempo.

`Config.Valid` says which configurations can be used, and `Config.Gives` which settings they stand for. A
configuration has settings exactly if it is valid, and then it has these (`Config.settings_eq_ok_iff`).
-/

namespace SungScore

/-! ## Tempo -/

/-- A beat has no more ticks than a minute has. -/
theorem beat_lt {tempo : Nat} (h : 0 < tempo) : (52800 + tempo) / (2 * tempo) < 4294967296 := by
  rw [Nat.div_lt_iff_lt_mul (by omega)]
  omega

/-- A quotient is rounded by whole numbers alone. -/
theorem round_beat {tempo : Nat} (h : 0 < tempo) :
    round (26400 / tempo : ℚ) = ((52800 + tempo) / (2 * tempo) : Nat) := by
  have hne : (tempo : ℚ) ≠ 0 := Nat.cast_ne_zero.mpr h.ne'
  have hhalf : (26400 / tempo : ℚ) + 1 / 2
      = ((52800 + tempo : Nat) : ℤ) / ((2 * tempo : Nat) : ℚ) := by
    push_cast
    field_simp
    ring
  rw [round_eq, hhalf, Rat.floor_intCast_div_natCast]
  norm_cast

/-- **The ticks of a beat** at a tempo. -/
theorem tickUnitOfTempo?_eq_some_iff {tempo : UInt32} {ticks : Ticks} :
    tickUnitOfTempo? tempo = some ticks ↔
      (1 ≤ tempo.toNat ∧ tempo.toNat ≤ 52800) ∧
        (ticks.toNat : ℤ) = round (26400 / tempo.toNat : ℚ) := by
  unfold tickUnitOfTempo?
  by_cases hzero : tempo = 0
  · rw [if_pos hzero, hzero]
    simp
  have hpos : 0 < tempo.toNat := Nat.pos_of_ne_zero (fun h => hzero (Ticks.eq_zero_iff.mpr h))
  rw [if_neg hzero, round_beat hpos, Nat.cast_inj]
  dsimp only
  by_cases hfast : 52800 < tempo.toNat
  · -- the quotient is less than a half
    have hnone : (52800 + tempo.toNat) / (2 * tempo.toNat) = 0 := Nat.div_eq_of_lt (by omega)
    rw [if_pos hnone]
    constructor
    · intro h
      cases h
    · intro h
      omega
  · have hsome : (52800 + tempo.toNat) / (2 * tempo.toNat) ≠ 0 :=
      (Nat.div_pos (by omega) (by omega)).ne'
    rw [if_neg hsome, Option.some_inj]
    constructor
    · rintro rfl
      exact ⟨⟨hpos, by omega⟩, Ticks.toNat_ofNat (beat_lt hpos)⟩
    · rintro ⟨-, hticks⟩
      exact (Ticks.eq_ofNat hticks).symm

/-- A beat has some ticks, up to the highest tempo. -/
theorem one_le_round_beat {tempo : Nat} (hpos : 0 < tempo) (hle : tempo ≤ 52800) :
    1 ≤ round (26400 / tempo : ℚ) := by
  have hdiv : 0 < (52800 + tempo) / (2 * tempo) := Nat.div_pos (by omega) (by omega)
  rw [round_beat hpos]
  omega

/-- No tempo gives a beat without ticks. -/
theorem one_le_tickUnitOfTempo? {tempo : UInt32} {ticks : Ticks}
    (h : tickUnitOfTempo? tempo = some ticks) : 1 ≤ ticks := by
  obtain ⟨⟨hpos, hle⟩, hticks⟩ := tickUnitOfTempo?_eq_some_iff.mp h
  have hge := one_le_round_beat hpos hle
  rw [← hticks] at hge
  rw [UInt32.le_iff_toNat_le]
  show 1 ≤ ticks.toNat
  omega

/-- At a higher tempo a beat is no longer. -/
theorem round_beat_anti {tempo tempo' : Nat} (hpos : 0 < tempo) (hle : tempo ≤ tempo') :
    round (26400 / tempo' : ℚ) ≤ round (26400 / tempo : ℚ) := by
  have hquotient : (26400 / tempo' : ℚ) ≤ 26400 / tempo :=
    div_le_div_of_nonneg_left (by norm_num) (Nat.cast_pos.mpr hpos) (Nat.cast_le.mpr hle)
  rw [round_eq, round_eq]
  exact Int.floor_le_floor (by linarith)

namespace Config

variable {c : Config} {σ : Settings} {ticks : Ticks}

/-! ## Validity -/

/-- The configuration can be used. -/
structure Valid (c : Config) : Prop where
  /-- The beat is set only once, -/
  once : c.tickUnit = none ∨ c.tempo = none
  /-- to some ticks, -/
  tickUnit : c.tickUnit ≠ some 0
  /-- or by a tempo at which it has some. -/
  tempo : ∀ tempo, c.tempo = some tempo → 1 ≤ tempo.toNat ∧ tempo.toNat ≤ 52800
  /-- The range of keys is not inverted, where a bound that is missing has its default. -/
  keys : c.lowestKey.getD 0 ≤ c.highestKey.getD 127

/-- The settings have the values of the configuration, and the defaults where it has none. -/
structure Gives (c : Config) (σ : Settings) : Prop where
  tickUnit : ∀ ticks, c.tickUnit = some ticks → σ.tickUnit = ticks
  tempo : ∀ tempo, c.tempo = some tempo →
    (σ.tickUnit.toNat : ℤ) = round (26400 / tempo.toNat : ℚ)
  beat : c.tickUnit = none → c.tempo = none → σ.tickUnit = 220
  octave : σ.octave = c.octave.getD 4
  lowestKey : σ.lowestKey = c.lowestKey.getD 0
  highestKey : σ.highestKey = c.highestKey.getD 127
  maximalSuffix : σ.maximalSuffix = c.maximalSuffix.getD 110
  transpose : σ.transpose = c.transpose.getD 0

/-! ## Reading a configuration -/

/-- The beat is set in ticks, by a tempo, or not at all. -/
theorem beat_eq_ok_iff :
    c.beat = .ok ticks ↔
      (c.tickUnit = some ticks ∧ c.tempo = none ∧ ticks ≠ 0) ∨
        (∃ tempo, c.tickUnit = none ∧ c.tempo = some tempo ∧ tickUnitOfTempo? tempo = some ticks) ∨
          c.tickUnit = none ∧ c.tempo = none ∧ ticks = 220 := by
  unfold beat
  cases hunit : c.tickUnit with
  | some given =>
      cases htempo : c.tempo with
      | some tempo => simp
      | none =>
          by_cases hzero : given = 0
          · simp [hzero]
            rintro rfl
            rfl
          · simp [hzero]
            rintro rfl
            exact hzero
  | none =>
      cases htempo : c.tempo with
      | some tempo => cases hticks : tickUnitOfTempo? tempo <;> simp [hticks]
      | none => simp [eq_comm]

/-- The beat is the one that is given, and 220 ticks where none is. -/
theorem Valid.beat (hc : c.Valid) (hσ : c.Gives σ) : c.beat = .ok σ.tickUnit := by
  rw [beat_eq_ok_iff]
  cases hunit : c.tickUnit with
  | some ticks =>
      have htempo : c.tempo = none := hc.once.resolve_left (by simp [hunit])
      rw [hσ.tickUnit ticks hunit]
      refine Or.inl ⟨rfl, htempo, fun hzero => hc.tickUnit ?_⟩
      rw [hunit, hzero]
  | none =>
      cases htempo : c.tempo with
      | some tempo =>
          refine Or.inr (Or.inl ⟨tempo, rfl, rfl, ?_⟩)
          exact tickUnitOfTempo?_eq_some_iff.mpr ⟨hc.tempo tempo htempo, hσ.tempo tempo htempo⟩
      | none => exact Or.inr (Or.inr ⟨rfl, rfl, hσ.beat hunit htempo⟩)

/-- **Which settings a configuration has.** -/
theorem settings_eq_ok_iff : c.settings = .ok σ ↔ c.Valid ∧ c.Gives σ := by
  unfold settings
  constructor
  · intro h
    split at h
    · cases h
    · rename_i ticks hbeat
      dsimp only at h
      split at h
      · cases h
      · rename_i hkeys
        cases h
        rw [not_lt] at hkeys
        rcases beat_eq_ok_iff.mp hbeat with
          ⟨hunit, htempo, hne⟩ | ⟨tempo, hunit, htempo, hticks⟩ | ⟨hunit, htempo, rfl⟩
        · refine ⟨⟨Or.inr htempo, by simpa [hunit] using hne, by simp [htempo], hkeys⟩, ?_⟩
          exact ⟨by simp [hunit], by simp [htempo], by simp [hunit], rfl, rfl, rfl, rfl, rfl⟩
        · obtain ⟨hrange, hround⟩ := tickUnitOfTempo?_eq_some_iff.mp hticks
          refine ⟨⟨Or.inl hunit, by simp [hunit], ?_, hkeys⟩, ?_⟩
          · intro tempo' htempo'
            obtain rfl := Option.some.inj (htempo.symm.trans htempo')
            exact hrange
          · refine ⟨by simp [hunit], ?_, by simp [htempo], rfl, rfl, rfl, rfl, rfl⟩
            intro tempo' htempo'
            obtain rfl := Option.some.inj (htempo.symm.trans htempo')
            exact hround
        · refine ⟨⟨Or.inl hunit, by simp [hunit], by simp [htempo], hkeys⟩, ?_⟩
          exact ⟨by simp [hunit], by simp [htempo], fun _ _ => rfl, rfl, rfl, rfl, rfl, rfl⟩
  · rintro ⟨hc, hσ⟩
    rw [hc.beat hσ]
    dsimp only
    rw [if_neg (not_lt.mpr hc.keys), ← hσ.octave, ← hσ.lowestKey, ← hσ.highestKey,
      ← hσ.maximalSuffix, ← hσ.transpose]

/-- A valid configuration stands for some settings. -/
theorem Valid.exists_gives (hc : c.Valid) : ∃ σ, c.Gives σ := by
  obtain ⟨ticks, hunit, htempo, hbeat⟩ : ∃ ticks : Ticks,
      (∀ given, c.tickUnit = some given → ticks = given) ∧
      (∀ tempo, c.tempo = some tempo → (ticks.toNat : ℤ) = round (26400 / tempo.toNat : ℚ)) ∧
      (c.tickUnit = none → c.tempo = none → ticks = 220) := by
    rcases hc.once with hunit | htempo
    · cases htempo : c.tempo with
      | some tempo =>
          have hpos : 0 < tempo.toNat := (hc.tempo tempo htempo).1
          refine ⟨.ofNat ((52800 + tempo.toNat) / (2 * tempo.toNat)), by simp [hunit], ?_, by simp⟩
          rintro _ ⟨⟩
          rw [round_beat hpos, Ticks.toNat_ofNat (beat_lt hpos)]
      | none => exact ⟨220, by simp [hunit], by simp, fun _ _ => rfl⟩
    · exact ⟨c.tickUnit.getD 220, fun given h => by simp [h], by simp [htempo], fun h _ => by simp [h]⟩
  exact ⟨{
    tickUnit := ticks
    octave := c.octave.getD 4
    lowestKey := c.lowestKey.getD 0
    highestKey := c.highestKey.getD 127
    maximalSuffix := c.maximalSuffix.getD 110
    transpose := c.transpose.getD 0 }, hunit, htempo, hbeat, rfl, rfl, rfl, rfl, rfl⟩

/-- Settings of a valid configuration have a beat with some ticks. -/
theorem Valid.one_le_tickUnit (hc : c.Valid) (hσ : c.Gives σ) : 1 ≤ σ.tickUnit := by
  rcases beat_eq_ok_iff.mp (hc.beat hσ) with ⟨-, -, hne⟩ | ⟨tempo, -, -, hticks⟩ | ⟨-, -, hbeat⟩
  · rw [UInt32.le_iff_toNat_le]
    exact Nat.one_le_iff_ne_zero.mpr (fun hzero => hne (Ticks.eq_zero_iff.mpr hzero))
  · exact one_le_tickUnitOfTempo? hticks
  · rw [hbeat]
    decide

/-- **A configuration has settings exactly if it is valid.** They are the values that it gives, rounded
for a tempo, and the defaults of the others. Every beat has some ticks, and no range of keys is inverted.
At a higher tempo a beat has no more ticks. -/
theorem settings_exact (c : Config) :
    ((∃ σ, c.settings = .ok σ) ↔ c.Valid) ∧
      (∀ σ, c.settings = .ok σ → c.Gives σ ∧ 1 ≤ σ.tickUnit ∧ σ.lowestKey ≤ σ.highestKey) ∧
      ∀ (c' : Config) σ σ' tempo tempo', c.settings = .ok σ → c'.settings = .ok σ' →
        c.tempo = some tempo → c'.tempo = some tempo' → tempo ≤ tempo' → σ'.tickUnit ≤ σ.tickUnit := by
  refine ⟨⟨?_, ?_⟩, ?_, ?_⟩
  · rintro ⟨σ, h⟩
    exact (settings_eq_ok_iff.mp h).1
  · intro hc
    obtain ⟨σ, hσ⟩ := hc.exists_gives
    exact ⟨σ, settings_eq_ok_iff.mpr ⟨hc, hσ⟩⟩
  · intro σ h
    obtain ⟨hc, hσ⟩ := settings_eq_ok_iff.mp h
    refine ⟨hσ, hc.one_le_tickUnit hσ, ?_⟩
    rw [hσ.lowestKey, hσ.highestKey]
    exact hc.keys
  · intro c' σ σ' tempo tempo' h h' htempo htempo' hle
    obtain ⟨hc, hσ⟩ := settings_eq_ok_iff.mp h
    obtain ⟨-, hσ'⟩ := settings_eq_ok_iff.mp h'
    have hpos : 0 < tempo.toNat := (hc.tempo tempo htempo).1
    rw [UInt32.le_iff_toNat_le, ← Int.ofNat_le]
    calc (σ'.tickUnit.toNat : ℤ) = round (26400 / tempo'.toNat : ℚ) := hσ'.tempo tempo' htempo'
      _ ≤ round (26400 / tempo.toNat : ℚ) := round_beat_anti hpos (UInt32.le_iff_toNat_le.mp hle)
      _ = σ.tickUnit.toNat := (hσ.tempo tempo htempo).symm

/-- A tempo whose beat is rounded upward, with a range of keys that is set at one end, and a higher
tempo. -/
theorem settings_exact_tempo :
    let c : Config := { tempo := some 112, lowestKey := some (-12) }
    let c' : Config := { tempo := some 120, transpose := some 5 }
    c.Valid ∧ c.Gives { tickUnit := 236, lowestKey := -12 } ∧
      ¬ ({ highestKey := some (-1) } : Config).Valid ∧
      ∃ σ σ', c.settings = .ok σ ∧ c'.settings = .ok σ' ∧ σ'.tickUnit ≤ σ.tickUnit := by
  intro c c'
  have h : c.settings = .ok { tickUnit := 236, lowestKey := -12 } := by decide +kernel
  have h' : c'.settings = .ok { transpose := 5 } := by decide +kernel
  obtain ⟨hvalid, hgives, hanti⟩ := settings_exact c
  obtain ⟨hinverted, -, -⟩ := settings_exact { highestKey := some (-1) }
  refine ⟨hvalid.mp ⟨_, h⟩, (hgives _ h).1, fun hc => ?_, _, _, h, h', ?_⟩
  · obtain ⟨σ, hσ⟩ := hinverted.mpr hc
    have hnone : ({ highestKey := some (-1) } : Config).settings.toBool = false := by decide +kernel
    rw [hσ] at hnone
    cases hnone
  · exact hanti c' _ _ 112 120 h h' rfl rfl (by decide)

end Config

end SungScore
