import SungScore.Proofs.Config
import SungScore.Proofs.Melody.Step
import SungScore.Proofs.Score.Alternation
import SungScore.Proofs.Setting
import SungScore.Proofs.Text.Decimal
import SungScore.Proofs.Words

set_option autoImplicit false

/-!
# Which pragmas are followed

A pragma is split at its blanks, and it is followed if it has three words: a mark, the name of a setting
and a value that is in the range of this setting (`Setting.IsSetIn`). Then the setting takes the value
(`Setting.Sets`). All other pragmas are refused, and they leave the score as it is but for the number of
lines (`Score.feedLine_pragma_exact`).
-/

namespace SungScore

namespace Setting

/-! ## Values -/

/-- The values that a setting can take. -/
def InRange : Setting → Int → Prop
  | tickUnit, v => 1 ≤ v ∧ v ≤ 4294967295
  | tempo, v => 1 ≤ v ∧ v ≤ 52800
  | octave, v => -2147483648 ≤ v ∧ v ≤ 2147483647
  | transpose, v => -2147483648 ≤ v ∧ v ≤ 2147483647
  | maximalSuffix, v => 0 ≤ v ∧ v ≤ 4294967295

instance (x : Setting) (v : Int) : Decidable (x.InRange v) :=
  match x with
  | tickUnit => inferInstanceAs (Decidable (_ ∧ _))
  | tempo => inferInstanceAs (Decidable (_ ∧ _))
  | octave => inferInstanceAs (Decidable (_ ∧ _))
  | transpose => inferInstanceAs (Decidable (_ ∧ _))
  | maximalSuffix => inferInstanceAs (Decidable (_ ∧ _))

/-- The setting takes the value, and all else stays as it is. A tempo sets the length of a beat. -/
inductive Sets (v : Int) (σ : Settings) : Setting → Settings → Prop
  | tickUnit {ticks : Ticks} (h : (ticks.toNat : Int) = v) : Sets v σ tickUnit { σ with tickUnit := ticks }
  | tempo {ticks : Ticks} (h : (ticks.toNat : Int) = round (26400 / v : ℚ)) :
      Sets v σ tempo { σ with tickUnit := ticks }
  | octave : Sets v σ octave { σ with octave := v }
  | transpose : Sets v σ transpose { σ with transpose := v }
  | maximalSuffix {ticks : Ticks} (h : (ticks.toNat : Int) = v) :
      Sets v σ maximalSuffix { σ with maximalSuffix := ticks }

/-- The line has three words: a mark, the name of the setting, and an integer of sixty-four bits that
the setting can take. -/
structure IsSetIn (x : Setting) (v : Int) (l : Text) : Prop where
  words : ∃ i j k value, Text.WordsInOrder l [⟨i, ['#']⟩, ⟨j, x.name⟩, ⟨k, value⟩] ∧
    Decimal.Denotes value v
  fits : -9223372036854775808 ≤ v ∧ v ≤ 9223372036854775807
  inRange : x.InRange v

/-- What a setting sets, setting by setting. -/
theorem sets_iff {x : Setting} {v : Int} {σ σ' : Settings} :
    x.Sets v σ σ' ↔ match x with
      | tickUnit => ∃ ticks : Ticks, (ticks.toNat : Int) = v ∧ { σ with tickUnit := ticks } = σ'
      | tempo => ∃ ticks : Ticks, (ticks.toNat : Int) = round (26400 / v : ℚ) ∧
          { σ with tickUnit := ticks } = σ'
      | octave => { σ with octave := v } = σ'
      | transpose => { σ with transpose := v } = σ'
      | maximalSuffix => ∃ ticks : Ticks, (ticks.toNat : Int) = v ∧
          { σ with maximalSuffix := ticks } = σ' := by
  constructor
  · intro h
    cases h with
    | tickUnit h => exact ⟨_, h, rfl⟩
    | tempo h => exact ⟨_, h, rfl⟩
    | octave => rfl
    | transpose => rfl
    | maximalSuffix h => exact ⟨_, h, rfl⟩
  · intro h
    cases x with
    | tickUnit =>
        obtain ⟨ticks, h, rfl⟩ := h
        exact .tickUnit h
    | tempo =>
        obtain ⟨ticks, h, rfl⟩ := h
        exact .tempo h
    | octave => exact h ▸ .octave
    | transpose => exact h ▸ .transpose
    | maximalSuffix =>
        obtain ⟨ticks, h, rfl⟩ := h
        exact .maximalSuffix h

/-- Every value in the range can be taken. -/
theorem InRange.exists_sets {x : Setting} {v : Int} (h : x.InRange v) (σ : Settings) :
    ∃ σ', x.Sets v σ σ' := by
  have hcount : ∀ n : Nat, n < 4294967296 → ∃ ticks : Ticks, ticks.toNat = n :=
    fun n hn => ⟨.ofNat n, Ticks.toNat_ofNat hn⟩
  cases x with
  | tickUnit =>
      obtain ⟨hge, hle⟩ : 1 ≤ v ∧ v ≤ 4294967295 := h
      obtain ⟨ticks, hticks⟩ := hcount v.toNat (by omega)
      have hv : (ticks.toNat : Int) = v := by omega
      exact ⟨_, .tickUnit hv⟩
  | tempo =>
      obtain ⟨hge, hle⟩ : 1 ≤ v ∧ v ≤ 52800 := h
      obtain ⟨tempo, rfl⟩ := Int.eq_ofNat_of_zero_le (Int.le_trans Int.one_nonneg hge)
      have hpos : 0 < tempo := by omega
      obtain ⟨ticks, hticks⟩ := hcount _ (beat_lt hpos)
      have hround : (ticks.toNat : Int) = round (26400 / (tempo : Int) : ℚ) := by
        rw [Int.cast_natCast, round_beat hpos, hticks]
      exact ⟨_, .tempo hround⟩
  | octave => exact ⟨_, .octave⟩
  | transpose => exact ⟨_, .transpose⟩
  | maximalSuffix =>
      obtain ⟨hge, hle⟩ : 0 ≤ v ∧ v ≤ 4294967295 := h
      obtain ⟨ticks, hticks⟩ := hcount v.toNat (by omega)
      have hv : (ticks.toNat : Int) = v := by omega
      exact ⟨_, .maximalSuffix hv⟩

/-- A beat has some ticks, whatever is set to a value in its range. -/
theorem Sets.one_le_tickUnit {x : Setting} {v : Int} {σ σ' : Settings} (h : x.Sets v σ σ')
    (hrange : x.InRange v) (hσ : 1 ≤ σ.tickUnit) : 1 ≤ σ'.tickUnit := by
  cases h with
  | @tickUnit ticks hticks =>
      obtain ⟨hge, -⟩ : 1 ≤ v ∧ v ≤ 4294967295 := hrange
      rw [UInt32.le_iff_toNat_le]
      show 1 ≤ ticks.toNat
      omega
  | @tempo ticks hround =>
      obtain ⟨hge, hle⟩ : 1 ≤ v ∧ v ≤ 52800 := hrange
      obtain ⟨tempo, rfl⟩ := Int.eq_ofNat_of_zero_le (Int.le_trans Int.one_nonneg hge)
      have hbeat : 1 ≤ round (26400 / (tempo : Int) : ℚ) := by
        rw [Int.cast_natCast]
        exact one_le_round_beat (by omega) (by omega)
      rw [UInt32.le_iff_toNat_le]
      show 1 ≤ ticks.toNat
      omega
  | octave => exact hσ
  | transpose => exact hσ
  | maximalSuffix => exact hσ

end Setting

/-! ## Changes -/

namespace Change

variable {v : Int} {σ σ' : Settings} {change : Change}

theorem positive_eq_ok_iff {n : UInt32} :
    positive v = .ok n ↔ (1 ≤ v ∧ v ≤ 4294967295) ∧ (n.toNat : Int) = v := by
  have hcounted : positive v = .ok n ↔ unsigned? v = some n ∧ n ≠ 0 := by
    unfold positive
    cases unsigned? v with
    | none => simp
    | some m =>
        dsimp only
        split_ifs with hzero
        · refine ⟨fun h => (nomatch h), ?_⟩
          rintro ⟨hm, hn⟩
          exact absurd (Option.some.inj hm ▸ hzero) hn
        · refine ⟨fun h => ?_, fun h => congrArg _ (Option.some.inj h.1)⟩
          obtain rfl := Except.ok.inj h
          exact ⟨rfl, hzero⟩
  rw [hcounted, unsigned?_eq_some_iff, Ne, Ticks.eq_zero_iff]
  omega

theorem signed_eq_ok_iff {n : Int} : signed v = .ok n ↔ InOctaves v ∧ n = v := by
  rw [← signed?_eq_some, signed]
  cases signed? v <;> simp

/-- The changes that the names of settings ask for. -/
theorem ofSetting_name (x : Setting) (v : Int) :
    ofSetting x.name v = match x with
      | .tickUnit => (positive v).map .tickUnit
      | .tempo =>
          match positive v with
          | .error cause => .error cause
          | .ok tempo =>
              match tickUnitOfTempo? tempo with
              | some ticks => .ok (.tickUnit ticks)
              | none => .error .tooFast
      | .octave => (signed v).map .octave
      | .transpose => (signed v).map .transpose
      | .maximalSuffix =>
          match unsigned? v with
          | some ticks => .ok (.maximalSuffix ticks)
          | none => .error .negative := by
  unfold ofSetting
  simp only [x.name_eq_iff]
  cases x <;> rfl

/-! ### One lemma for each kind of range -/

theorem exists_map_iff {α : Type} {x : Except PragmaCause α} {f : α → Change} :
    (∃ change, x.map f = .ok change ∧ σ.apply change = σ') ↔
      ∃ n, x = .ok n ∧ σ.apply (f n) = σ' := by
  cases x <;> simp [Except.map]

theorem exists_signed_iff (f : Int → Change) :
    (∃ change, (signed v).map f = .ok change ∧ σ.apply change = σ') ↔
      InOctaves v ∧ σ.apply (f v) = σ' := by
  rw [exists_map_iff]
  simp only [signed_eq_ok_iff, and_assoc, exists_and_left, exists_eq_left]

theorem exists_positive_iff (f : UInt32 → Change) :
    (∃ change, (positive v).map f = .ok change ∧ σ.apply change = σ') ↔
      (1 ≤ v ∧ v ≤ 4294967295) ∧ ∃ n : UInt32, (n.toNat : Int) = v ∧ σ.apply (f n) = σ' := by
  rw [exists_map_iff]
  simp only [positive_eq_ok_iff, and_assoc, exists_and_left]

theorem exists_unsigned_iff (f : UInt32 → Change) (cause : PragmaCause) :
    (∃ change, (match unsigned? v with
        | some n => .ok (f n)
        | none => .error cause) = Except.ok change ∧ σ.apply change = σ') ↔
      (0 ≤ v ∧ v ≤ 4294967295) ∧ ∃ n : UInt32, (n.toNat : Int) = v ∧ σ.apply (f n) = σ' := by
  have hcounted : (∃ n, unsigned? v = some n ∧ σ.apply (f n) = σ') ↔
      (0 ≤ v ∧ v ≤ 4294967295) ∧ ∃ n : UInt32, (n.toNat : Int) = v ∧ σ.apply (f n) = σ' := by
    simp only [unsigned?_eq_some_iff, and_assoc, exists_and_left]
  rw [← hcounted]
  cases unsigned? v <;> simp

theorem exists_tempo_iff :
    (∃ change, (match positive v with
        | .error cause => .error cause
        | .ok tempo =>
            match tickUnitOfTempo? tempo with
            | some ticks => .ok (.tickUnit ticks)
            | none => .error .tooFast) = Except.ok change ∧ σ.apply change = σ') ↔
      (1 ≤ v ∧ v ≤ 52800) ∧ ∃ ticks : Ticks, (ticks.toNat : Int) = round (26400 / v : ℚ) ∧
        σ.apply (.tickUnit ticks) = σ' := by
  constructor
  · rintro ⟨change, hchange, h⟩
    split at hchange
    · cases hchange
    · rename_i tempo htempo
      split at hchange
      · rename_i ticks hticks
        cases hchange
        obtain ⟨hpos, hv⟩ := positive_eq_ok_iff.mp htempo
        obtain ⟨hrange, hround⟩ := tickUnitOfTempo?_eq_some_iff.mp hticks
        refine ⟨⟨hpos.1, by omega⟩, ticks, ?_, h⟩
        rw [hround, ← hv, Int.cast_natCast]
      · cases hchange
  · rintro ⟨⟨hge, hle⟩, ticks, hround, h⟩
    -- the tempo is far below the bound of positive counts
    have hv : ((UInt32.ofNat v.toNat).toNat : Int) = v := by
      rw [Ticks.toNat_ofNat (by omega)]
      omega
    have htempo : positive v = .ok (.ofNat v.toNat) :=
      positive_eq_ok_iff.mpr ⟨⟨hge, by omega⟩, hv⟩
    have hticks : tickUnitOfTempo? (.ofNat v.toNat) = some ticks := by
      rw [tickUnitOfTempo?_eq_some_iff, hround, ← Int.cast_natCast, hv]
      exact ⟨by omega, rfl⟩
    exact ⟨.tickUnit ticks, by rw [htempo]; dsimp only; rw [hticks], h⟩

/-- **A setting takes the values in its range**, and no others. -/
theorem ofSetting_eq_ok_iff (x : Setting) :
    (∃ change, ofSetting x.name v = .ok change ∧ σ.apply change = σ') ↔
      x.InRange v ∧ x.Sets v σ σ' := by
  rw [ofSetting_name, Setting.sets_iff]
  cases x with
  | tickUnit => exact exists_positive_iff _
  | tempo => exact exists_tempo_iff
  | octave => exact exists_signed_iff _
  | transpose => exact exists_signed_iff _
  | maximalSuffix => exact exists_unsigned_iff _ _

/-- A change is asked for by the name of a setting. -/
theorem exists_name_of_ofSetting {name : Text} (h : ofSetting name v = .ok change) :
    ∃ x : Setting, name = x.name := by
  by_contra hnone
  have hne : ∀ x : Setting, name ≠ x.name := fun x hx => hnone ⟨x, hx⟩
  have hunit : name ≠ "tick_unit".toList := hne .tickUnit
  have htempo : name ≠ "tempo".toList := hne .tempo
  have hoctave : name ≠ "octave".toList := hne .octave
  have htranspose : name ≠ "transpose".toList := hne .transpose
  have hsuffix : name ≠ "maximal_suffix".toList := hne .maximalSuffix
  rw [ofSetting, if_neg hunit, if_neg htempo, if_neg hoctave, if_neg htranspose,
    if_neg hsuffix] at h
  cases h

theorem value?_eq_some_iff {s : Text} :
    value? s = some v ↔
      Decimal.Denotes s v ∧ -9223372036854775808 ≤ v ∧ v ≤ 9223372036854775807 := by
  rw [value?, Option.filter_eq_some_iff, Decimal.int?_eq_some_iff, decide_eq_true_eq]

/-- **A pragma is read** as far as it is a mark, a name and a value. -/
theorem read_eq_ok_iff {l : Text} :
    read l = .ok change ↔ ∃ i j k name value v, l.words = [⟨i, ['#']⟩, ⟨j, name⟩, ⟨k, value⟩] ∧
      value? value = some v ∧ ofSetting name v = .ok change := by
  unfold read
  constructor
  · intro h
    split at h
    · rename_i mark name value hwords
      split at h
      · rename_i hmark
        split at h
        · rename_i v hv
          obtain ⟨i, text⟩ := mark
          obtain rfl : text = ['#'] := hmark
          exact ⟨i, name.column, value.column, name.text, value.text, v, hwords, hv, h⟩
        · cases h
      · cases h
    · cases h
  · rintro ⟨i, j, k, name, value, v, hwords, hv, h⟩
    rw [hwords]
    dsimp only
    rw [if_pos rfl, hv]
    exact h

/-- **A pragma is followed** exactly if it sets a setting to a value in range. -/
theorem exists_read_iff {l : Text} :
    (∃ change, read l = .ok change ∧ σ.apply change = σ') ↔
      ∃ x : Setting, ∃ v, x.IsSetIn v l ∧ x.Sets v σ σ' := by
  constructor
  · rintro ⟨change, h, hσ⟩
    obtain ⟨i, j, k, name, value, v, hwords, hv, hset⟩ := read_eq_ok_iff.mp h
    obtain ⟨x, rfl⟩ := exists_name_of_ofSetting hset
    obtain ⟨hdenotes, hfits⟩ := value?_eq_some_iff.mp hv
    obtain ⟨hrange, hsets⟩ := (ofSetting_eq_ok_iff x).mp ⟨change, hset, hσ⟩
    exact ⟨x, v, ⟨⟨i, j, k, value, Text.wordsInOrder_iff.mpr hwords.symm, hdenotes⟩, hfits, hrange⟩,
      hsets⟩
  · rintro ⟨x, v, ⟨⟨i, j, k, value, hwords, hdenotes⟩, hfits, hrange⟩, hsets⟩
    obtain ⟨change, hset, hσ⟩ := (ofSetting_eq_ok_iff x).mpr ⟨hrange, hsets⟩
    exact ⟨change, read_eq_ok_iff.mpr ⟨i, j, k, x.name, value, v,
      (Text.wordsInOrder_iff.mp hwords).symm, value?_eq_some_iff.mpr ⟨hdenotes, hfits⟩, hset⟩, hσ⟩

/-- The end of the line does not matter. -/
theorem read_dropLineEnd (l : Text) : read l.dropLineEnd = read l := by
  unfold read
  rw [Text.words_dropLineEnd]

end Change

/-! ## Lines -/

/-- A line that begins with the mark is a pragma. -/
theorem LineKind.of_mark {l : Text} (hl : l.head? = some '#') : LineKind.of l = .pragma := by
  obtain ⟨rest, rfl⟩ := List.head?_eq_some_iff.mp hl
  have hmark : Text.isBlank '#' = false := by decide
  have hblank : Text.allBlank ('#' :: rest) = false := by
    rw [Text.allBlank, List.all_cons, hmark, Bool.false_and]
  rw [LineKind.of, hblank]
  rfl

namespace Score

variable {l : Text} {s : Score}

theorem feedLine_of_mark (hl : l.head? = some '#') (s : Score) :
    feedLine l s = feedPragma l.dropLineEnd { s with line := s.line + 1 } := by
  have hkind : LineKind.of l.dropLineEnd = .pragma :=
    (LineKind.of_dropLineEnd l).trans (LineKind.of_mark hl)
  rw [feedLine, hkind]

/-- **Pragmas are followed as a whole or not at all.** A line that begins with the mark is accepted exactly
if it has three words, the mark, the name of a setting and a value in its range. Then this setting has the
value. Otherwise the line is refused as it is written, but for its end. In both cases all else stays as it
is, and the line is counted. -/
theorem feedLine_pragma_exact (hl : l.head? = some '#') (s : Score) :
    ((∃ s', feedLine l s = .ok () s') ↔ ∃ x v, Setting.IsSetIn x v l) ∧
      (∀ x v, Setting.IsSetIn x v l → ∃ σ, Setting.Sets v s.settings x σ ∧
        feedLine l s = .ok () { s with settings := σ, line := s.line + 1 }) ∧
      ((¬ ∃ x v, Setting.IsSetIn x v l) → ∃ text ending cause, l = text ++ ending ∧
        (∀ c ∈ ending, c = '\n' ∨ c = '\r') ∧ (∀ c ∈ text.getLast?, c ≠ '\n' ∧ c ≠ '\r') ∧
        feedLine l s = .error (.pragma (s.line + 1) text cause) { s with line := s.line + 1 }) := by
  rw [feedLine_of_mark hl, feedPragma, Change.read_dropLineEnd]
  have hfollowed : ∀ x v, Setting.IsSetIn x v l →
      ∃ σ, Setting.Sets v s.settings x σ ∧ ∃ change, Change.read l = .ok change ∧
        s.settings.apply change = σ := by
    intro x v h
    obtain ⟨σ, hsets⟩ := h.inRange.exists_sets s.settings
    exact ⟨σ, hsets, Change.exists_read_iff.mpr ⟨x, v, h, hsets⟩⟩
  cases hread : Change.read l with
  | ok change =>
      have happly : ∃ c, Change.read l = .ok c ∧ s.settings.apply c = s.settings.apply change :=
        ⟨change, hread, rfl⟩
      obtain ⟨x, v, hset, -⟩ := Change.exists_read_iff.mp happly
      refine ⟨⟨fun _ => ⟨x, v, hset⟩, fun _ => ⟨_, rfl⟩⟩, ?_, fun hnone => ?_⟩
      · intro x' v' hset'
        obtain ⟨σ, hsets, change', hread', rfl⟩ := hfollowed x' v' hset'
        obtain rfl : change = change' := Except.ok.inj (hread.symm.trans hread')
        exact ⟨_, hsets, rfl⟩
      · exact absurd ⟨x, v, hset⟩ hnone
  | error cause =>
      have hnone : ¬ ∃ x v, Setting.IsSetIn x v l := by
        rintro ⟨x, v, hset⟩
        obtain ⟨σ, -, change, hchange, -⟩ := hfollowed x v hset
        rw [hread] at hchange
        cases hchange
      refine ⟨⟨fun h => ?_, fun h => absurd h hnone⟩, fun x v h => absurd ⟨x, v, h⟩ hnone, fun _ => ?_⟩
      · obtain ⟨s', h⟩ := h
        cases h
      · obtain ⟨ending, htext, hending, hlast⟩ :=
          Text.exists_dropEnd (fun c => c == '\n' || c == '\r') l
        refine ⟨l.dropLineEnd, ending, cause, htext, fun c hc => ?_, fun c hc => ?_, rfl⟩
        · simpa using hending c hc
        · simpa using hlast c hc

/-- A tempo with a sign and a leading zero, between blanks of several kinds, and a tempo that is too
fast. -/
theorem feedLine_pragma_exact_tempo :
    let s : Score := { settings := { octave := 3 }, line := 6 }
    let slow : Text := "#\u3000tempo\t+0112 \r\n".toList
    let fast : Text := "# tempo 52801\n".toList
    feedLine slow s = .ok () { settings := { octave := 3, tickUnit := 236 }, line := 7 } ∧
      ∃ text ending cause, fast = text ++ ending ∧ (∀ c ∈ ending, c = '\n' ∨ c = '\r') ∧
        feedLine fast s = .error (.pragma 7 text cause) { s with line := 7 } := by
  intro s slow fast
  have hset : Setting.IsSetIn .tempo 112 slow := by
    refine ⟨⟨1, 3, 9, "+0112".toList, Text.wordsInOrder_iff.mpr ?_, ?_⟩, by decide, by decide⟩
    · decide +kernel
    · exact Decimal.int?_eq_some_iff.mp (by decide +kernel)
  have hnone : ¬ ∃ x v, Setting.IsSetIn x v fast := by
    rintro ⟨x, v, h⟩
    obtain ⟨σ, hsets⟩ := h.inRange.exists_sets {}
    obtain ⟨change, hchange, -⟩ := Change.exists_read_iff.mpr ⟨x, v, h, hsets⟩
    have hread : Change.read fast = .error .tooFast := by decide +kernel
    rw [hread] at hchange
    cases hchange
  obtain ⟨σ, hsets, hslow⟩ := (feedLine_pragma_exact (l := slow) rfl s).2.1 _ _ hset
  obtain ⟨text, ending, cause, htext, hending, hlast, hfast⟩ :=
    (feedLine_pragma_exact (l := fast) rfl s).2.2 hnone
  refine ⟨?_, text, ending, cause, htext, hending, hfast⟩
  cases hsets with
  | @tempo ticks hround =>
      have hbeat : round (26400 / (112 : Int) : ℚ) = 236 := round_beat (show 0 < 112 by decide)
      rw [hbeat] at hround
      obtain rfl : ticks = 236 := UInt32.toNat_inj.mp (Int.ofNat_inj.mp hround)
      exact hslow

end Score

end SungScore
