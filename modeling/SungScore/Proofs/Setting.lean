import SungScore.Proofs.Score.Renumbered
import SungScore.Proofs.Text.Decimal
import SungScore.Proofs.Text.Lines
import SungScore.Proofs.Text.Written
import SungScore.Yaml.Mapping

set_option autoImplicit false

/-!
# Settings given in two ways

Five of the settings can be given in a configuration as well as by a pragma. They are read by different
readers, and what is in range is checked in different places. Of the reader of configurations nothing is
assumed but what it makes of a document that gives a value to a setting (`Setting.IsGivenIn`). Still both
are accepted or none is, and a score with the pragma in front is the score under the configuration, one
line further down (`configured_iff_pragma`).
-/

namespace SungScore

theorem toOption_eq_some {ε α : Type} {x : Except ε α} {a : α} :
    x.toOption = some a ↔ x = .ok a := by
  cases x <;> simp [Except.toOption]

/-- The settings that a configuration and a pragma can give. -/
inductive Setting
  | tickUnit
  | tempo
  | octave
  | transpose
  | maximalSuffix
deriving DecidableEq

namespace Setting

/-- The name of a setting, which is the same in both. -/
def name : Setting → Text
  | tickUnit => "tick_unit".toList
  | tempo => "tempo".toList
  | octave => "octave".toList
  | transpose => "transpose".toList
  | maximalSuffix => "maximal_suffix".toList

/-- The names by which the settings are told apart. -/
theorem name_eq_iff (x : Setting) :
    (x.name = "tick_unit".toList ↔ x = tickUnit) ∧ (x.name = "tempo".toList ↔ x = tempo) ∧
      (x.name = "octave".toList ↔ x = octave) ∧ (x.name = "transpose".toList ↔ x = transpose) ∧
      (x.name = "maximal_suffix".toList ↔ x = maximalSuffix) := by
  cases x <;> decide

/-- The pragma that gives a value to a setting. -/
def pragma (x : Setting) (v : Int) : Text := '#' :: ' ' :: (x.name ++ ' ' :: Decimal.ofInt v)

/-- The configuration that gives nothing but a value to a setting. There is none if the value is out of
range. -/
def config? (x : Setting) (v : Int) : Option Config :=
  match x with
  | tickUnit => (unsigned? v).map (fun n => { tickUnit := some n })
  | tempo => (unsigned? v).map (fun n => { tempo := some n })
  | octave => (signed? v).map (fun n => { octave := some n })
  | transpose => (signed? v).map (fun n => { transpose := some n })
  | maximalSuffix => (unsigned? v).map (fun n => { maximalSuffix := some n })

/-- The document gives nothing but the value to the setting: the reader makes this configuration of it, and
refuses it where the value is out of range. -/
structure IsGivenIn (x : Setting) (v : Int) (reader : Config.Reader) (document : Text) : Prop where
  notBlank : document.allBlank = false
  reading : (reader document).toOption = x.config? v

/-! ## The pragma -/

theorem not_isBlank_of_mem_name {x : Setting} : ∀ c ∈ x.name, Text.isBlank c = false := by
  have hany : x.name.any Text.isBlank = false := by cases x <;> rfl
  exact fun c hc => Bool.eq_false_of_not_eq_true (List.any_eq_false.mp hany c hc)

theorem not_isBlank_of_mem_ofInt {v : Int} : ∀ c ∈ Decimal.ofInt v, Text.isBlank c = false := by
  intro c hc
  rcases Decimal.isDigit_or_eq_of_mem_ofInt hc with hdigit | rfl
  · by_contra hblank
    rw [Text.not_isDigit_of_isBlank (Bool.eq_true_of_not_eq_false hblank)] at hdigit
    cases hdigit
  · decide

theorem words_pragma (x : Setting) (v : Int) :
    ∃ i j, (x.pragma v).words = [⟨1, ['#']⟩, ⟨i, x.name⟩, ⟨j, Decimal.ofInt v⟩] := by
  have hgap : Text.allBlank [' '] = true := rfl
  have hne : [' '] ≠ [] := List.cons_ne_nil _ _
  have hname : x.name.words = [⟨1, x.name⟩] :=
    Text.words_eq_singleton not_isBlank_of_mem_name (by cases x <;> decide)
  have hvalue : (Decimal.ofInt v).words = [⟨1, Decimal.ofInt v⟩] :=
    Text.words_eq_singleton not_isBlank_of_mem_ofInt (Decimal.ofInt_ne_nil v)
  -- the line is cut at its two blanks, the second one first
  have hall := Text.words_append hgap hne ['#'] (x.name ++ ([' '] ++ Decimal.ofInt v))
  rw [Text.words_append hgap hne x.name (Decimal.ofInt v), hname, hvalue] at hall
  exact ⟨_, _, hall⟩

theorem value?_ofInt (v : Int) :
    Change.value? (Decimal.ofInt v)
      = if -9223372036854775808 ≤ v ∧ v ≤ 9223372036854775807 then some v else none := by
  rw [Change.value?, Decimal.int?_ofInt, Option.filter_some]
  simp

/-- A pragma is read as far as its value is an integer of sixty-four bits. -/
theorem read_pragma (x : Setting) (v : Int) :
    Change.read (x.pragma v)
      = if -9223372036854775808 ≤ v ∧ v ≤ 9223372036854775807 then Change.ofSetting x.name v
        else .error .notInteger := by
  obtain ⟨i, j, hwords⟩ := x.words_pragma v
  rw [Change.read, hwords]
  dsimp only
  rw [if_pos rfl, value?_ofInt]
  by_cases hv : -9223372036854775808 ≤ v ∧ v ≤ 9223372036854775807
  · rw [if_pos hv, if_pos hv]
  · rw [if_neg hv, if_neg hv]

/-! ## Agreement -/

/-- **Both are validated in the same way**: the settings of the configuration are the settings after
the change. -/
theorem settings_config? (x : Setting) (v : Int) :
    (x.config? v).bind (fun c => c.settings.toOption)
      = (Change.read (x.pragma v)).toOption.map ({} : Settings).apply := by
  rw [read_pragma]
  by_cases hv : -9223372036854775808 ≤ v ∧ v ≤ 9223372036854775807
  · rw [if_pos hv, Change.ofSetting]
    simp only [x.name_eq_iff, config?, Change.positive, Change.signed]
    cases x with
    | tickUnit =>
        cases unsigned? v with
        | none => rfl
        | some n =>
            by_cases hn : n = 0 <;>
              simp [Config.settings, Config.beat, hn, Except.toOption, Except.map, Settings.apply]
    | tempo =>
        cases unsigned? v with
        | none => rfl
        | some n =>
            by_cases hn : n = 0
            · simp [Config.settings, Config.beat, tickUnitOfTempo?, hn, Except.toOption]
            · cases hticks : tickUnitOfTempo? n <;>
                simp [Config.settings, Config.beat, hn, hticks, Except.toOption, Settings.apply]
    | octave => cases signed? v <;> rfl
    | transpose => cases signed? v <;> rfl
    | maximalSuffix => cases unsigned? v <;> rfl
  · -- what has more than sixty-four bits has more than thirty-two
    rw [if_neg hv]
    have hunsigned : unsigned? v = none := if_neg (by omega)
    have hsigned : signed? v = none := if_neg (by omega)
    cases x <;> simp [config?, hunsigned, hsigned, Except.toOption]

/-- The configuration is valid exactly if the pragma can be read, and then it has the settings after
the change. -/
theorem ofDocument_eq_ok_iff {x : Setting} {v : Int} {reader : Config.Reader} {document : Text}
    (h : x.IsGivenIn v reader document) {σ : Settings} :
    Settings.ofDocument reader document = .ok σ ↔
      ∃ c, Change.read (x.pragma v) = .ok c ∧ ({} : Settings).apply c = σ := by
  have hread : Config.ofDocument reader document = reader document := by
    rw [Config.ofDocument, h.notBlank, if_neg Bool.false_ne_true]
  have hsettings : (Settings.ofDocument reader document).toOption
      = (Change.read (x.pragma v)).toOption.map ({} : Settings).apply := by
    rw [← settings_config?, ← h.reading, Settings.ofDocument, hread]
    cases reader document with
    | error cause => rfl
    | ok c =>
        dsimp only [Except.toOption, Option.bind_some]
        cases c.settings <;> rfl
  rw [← toOption_eq_some, hsettings, Option.map_eq_some_iff]
  simp only [toOption_eq_some]

/-! ## Scores -/

theorem ne_of_mem_pragma {x : Setting} {v : Int} : ∀ c ∈ x.pragma v, c ≠ '\n' ∧ c ≠ '\r' := by
  have hends : Text.isBlank '\n' = true ∧ Text.isBlank '\r' = true := by decide
  intro c hc
  simp only [pragma, List.mem_cons, List.mem_append] at hc
  rcases hc with rfl | rfl | hc | rfl | hc
  · decide
  · decide
  · have hblank := not_isBlank_of_mem_name c hc
    exact ⟨Text.ne_of_isBlank hends.1 hblank, Text.ne_of_isBlank hends.2 hblank⟩
  · decide
  · have hblank := not_isBlank_of_mem_ofInt c hc
    exact ⟨Text.ne_of_isBlank hends.1 hblank, Text.ne_of_isBlank hends.2 hblank⟩

/-- The line is a pragma to its end. -/
theorem feedLine_pragma (x : Setting) (v : Int) (s : Score) :
    Score.feedLine (x.pragma v) s = Score.feedPragma (x.pragma v) { s with line := s.line + 1 } := by
  have hend : (x.pragma v).dropLineEnd = x.pragma v := Text.dropLineEnd_eq_self ne_of_mem_pragma
  have hkind : LineKind.of (x.pragma v) = .pragma := rfl
  rw [Score.feedLine, hend, hkind]

theorem feedLine_pragma_ok {x : Setting} {v : Int} {s : Score} :
    Score.feedLine (x.pragma v) {} = .ok () s ↔
      ∃ c, Change.read (x.pragma v) = .ok c ∧ s = { settings := ({} : Settings).apply c, line := 1 } := by
  rw [feedLine_pragma, Score.feedPragma]
  cases Change.read (x.pragma v) with
  | error cause => simp
  | ok c => simp [eq_comm]

end Setting

/-! ## Whole scores -/

/-- A source behind a line goes on with the score that the line leaves. -/
theorem Score.read_line {l : Text} {s s' : Score} (hl : '\n' ∉ l) (h : feedLine l s = .ok () s')
    (source : Text) : s.read (l ++ '\n' :: source) = s'.read source := by
  obtain ⟨l', hlines, hend⟩ := Text.lines_written_cons hl .feed source
  unfold Score.read
  rw [show l ++ '\n' :: source = l ++ (LineEnd.feed.text ++ source) from rfl, hlines, feedLines]
  simp only [bind, EStateM.bind]
  rw [feedLine_congr hend, h]

/-- **Configurations and pragmas agree.** Whatever the reader is, a document that gives nothing but the
value to the setting is accepted exactly if the line `# name v` is accepted by a new score, and then both
give the same settings. Every source has the same morae under the configuration as behind the pragma, or
the same fault, one line further down. -/
theorem configured_iff_pragma (reader : Config.Reader) {x : Setting} {v : Int} {document : Text}
    (h : x.IsGivenIn v reader document) :
    ((∃ σ, Settings.ofDocument reader document = .ok σ) ↔
        ∃ s, Score.feedLine (x.pragma v) {} = .ok () s) ∧
      ∀ σ s, Settings.ofDocument reader document = .ok σ →
        Score.feedLine (x.pragma v) {} = .ok () s →
        s = { settings := σ, line := 1 } ∧
          ∀ source, compile {} (x.pragma v ++ '\n' :: source)
            = (compile σ source).mapError (.moved (· + 1) id) := by
  constructor
  · simp only [Setting.ofDocument_eq_ok_iff h, Setting.feedLine_pragma_ok]
    constructor
    · rintro ⟨σ, c, hc, -⟩
      exact ⟨_, c, hc, rfl⟩
    · rintro ⟨s, c, hc, -⟩
      exact ⟨_, c, hc, rfl⟩
  · intro σ s hσ hs
    obtain ⟨c, hc, rfl⟩ := (Setting.ofDocument_eq_ok_iff h).mp hσ
    obtain ⟨c', hc', rfl⟩ := Setting.feedLine_pragma_ok.mp hs
    obtain rfl : c = c' := Except.ok.inj (hc.symm.trans hc')
    refine ⟨rfl, fun source => ?_⟩
    have hfeed : '\n' ∉ x.pragma v := fun hmem => (Setting.ne_of_mem_pragma _ hmem).1 rfl
    rw [compile, Score.read_line hfeed hs]
    exact Score.read_moved _ 1 source

/-- A score is put an octave lower by a configuration with a comment, and by a pragma. -/
theorem configured_iff_pragma_transpose :
    let document : Text := "# an octave lower\ntranspose: -12".toList
    Setting.transpose.IsGivenIn (-12) Yaml.readConfig document ∧
      Settings.ofDocument Yaml.readConfig document = .ok { transpose := -12 } ∧
      ∀ source, compile {} ("# transpose -12".toList ++ '\n' :: source)
        = (compile { transpose := -12 } source).mapError (.moved (· + 1) id) := by
  intro document
  have hgiven : Setting.transpose.IsGivenIn (-12) Yaml.readConfig document :=
    ⟨by decide, by decide +kernel⟩
  have hconfigured : Settings.ofDocument Yaml.readConfig document = .ok { transpose := -12 } := by
    decide +kernel
  obtain ⟨hiff, hsame⟩ := configured_iff_pragma Yaml.readConfig hgiven
  obtain ⟨s, hs⟩ := hiff.mp ⟨_, hconfigured⟩
  exact ⟨hgiven, hconfigured, (hsame _ s hconfigured hs).2⟩

end SungScore
