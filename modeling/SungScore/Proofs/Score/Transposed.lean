import SungScore.Proofs.Score.Alike

set_option autoImplicit false

/-!
# Transposition

A transposition by some semitones moves all keys by as many, and changes nothing else
(`read_transposed`), as long as no key leaves the range: at its ends different keys would become the same.

What the keys of a score decide is which morae are refrained, by the question whether two keys are the
same, and the keys of codas, which they take from the morae before them. Both are the same
for keys that are all moved alike. The faults of notes name the keys that are written, before any
transposition.
-/

namespace SungScore

/-- The key is in the range of the settings. -/
def Settings.Includes (σ : Settings) (key : Int) : Prop := σ.lowestKey ≤ key ∧ key ≤ σ.highestKey

instance (σ : Settings) (key : Int) : Decidable (σ.Includes key) :=
  inferInstanceAs (Decidable (_ ∧ _))

theorem Settings.clampKey_of_includes {σ : Settings} {key : Int} (h : σ.Includes key) :
    σ.clampKey key = key := by
  obtain ⟨hlowest, hhighest⟩ := h
  rw [clampKey, min_eq_right hhighest, max_eq_right hlowest]

/-- The settings with some more semitones added to every key. -/
def Settings.transposed (d : Int) (σ : Settings) : Settings :=
  { σ with transpose := σ.transpose + d }

/-- The mora some semitones higher. -/
def Mora.transposed (d : Int) (m : Mora) : Mora := { m with key := m.key + d }

/-- If the note has a pitch, its key is in the range of the settings, and still is when it is transposed
by the semitones. -/
def Note.Transposable (σ : Settings) (d : Int) (n : Note) : Prop :=
  ∀ p octave, n.kind = .pitched p octave →
    σ.Includes (p.key octave + σ.transpose) ∧ σ.Includes (p.key octave + σ.transpose + d)

/-- The settings find the key of a note in the same way. -/
structure Settings.KeysAs (ρ σ : Settings) : Prop where
  lowestKey : σ.lowestKey = ρ.lowestKey
  highestKey : σ.highestKey = ρ.highestKey
  transpose : σ.transpose = ρ.transpose

theorem Settings.KeysAs.apply {ρ σ : Settings} (h : ρ.KeysAs σ) {c : Change}
    (hc : ∀ semitones, c ≠ .transpose semitones) : ρ.KeysAs (σ.apply c) := by
  cases c with
  | transpose semitones => exact absurd rfl (hc semitones)
  | tickUnit ticks => exact ⟨h.lowestKey, h.highestKey, h.transpose⟩
  | octave number => exact ⟨h.lowestKey, h.highestKey, h.transpose⟩
  | maximalSuffix ticks => exact ⟨h.lowestKey, h.highestKey, h.transpose⟩

theorem Settings.apply_transposed (d : Int) (σ : Settings) {c : Change}
    (hc : ∀ semitones, c ≠ .transpose semitones) :
    (σ.transposed d).apply c = (σ.apply c).transposed d := by
  cases c with
  | transpose semitones => exact absurd rfl (hc semitones)
  | tickUnit ticks => rfl
  | octave number => rfl
  | maximalSuffix ticks => rfl

/-- A note that stays in the range has its key moved by the semitones. -/
theorem Note.key?_transposed {ρ σ : Settings} {d : Int} {n : Note} (hσ : ρ.KeysAs σ)
    (hn : n.Transposable ρ d) : n.key? (σ.transposed d) = (n.key? σ).map (· + d) := by
  unfold Note.key?
  cases hkind : n.kind with
  | tie => rfl
  | rest => rfl
  | pitched p octave =>
      obtain ⟨hhere, hthere⟩ := hn p octave hkind
      have hσhere : σ.Includes (p.key octave + σ.transpose) := by
        rw [Settings.Includes, hσ.lowestKey, hσ.highestKey, hσ.transpose]
        exact hhere
      have hσthere : (σ.transposed d).Includes (p.key octave + (σ.transposed d).transpose) := by
        show σ.Includes (p.key octave + (σ.transpose + d))
        rw [Settings.Includes, hσ.lowestKey, hσ.highestKey, hσ.transpose, ← Int.add_assoc]
        exact hthere
      show some _ = some _
      rw [Settings.clampKey_of_includes hσhere, Settings.clampKey_of_includes hσthere]
      exact congrArg some (Int.add_assoc _ _ _).symm

namespace Likeness

/-- Everything is alike that differs in the transposition by some semitones, for notes that stay in the
range of the settings. -/
def transposed (ρ : Settings) (d : Int) : Likeness where
  lines := id
  keys := (· + d)
  settings σ σ' := ρ.KeysAs σ ∧ σ' = σ.transposed d
  syllable s s' := s' = s
  note n n' := n' = n ∧ n.Transposable ρ d
  fault f f' := f' = f
  keys_injective := add_left_injective d
  settings_bound := by
    rintro σ _ ⟨-, rfl⟩
    rfl
  settings_keys := by
    rintro σ _ n _ ⟨hσ, rfl⟩ ⟨rfl, hn⟩
    exact Note.key?_transposed hσ hn
  syllable_place := by
    rintro _ s rfl
    exact ⟨s.line, s.column, rfl⟩
  note_place := by
    rintro _ n ⟨rfl, -⟩
    exact ⟨n.column, rfl⟩
  note_length := by
    rintro _ n ⟨rfl, hn⟩ length
    exact ⟨rfl, hn⟩
  syllable_fault := by
    rintro _ s rfl cause
    rfl
  note_fault := by
    rintro _ n ⟨rfl, -⟩ line cause
    rfl
  tie_fault := by
    rintro _ n ⟨rfl, -⟩ line
    rfl
  rest_fault := by
    rintro _ m _ n ⟨rfl, -⟩ ⟨rfl, -⟩ line
    rfl
  coda_fault _ _ := rfl

variable (ρ : Settings) (d : Int)

theorem ofLines_transposed : (transposed ρ d).OfLines where
  syllable _ := rfl
  fault f := by
    cases f <;> rfl
  settings := by
    rintro σ _ ⟨hσ, rfl⟩ octave
    exact ⟨⟨hσ.lowestKey, hσ.highestKey, hσ.transpose⟩, rfl⟩

end Likeness

/-- **Transposition moves keys and nothing else.** If no pragma of a source transposes, and if the keys
of all notes of its melody lines are in the range of the settings, before and after they are moved by some
semitones, then the source has the same morae with these semitones added to their keys, or the same
fault. -/
theorem read_transposed (σ : Settings) (start : Nat) (d : Int) (source : Text)
    (hno : Score.NoTranspose source.lines)
    (hkeys : ∀ number n, Score.NoteAt source.lines { settings := σ, line := start } number n →
      n.Transposable σ d) :
    ({ settings := σ.transposed d, line := start } : Score).read source
      = (({ settings := σ, line := start } : Score).read source).map
          (List.map (.transposed d)) := by
  let L := Likeness.transposed σ d
  have hL : L.OfLines := Likeness.ofLines_transposed σ d
  have hnew : L.Scores { settings := σ, line := start }
      { settings := σ.transposed d, line := start } :=
    ⟨⟨⟨rfl, rfl, rfl⟩, rfl⟩, rfl, rfl, rfl, rfl, ⟨rfl, .none, .nil, rfl⟩⟩
  have hchange : ∀ l ∈ source.lines, LineKind.of l.dropLineEnd = .pragma → ∀ c,
      Change.read l.dropLineEnd = .ok c →
        ∀ {τ τ'}, L.settings τ τ' → L.settings (τ.apply c) (τ'.apply c) := by
    rintro l hl hkind c hread τ _ ⟨hτ, rfl⟩
    have hc : ∀ semitones, c ≠ .transpose semitones := by
      rintro semitones rfl
      exact hno l hl hkind semitones hread
    exact ⟨hτ.apply hc, Settings.apply_transposed d τ hc⟩
  have hlines := Likeness.feedLines_alike_of_mem hL source.lines hnew (fun _ => rfl) hchange
    (fun number n hn => ⟨rfl, hkeys number n hn⟩)
  obtain ⟨ms, _, hx, hy, rfl⟩ | ⟨f, _, hx, hy, rfl⟩ := (Likeness.read_alike hL hlines).cases
  · rw [hx, hy]
    rfl
  · rw [hx, hy]
    rfl

/-- The coda `n` takes its key from "ka", and of two equal keys the first one is not refrained: this is so
five semitones higher as well. -/
theorem read_transposed_kan_ta :
    let source : Text := "kan  ta\nc-d. ee\n# octave 5\n".toList
    Score.NoTranspose source.lines ∧
      (∀ number n, Score.NoteAt source.lines {} number n → n.Transposable {} 5) ∧
      ∃ ms, compile {} source = .ok ms ∧ ms.map (·.key) = [48, 50, 50, 52, 52] ∧
        compile { transpose := 5 } source = .ok (ms.map (.transposed 5)) := by
  intro source
  have hpragma : ∀ l ∈ source.lines, LineKind.of l.dropLineEnd = .pragma →
      Change.read l.dropLineEnd = .ok (.octave 5) := by decide +kernel
  have hno : Score.NoTranspose source.lines := by
    intro l hl hkind semitones hread
    rw [hpragma l hl hkind] at hread
    cases hread
  have hkinds : ∀ k < 3, ∀ text ∈ source.lines[k]?, ∀ s ∈ Score.after? (source.lines.take k) {},
      ∀ n ∈ Score.lineNotes text s, n.kind ∈ [.tie, .rest, .pitched ⟨.c, .natural⟩ 4,
        .pitched ⟨.d, .natural⟩ 4, .pitched ⟨.e, .natural⟩ 4] := by decide +kernel
  have hkeys : ∀ number n, Score.NoteAt source.lines {} number n → n.Transposable {} 5 := by
    rintro number n ⟨k, text, before, -, htext, hbefore, hn⟩ p octave hp
    have hk : k < 3 := (List.getElem?_eq_some_iff.mp htext).1
    have hkind := hkinds k hk text htext before hbefore n hn
    rw [hp] at hkind
    simp only [List.mem_cons, NoteKind.pitched.injEq, reduceCtorEq, false_or, List.not_mem_nil,
      or_false] at hkind
    obtain ⟨rfl, rfl⟩ | ⟨rfl, rfl⟩ | ⟨rfl, rfl⟩ := hkind <;> decide
  have h : compile {} source = .ok
      [{ consonant := ['k'], vowel := ['a'], key := 48, tick := 439, offTick := 30,
          bends := List.replicate 10 0 },
        { vowel := ['a'], key := 50, tick := 110 },
        { consonant := ['n'], key := 50, tick := 109, offTick := 109, bends := [0, 0, 0] },
        { consonant := ['t'], vowel := ['a'], key := 52, tick := 440, onTick := 220,
          offTick := 30 },
        { vowel := ['a'], key := 52, tick := 220 }] := by decide +kernel
  exact ⟨hno, hkeys, _, h, rfl,
    (read_transposed {} 0 5 source hno hkeys).trans (congrArg (Except.map _) h)⟩

end SungScore
