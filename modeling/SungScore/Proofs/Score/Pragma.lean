import SungScore.Proofs.Score.Segments
import SungScore.Proofs.Segment.Place

set_option autoImplicit false

/-!
# How far back a pragma reaches

The length of a note and its octave are fixed when its line is read. Its transposition and the
bound on its coda are not: they are looked up when its syllable is finished, by the next syllable
or at the end of the score. A pragma in between changes them. So of the syllables before a pragma
it can reach the last one only (`segmentsOf_pragma`), and that one is sung as it was read exactly
if the settings with which it is finished happen to agree on it (`sungAsRead_iff`).
-/

namespace SungScore

open Segment

/-- What is read first is sung as it was read. Every pitched note has the key that it had when it
was read. Every last pitch of a syllable that is read to its end gives up as many ticks to its
coda as the settings allowed when the last note was read. -/
structure SungAsRead (ms : List Mora) (read finished : List Segment) : Prop where
  keys : ∀ (i : Nat) g, read[i]? = some g → ∀ (j : Nat) ρ n, g.pitches[j]? = some (ρ, n) →
    (ms[place finished i + j]?).map (·.key) = n.key? ρ
  codas : ∀ (i : Nat) g f, read[i]? = some g → finished[i]? = some f → f.fed = g.fed →
    ∀ ρ x n, f.fed.getLast? = some (ρ, x) → f.sounds.getLast? = some n →
      ∃ m, ms[place finished i + (f.sounds.length - 1)]? = some m ∧
        m.tick.toNat + (if m.bends.isEmpty then 0 else 1)
            + ({ f with settings := ρ } : Segment).codaTicks
          = n.length.toNat + takenByLast (before none finished i) f

/-- The settings with which syllables are finished agree with the ones when their notes were
read, up to the range of keys and the time of the last pitch. -/
structure FinishedAsRead (read finished : List Segment) : Prop where
  keys : ∀ (i : Nat) g f, read[i]? = some g → finished[i]? = some f → ∀ (j : Nat) ρ n,
    g.pitches[j]? = some (ρ, n) → n.key? f.settings = n.key? ρ
  codas : ∀ (i : Nat) g f, read[i]? = some g → finished[i]? = some f → f.fed = g.fed →
    ∀ ρ x n, f.fed.getLast? = some (ρ, x) → f.sounds.getLast? = some n →
      f.syllable.coda = [] ∨ n.length.toNat < 15 ∨
        min ρ.maximalSuffix.toNat (n.length.toNat / 2)
          = min f.settings.maximalSuffix.toNat (n.length.toNat / 2)

namespace Segment

/-- When other settings give the same coda. -/
theorem codaTicks_eq_iff {g : Segment} {n : Note} (hn : g.sounds.getLast? = some n)
    (ρ : Settings) :
    ({ g with settings := ρ } : Segment).codaTicks = g.codaTicks ↔
      g.syllable.coda = [] ∨ n.length.toNat < 15 ∨
        min ρ.maximalSuffix.toNat (n.length.toNat / 2)
          = min g.settings.maximalSuffix.toNat (n.length.toNat / 2) := by
  have hn' : ({ g with settings := ρ } : Segment).sounds.getLast? = some n := hn
  rw [codaTicks, codaTicks, hn, hn']
  dsimp only
  by_cases hc : g.syllable.coda = []
  · simp [hc]
  · by_cases hlong : 15 ≤ n.length.toNat
    · have hshort : ¬ n.length.toNat < 15 := by omega
      simp [hc, hlong, hshort]
    · have hshort : n.length.toNat < 15 := by omega
      simp [hlong, hshort]

/-- Notes that are fed later change nothing about the pitches before them. -/
theorem getElem?_pitches {g f : Segment} (h : g.fed <+: f.fed) {j : Nat} {x : Settings × Note}
    (hx : g.pitches[j]? = some x) : f.pitches[j]? = some x := by
  obtain ⟨later, hlater⟩ := h
  have hj : j < g.pitches.length := (List.getElem?_eq_some_iff.mp hx).1
  have hf : f.pitches = g.pitches ++ later.filter (fun x => x.2.isPitched) := by
    rw [pitches, ← hlater, List.filter_append]
    rfl
  rw [hf, List.getElem?_append_left hj]
  exact hx

/-- Where segments go on from the ones that were read, they are sung as they were read exactly if
they are finished so. -/
theorem sungAsRead_iff {read finished : List Segment} (hall : AllSung none finished)
    (hon : ∀ (i : Nat) g, read[i]? = some g → ∃ f, finished[i]? = some f ∧ g.fed <+: f.fed) :
    SungAsRead (refrain (describe none finished)) read finished ↔
      FinishedAsRead read finished := by
  constructor
  · intro h
    refine ⟨?_, ?_⟩
    · intro i g f hg hf j ρ n hx
      obtain ⟨f', hf', hfed⟩ := hon i g hg
      obtain rfl : f = f' := by simpa [hf] using hf'
      rw [← h.keys i g hg j ρ n hx, key_at_place hall hf (getElem?_pitches hfed hx)]
    · -- the mora is the same, so both accounts of its ticks leave the same for the coda
      intro i g f hg hf hfed ρ x n hx hn
      obtain ⟨m, hm, htick⟩ := h.codas i g f hg hf hfed ρ x n hx hn
      obtain ⟨m', hm', htick'⟩ := tick_at_last_place hall hf hn
      obtain rfl : m = m' := by simpa [hm] using hm'
      exact (codaTicks_eq_iff hn ρ).mp (by omega)
  · intro h
    refine ⟨?_, ?_⟩
    · intro i g hg j ρ n hx
      obtain ⟨f, hf, hfed⟩ := hon i g hg
      rw [key_at_place hall hf (getElem?_pitches hfed hx)]
      exact h.keys i g f hg hf j ρ n hx
    · intro i g f hg hf hfed ρ x n hx hn
      obtain ⟨m, hm, htick⟩ := tick_at_last_place hall hf hn
      have hcoda := (codaTicks_eq_iff hn ρ).mpr (h.codas i g f hg hf hfed ρ x n hx hn)
      exact ⟨m, hm, by omega⟩

end Segment

/-! ## Sources with a pragma -/

/-- A pragma changes the settings and gives nothing to the engine. -/
theorem Score.Reads.of_pragma {l : Text} {s s' : Score}
    (hkind : LineKind.of l.dropLineEnd = .pragma) (h : Reads l s s') :
    lineCues l s = [] ∧ ∃ change, Change.read l.dropLineEnd = .ok change ∧
      s' = { s with line := s.line + 1, settings := s.settings.apply change } := by
  refine ⟨by rw [lineCues, hkind], ?_⟩
  cases h with
  | ignored hkind' => cases hkind.symm.trans hkind'
  | pragma _ hread => exact ⟨_, hread, rfl⟩
  | lyrics hkind' => cases hkind.symm.trans hkind'
  | melody hkind' => cases hkind.symm.trans hkind'

/-- **How far back a pragma reaches**: the syllables of the lines before it stay as they are, except
for the last one, which goes on in the lines after it and is finished there. -/
theorem segmentsOf_pragma {σ : Settings} {source : Text} {ms : List Mora}
    {earlier later : List Text} {pragma : Text} (hlines : source.lines = earlier ++ pragma :: later)
    (hkind : LineKind.of pragma.dropLineEnd = .pragma) (h : compile σ source = .ok ms) :
    ∃ s change s', Score.feedLines earlier { settings := σ } = .ok () s ∧
      Change.read pragma.dropLineEnd = .ok change ∧
      let changed := { s with line := s.line + 1, settings := s.settings.apply change }
      Score.feedLines later changed = .ok () s' ∧
        segmentsOf σ source
          = resume s'.settings (Score.cues later changed)
              (Score.segments earlier { settings := σ }) := by
  obtain ⟨s', hread, -⟩ := compile_read h
  have hlater := hread
  rw [hlines] at hlater
  obtain ⟨s, hearlier, hpragma⟩ := Score.feedLines_append_ok.mp hlater
  obtain ⟨s₁, hfeed, hrest⟩ := Score.feedLines_cons_ok.mp hpragma
  obtain ⟨hnone, change, hchange, rfl⟩ := hfeed.of_pragma hkind
  refine ⟨s, change, s', hearlier, hchange, hrest, ?_⟩
  rw [segmentsOf, Score.segments_eq hread, Score.segments_eq hearlier, hlines,
    Score.cues_append hearlier, Score.cues_cons hfeed, hnone, List.nil_append,
    ofCues_append _ _ s.settings]

/-- **Notes before a pragma**: they are sung as they were read exactly if their syllables are
finished under settings that agree with the ones of then. -/
theorem sung_as_read_before_pragma (σ : Settings) (source : Text) (ms : List Mora)
    (earlier later : List Text) (pragma : Text)
    (hlines : source.lines = earlier ++ pragma :: later)
    (hkind : LineKind.of pragma.dropLineEnd = .pragma) (h : compile σ source = .ok ms) :
    let read := Score.segments earlier { settings := σ }
    ∃ s change s', Score.feedLines earlier { settings := σ } = .ok () s ∧
      Change.read pragma.dropLineEnd = .ok change ∧
      let changed := { s with line := s.line + 1, settings := s.settings.apply change }
      Score.feedLines later changed = .ok () s' ∧
        segmentsOf σ source = resume s'.settings (Score.cues later changed) read ∧
        (SungAsRead ms read (segmentsOf σ source)
          ↔ FinishedAsRead read (segmentsOf σ source)) := by
  intro read
  obtain ⟨hall, rfl⟩ := compile_ok h
  obtain ⟨s, change, s', hearlier, hchange, hrest, hsegments⟩ := segmentsOf_pragma hlines hkind h
  refine ⟨s, change, s', hearlier, hchange, hrest, hsegments, sungAsRead_iff hall ?_⟩
  intro i g hg
  rw [hsegments]
  exact getElem?_resume hg

/-- The note `c` of an open syllable is not sung on the key `48` that it was read with: a pragma
after it puts it five semitones higher. -/
theorem not_sung_as_read_before_transpose :
    let source : Text := "ka\nc\n# transpose 5\n".toList
    let earlier : List Text := ["ka".toList, "c".toList]
    let pragma : Text := "# transpose 5".toList
    source.lines = earlier ++ pragma :: [] ∧ LineKind.of pragma.dropLineEnd = .pragma ∧
      (Score.after? earlier {}).map (·.pending) = some none ∧
      ∃ ms, compile {} source = .ok ms ∧
        ¬ SungAsRead ms (Score.segments earlier {}) (segmentsOf {} source) := by
  intro source earlier pragma
  have hms : compile {} source = .ok
      [{ consonant := ['k'], vowel := ['a'], key := 53, tick := 220, offTick := 30 }] := by
    decide +kernel
  have hread : (Score.segments earlier {})[0]?
      = some ⟨⟨['k'], [], ['a'], [], 1, 1⟩,
          [({}, ⟨.pitched ⟨.c, .natural⟩ 4, 220, 1⟩)], {}⟩ := by decide +kernel
  refine ⟨by decide +kernel, by decide +kernel, by decide +kernel, _, hms, ?_⟩
  intro h
  have hkey := h.keys 0 _ hread 0 _ _ rfl
  rw [place_zero] at hkey
  exact absurd hkey (by decide)

/-- A pragma that changes the beat leaves the note before it as it is. -/
theorem sung_as_read_before_tick_unit :
    let source : Text := "ka\nc\n# tick_unit 100\nna\nd\n".toList
    let earlier : List Text := ["ka".toList, "c".toList]
    ∃ ms, compile {} source = .ok ms ∧
      (SungAsRead ms (Score.segments earlier {}) (segmentsOf {} source)
        ↔ FinishedAsRead (Score.segments earlier {}) (segmentsOf {} source)) := by
  intro source earlier
  have hlines : source.lines
      = earlier ++ "# tick_unit 100".toList :: ["na".toList, "d".toList] := by decide +kernel
  have h : compile {} source = .ok
      [{ consonant := ['k'], vowel := ['a'], key := 48, tick := 219, offTick := 30,
         bends := [0, 0, 0, 0, 0] },
        { consonant := ['n'], vowel := ['a'], key := 50, tick := 100, offTick := 30 }] := by
    decide +kernel
  obtain ⟨_, _, _, -, -, -, -, hiff⟩ :=
    sung_as_read_before_pragma {} source _ earlier _ _ hlines (by decide +kernel) h
  exact ⟨_, h, hiff⟩

end SungScore
