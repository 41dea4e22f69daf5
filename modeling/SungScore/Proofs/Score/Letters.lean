import SungScore.Proofs.Lyrics
import SungScore.Proofs.Score.Heard

set_option autoImplicit false

/-!
# The letters that are sung

A syllable that is read consists of consonants, digits and vowels (`Syllable.Lettered`), and so does
every syllable that a score has heard (`Score.lettered_of_mem_heard`). A mora takes its consonant from
the onset or the coda of a syllable and its vowel from the vowel of one. So all text in a compiled score
is made of letters of the lyrics (`spelled_of_compile`).
-/

namespace SungScore

/-- A syllable with the letters that its parts can have. -/
structure Syllable.Lettered (s : Syllable) : Prop where
  onset : ∀ c ∈ s.onset, isConsonant c = true
  breath : ∀ c ∈ s.breath, c.isDigit = true
  vowel : ∀ c ∈ s.vowel, isVowel c = true
  coda : ∀ c ∈ s.coda, isConsonant c = true

theorem Syllable.lettered_of_read {line column : Nat} {word : Text} {s : Syllable}
    (h : Syllable.read line column word = .ok s) : s.Lettered :=
  have hparts := (Syllable.read_ok.mp h).1
  ⟨hparts.onset.kind, hparts.breath.kind, hparts.vowel.kind, hparts.coda⟩

theorem Lyrics.lettered_of_read {line : Nat} {text : Text} {ss : List Syllable}
    (h : Lyrics.read line text = .ok ss) : ∀ s ∈ ss, s.Lettered := by
  unfold Lyrics.read at h
  generalize text.words = ws at h
  induction ws generalizing ss with
  | nil =>
      cases h
      simp
  | cons w ws ih =>
      obtain ⟨s, later, hs, hlater, rfl⟩ := ofWords_cons_ok.mp h
      intro x hx
      rcases List.mem_cons.mp hx with rfl | hx
      · exact Syllable.lettered_of_read hs
      · exact ih hlater x hx

/-! ## Scores -/

namespace Score

/-- A line leaves syllables that waited or that were read. -/
theorem Reads.lettered {l : Text} {s s' : Score} (h : Reads l s s')
    (hs : ∀ x ∈ s.waiting, x.Lettered) : ∀ x ∈ s'.waiting, x.Lettered := by
  cases h with
  | ignored => exact hs
  | pragma => exact hs
  | lyrics _ _ hread => exact Lyrics.lettered_of_read hread
  | melody => simp [waiting]

/-- Every syllable that is heard was read or waited from the beginning. -/
theorem lettered_of_mem_heard {ls : List Text} {s : Score} {c : Cue Event} {x : Syllable}
    (hs : ∀ x ∈ s.waiting, x.Lettered) (h : c ∈ heard ls s) (hx : c.what = .syllable x) :
    x.Lettered := by
  induction ls generalizing s with
  | nil => cases h
  | cons l ls ih =>
      rcases mem_heard_cons h with hnow | ⟨s', hread, hlater⟩
      · obtain ⟨-, ⟨y, hy, hwhat⟩ | ⟨n, -, hwhat⟩⟩ := mem_lineCues hnow
        · rw [hwhat] at hx
          cases hx
          exact hs x hy
        · rw [hwhat] at hx
          cases hx
      · exact ih (hread.lettered hs) hlater

end Score

/-! ## Morae -/

/-- A mora with letters of the lyrics. -/
structure Mora.Spelled (m : Mora) : Prop where
  consonant : ∀ c ∈ m.consonant, isConsonant c = true
  vowel : ∀ c ∈ m.vowel, isVowel c = true

theorem Mora.Spelled.followedBy {m : Mora} (h : m.Spelled) (next : Option Mora) :
    (m.followedBy next).Spelled := by
  rcases followedBy_eq next m with hm | hm
  · rw [hm]
    exact h
  · rw [hm]
    exact ⟨h.consonant, h.vowel⟩

namespace Segment

variable {g : Segment}

theorem spelled_voiced (hg : g.syllable.Lettered) (ns : List Note) :
    ∀ m ∈ g.voiced ns, m.Spelled := by
  induction ns with
  | nil => simp [voiced]
  | cons n after ih =>
      intro m hm
      rcases List.mem_cons.mp hm with rfl | hm
      · exact ⟨by simp, hg.vowel⟩
      · exact ih m hm

theorem spelled_body (hg : g.syllable.Lettered) (previous : Option Segment) :
    ∀ m ∈ body previous g, m.Spelled := by
  unfold body
  split
  · simp
  · rename_i n after hsounds
    intro m hm
    rcases List.mem_cons.mp hm with rfl | hm
    · exact ⟨hg.onset, hg.vowel⟩
    · exact spelled_voiced hg after m hm

theorem spelled_coda (hg : g.syllable.Lettered) (next : Option Segment) :
    ∀ m ∈ g.coda next, m.Spelled := by
  have hmora : ∀ ticks, ∀ m ∈ [g.codaMora ticks], m.Spelled := by
    intro ticks m hm
    rw [List.mem_singleton.mp hm]
    exact ⟨hg.coda, by simp [codaMora, Mora.loneConsonant]⟩
  unfold coda
  split
  · simp
  · split
    · exact hmora _
    · split
      · exact hmora _
      · split
        · simp
        · exact hmora _

theorem spelled_describe {gs : List Segment} (hgs : ∀ g ∈ gs, g.syllable.Lettered)
    (previous : Option Segment) : ∀ m ∈ describe previous gs, m.Spelled := by
  induction gs generalizing previous with
  | nil => simp [describe]
  | cons g gs ih =>
      have hg : g.syllable.Lettered := hgs g (by simp)
      have hlater : ∀ q ∈ gs, q.syllable.Lettered := fun q hq => hgs q (List.mem_cons_of_mem _ hq)
      intro m hm
      rw [describe, List.mem_append, List.mem_append] at hm
      rcases hm with (hm | hm) | hm
      · exact spelled_body hg previous m hm
      · exact spelled_coda hg gs.head? m hm
      · exact ih hlater (some g) m hm

end Segment

theorem lettered_segmentsOf {σ : Settings} {source : Text} {ms : List Mora}
    (h : compile σ source = .ok ms) : ∀ g ∈ segmentsOf σ source, g.syllable.Lettered := by
  obtain ⟨s, hs, -⟩ := compile_read h
  intro g hg
  have hmem : g.syllable ∈ (segmentsOf σ source).map (·.syllable) := List.mem_map_of_mem hg
  rw [segmentsOf, Score.segments_eq hs, Segment.syllables_ofCues, ← Score.heard_eq_cues hs] at hmem
  obtain ⟨⟨τ, line, what⟩, hc, hwhat⟩ := List.mem_filterMap.mp hmem
  refine Score.lettered_of_mem_heard (by simp [Score.waiting]) hc ?_
  cases what with
  | syllable x => exact congrArg Event.syllable (Option.some.inj hwhat)
  | note n => cases hwhat

/-- **The text of a compiled score** is made of the letters of the lyrics. -/
theorem spelled_of_compile {σ : Settings} {source : Text} {ms : List Mora}
    (h : compile σ source = .ok ms) : ∀ m ∈ ms, m.Spelled := by
  have hgs := lettered_segmentsOf h
  obtain ⟨-, rfl⟩ := compile_ok h
  intro x hx
  obtain ⟨m, hm, next, rfl⟩ := mem_refrain hx
  exact (Segment.spelled_describe hgs none m hm).followedBy next

end SungScore
