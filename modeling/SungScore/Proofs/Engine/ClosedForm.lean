import SungScore.Proofs.Engine.Conservation
import SungScore.Proofs.Segment.Cues
import SungScore.Proofs.Segment.Phrase

set_option autoImplicit false

/-!
# The engine in closed form

The engine sings a segment when the next syllable comes, and then remembers of it no more than
what the next segment may take in, and its last key.
So while the engine is in the middle of a segment it looks like `Engine.Within`, whatever came
before; this is kept by every note, and by every syllable for the segment that it begins. It
follows that a score is sung as its segments describe (`finish_eq_describe`).
-/

namespace SungScore

namespace Engine

open Segment

/-- The engine is in the middle of a segment: it has the given syllable and notes, and remembers
of the segment before what may be taken in and the last key. -/
structure Within (previous : Option Segment) (s : Syllable) (fed : List (Settings × Note))
    (e : Engine) : Prop where
  current : e.current = some s
  notes : e.notes.toList = fed.map Prod.snd
  restsLast : Note.RestsLast e.notes.toList
  carried : e.carried = carryOf previous
  lastKey : ∀ q, previous = some q → e.lastKey? = some q.lastKey
  rest_lt : ∀ q, previous = some q → q.restTicks < 4294967296

/-- The engine has just sung a segment. -/
structure After (g : Segment) (e : Engine) : Prop where
  notes : e.notes = #[]
  carried : e.carried = carryOf (some g)
  lastKey : e.lastKey? = some g.lastKey
  rest_lt : g.restTicks < 4294967296

variable {σ : Settings} {line : Nat} {previous : Option Segment} {s : Syllable}
  {fed : List (Settings × Note)} {e e' : Engine} {u : Unit}

/-- The last key after a phrase is the one of its segment. -/
theorem lastKey?_append (ms body tail : List Mora) {g : Segment}
    (hms : e.morae.toList = ms ++ body ++ tail) (hbody : body.map (·.key) = g.sounds.map g.keyOf)
    (hne : g.sounds ≠ []) (htail : ∀ m ∈ tail, m.key = g.lastKey) :
    e.lastKey? = some g.lastKey := by
  have hlast : (body.map (·.key)).getLast? = some g.lastKey := by
    rw [hbody, List.getLast?_map, lastKey]
    cases hg : g.sounds.getLast? with
    | none => exact absurd (List.getLast?_eq_none_iff.mp hg) hne
    | some n => rfl
  rw [lastKey?, ← Array.getLast?_toList, hms]
  rcases List.eq_nil_or_concat tail with rfl | ⟨init, m, rfl⟩
  · rw [List.append_nil, ← List.getLast?_map, List.map_append, List.getLast?_append, hlast]
    rfl
  · rw [List.concat_eq_append, ← List.append_assoc, List.getLast?_append]
    simp [htail m (by simp)]

/-- **One segment**: it is sung as described, and then the engine remembers what it may leave. -/
theorem Within.sing_segment (he : Within previous s fed e) (h : close σ line e = .ok u e') :
    let g : Segment := ⟨s, fed, σ⟩
    Sung previous g ∧ After g e' ∧
      e'.morae.toList
        = e.morae.toList ++ (lateCoda previous g ++ body previous g ++ soonCoda g) := by
  intro g
  rcases close_ok h with ⟨hc, -⟩ | ⟨s', p, key, opening, hc, hp, hkey, ho, rfl⟩
  · rw [he.current] at hc
    cases hc
  · obtain rfl : s = s' := by simpa using he.current.symm.trans hc
    have hl : Note.RestsLast g.notes := by
      show Note.RestsLast (fed.map Prod.snd)
      rw [← he.notes]
      exact he.restsLast
    replace hp : Phrase.ofNotes line g.syllable g.notes = .ok p := by
      show Phrase.ofNotes line s (fed.map Prod.snd) = _
      rw [← he.notes]
      exact hp
    rw [he.carried] at ho
    obtain ⟨hsung, hms⟩ := phrase_eq hp hl he.lastKey he.rest_lt hkey ho
    have hmorae : e.morae.toList ++ (opening ++ p.laterMorae σ key p.more)
        = e.morae.toList ++ (lateCoda previous g ++ body previous g ++ soonCoda g) :=
      congrArg _ hms
    refine ⟨hsung, ⟨rfl, carry_eq hp hl, ?_, ?_⟩, ?_⟩
    · -- a coda that is sung at once has the key of the last pitch
      refine lastKey?_append (e.morae.toList ++ lateCoda previous g) (body previous g) (soonCoda g)
        ?_ (map_key_body previous g) hsung.sounds_ne_nil (key_soonCoda g)
      rw [Array.toList_appendList, hmorae]
      simp
    · rw [restTicks_eq hp hl]
      exact p.silence.toNat_lt
    · rw [Array.toList_appendList]
      exact hmorae

/-- A note is added to the segment. -/
theorem Within.add_note {n : Note} (he : Within previous s fed e)
    (h : feedNote line n e = .ok u e') : Within previous s (fed ++ [(σ, n)]) e' := by
  obtain ⟨-, rfl, hlast⟩ := feedNote_ok h
  refine ⟨he.current, ?_, ?_, he.carried, he.lastKey, he.rest_lt⟩
  · simp [he.notes]
  · rw [Array.toList_push]
    refine he.restsLast.concat (fun last hl hr => ?_)
    rw [Array.getLast?_toList] at hl
    exact hlast last hl hr

/-- A syllable begins a new segment. -/
theorem After.begin_segment {g : Segment} (he : After g e) (s : Syllable) :
    Within (some g) s [] { e with current := some s } := by
  refine ⟨rfl, by simp [he.notes], by simp [he.notes, Note.RestsLast], he.carried, ?_, ?_⟩
  · rintro q ⟨⟩
    exact he.lastKey
  · rintro q ⟨⟩
    exact he.rest_lt

/-- At the end of the score a coda that is left is sung. -/
theorem After.end_score {g : Segment} {sung : List Mora} (he : After g e)
    (h : withFinalCoda line e = .ok sung) : sung = e.morae.toList ++ endCoda g := by
  have hcarried := he.carried
  rw [carryOf] at hcarried
  rw [withFinalCoda, hcarried] at h
  by_cases hr : 0 < g.restTicks
  · have hr0 : g.restTicks ≠ 0 := by omega
    rw [if_pos hr] at h
    cases h
    simp [endCoda, hr0]
  · have hr0 : g.restTicks = 0 := by omega
    rw [if_neg hr] at h
    by_cases hc : 0 < g.codaTicks
    · -- the limit of thirty-one ticks, counted in natural numbers
      have hmin : min (.ofNat g.codaTicks) finalCodaLimit = .ofNat (min g.codaTicks 31) := by
        apply Ticks.eq_ofNat
        rw [Ticks.toNat_min, Ticks.toNat_ofNat (codaTicks_lt g)]
        rfl
      rw [if_pos hc, he.lastKey] at h
      cases h
      simp [endCoda, hr0, hc, codaMora, hmin]
    · rw [if_neg hc] at h
      cases h
      simp [endCoda, hc]

/-- **Whole runs**: a segment under way and the events after it are sung as their segments
describe, with the late coda in front. -/
theorem Within.sing_all {cs : List (Cue Event)} {sung : List Mora} {e₁ : Engine}
    (he : Within previous s fed e) (h : feedAll cs e = .ok u e')
    (hclose : close σ line e' = .ok u e₁) (hend : withFinalCoda line e₁ = .ok sung) :
    let g : Segment := ⟨s, fed ++ leading cs, closing σ cs⟩
    AllSung previous (g :: ofCues σ cs) ∧
      sung = e.morae.toList ++ (lateCoda previous g ++ describe previous (g :: ofCues σ cs)) := by
  -- a note goes to the segment under way; a syllable sings it and begins the next one, for which
  -- the hypothesis is used with the segment just sung as the one before
  induction cs generalizing previous s fed e with
  | nil =>
      obtain rfl := feedAll_nil_ok h
      obtain ⟨hsung, hafter, hms⟩ := he.sing_segment hclose
      intro g
      have hg : g = ⟨s, fed, σ⟩ := by simp [g, leading, closing]
      rw [hg]
      refine ⟨⟨hsung, trivial⟩, ?_⟩
      rw [hafter.end_score hend, hms]
      simp [ofCues, describe, coda_none]
  | cons c cs ih =>
      obtain ⟨e₂, hfeed, hrest⟩ := feedAll_cons_ok.mp h
      obtain ⟨ρ, l, what⟩ := c
      cases what with
      | note n =>
          have hw : Within previous s (fed ++ [(ρ, n)]) e₂ := he.add_note hfeed
          obtain ⟨-, rfl, -⟩ := feedNote_ok hfeed
          have hsing := ih hw hrest
          simpa [leading, closing, ofCues] using hsing
      | syllable s' =>
          obtain ⟨e₃, hclose', rfl⟩ := feedSyllable_ok.mp hfeed
          obtain ⟨hsung, hafter, hms⟩ := he.sing_segment hclose'
          obtain ⟨hall, hsing⟩ := ih (hafter.begin_segment s') hrest
          intro g
          have hg : g = ⟨s, fed, ρ⟩ := by simp [g, leading, closing]
          rw [hg]
          refine ⟨⟨hsung, hall⟩, ?_⟩
          rw [hsing]
          show e₃.morae.toList ++ _ = _
          rw [hms]
          simp [ofCues, describe, coda_some]

/-- **Whole scores**: events fed to a new engine are sung as their segments describe. -/
theorem finish_eq_describe {cs : List (Cue Event)} {ms : List Mora}
    (h : feedAll cs {} = .ok u e) (hf : e.finish σ line = .ok ms) :
    AllSung none (ofCues σ cs) ∧ ms = refrain (describe none (ofCues σ cs)) := by
  obtain ⟨e₁, sung, hclose, hend, rfl⟩ := finish_ok hf
  cases cs with
  | nil =>
      obtain rfl := feedAll_nil_ok h
      cases hclose
      cases hend
      exact ⟨trivial, rfl⟩
  | cons c cs =>
      obtain ⟨e₂, hfeed, hrest⟩ := feedAll_cons_ok.mp h
      obtain ⟨ρ, l, what⟩ := c
      cases what with
      | note n =>
          -- a new engine has no syllable to take a note
          cases hfeed
      | syllable s =>
          cases hfeed
          have hw : Within none s [] { ({} : Engine) with current := some s } :=
            ⟨rfl, rfl, List.Pairwise.nil, rfl, by simp, by simp⟩
          obtain ⟨hall, hsing⟩ := hw.sing_all hrest hclose hend
          refine ⟨by simpa [ofCues] using hall, ?_⟩
          rw [hsing]
          simp [ofCues, lateCoda]

/-- **The engine in closed form**: syllables with their notes, fed to a new engine under fixed
settings and finished, are sung as their segments describe, and then refrained. -/
theorem finish_of_segments (σ : Settings) (line line' : Nat) (gs : List (Syllable × List Note))
    (e : Engine) (ms : List Mora)
    (h : feedAll (cuesAt σ line (gs.flatMap events)) {} = .ok () e)
    (hf : e.finish σ line' = .ok ms) :
    AllSung none (gs.map (under σ)) ∧ ms = refrain (describe none (gs.map (under σ))) := by
  rw [← ofCues_events σ line gs]
  exact finish_eq_describe h hf

/-- A coda that is taken in, one that stands alone before a rest, and one that is cut at the
end. -/
theorem finish_of_segments_kan_nak_tan :
    let gs : List (Syllable × List Note) :=
      [(⟨['k'], [], ['a'], ['n'], 1, 1⟩, [⟨.pitched ⟨.c, .natural⟩ 4, 220, 1⟩]),
        (⟨['n'], [], ['a'], ['k'], 1, 3⟩, [⟨.pitched ⟨.d, .natural⟩ 4, 80, 3⟩, ⟨.rest, 20, 4⟩]),
        (⟨['t'], [], ['a'], ['n'], 1, 5⟩, [⟨.pitched ⟨.d, .natural⟩ 4, 80, 5⟩])]
    ∃ e ms, feedAll (cuesAt {} 1 (gs.flatMap events)) {} = .ok () e ∧ e.finish {} 1 = .ok ms ∧
      AllSung none (gs.map (under {})) ∧ ms = refrain (describe none (gs.map (under {}))) := by
  intro gs
  have hrun : ∃ e ms, feedAll (cuesAt {} 1 (gs.flatMap events)) {} = .ok () e ∧
      e.finish {} 1 = .ok ms := ⟨_, _, rfl, rfl⟩
  obtain ⟨e, ms, h, hf⟩ := hrun
  exact ⟨e, ms, h, hf, finish_of_segments {} 1 1 gs e ms h hf⟩

end Engine

end SungScore
