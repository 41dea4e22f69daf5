import SungScore.Proofs.Engine.Cue
import SungScore.Proofs.Plain
import SungScore.Proofs.Refrain

set_option autoImplicit false

/-!
# No tick is lost

Every tick of a note that is fed to an engine is in one of three places: in a mora, in what is
carried to the next phrase, or in a note that waits in the current syllable. `Engine.held` counts
them all. Finishing a syllable only moves ticks between the three (`held_of_close`), so after any
run the engine holds what it was fed.

At the end of the score the last carry is sung in part or not at all, and the refrain takes a
tick for every mora that it marks. `ticks_conserved` is the account of a whole run.
-/

namespace SungScore

namespace Engine

/-- The ticks that an engine holds. -/
def held (e : Engine) : Nat :=
  Mora.total e.morae.toList + Carry.total e.carried + Note.total e.notes.toList

/-- What is carried out of the last phrase and not sung: silence, and the part of a coda beyond
its limit. -/
def unsung : Option Carry → Nat
  | none => 0
  | some (.silence t) => t.toNat
  | some (.coda _ t) => t.toNat - finalCodaLimit.toNat

/-- All morae so far are plain. -/
def PlainSoFar (e : Engine) : Prop := ∀ m ∈ e.morae.toList, m.Plain

/-- Without a current syllable there are no notes. -/
def NotesBelong (e : Engine) : Prop := e.current = none → e.notes = #[]

/-! ## One step -/

variable {σ : Settings} {line : Nat} {e e' : Engine} {u : Unit}

theorem held_of_close (h : close σ line e = .ok u e') : e'.held = e.held := by
  rcases close_ok h with ⟨-, rfl⟩ | ⟨s, p, key, opening, -, hp, -, ho, rfl⟩
  · rfl
  · -- the opening takes in what was carried, and the phrase leaves the new carry
    have hopen := Phrase.total_openWith p ho
    have hsung := Phrase.total_sung σ p key
    have hnotes := Phrase.total_ofNotes hp
    simp only [held, Array.toList_appendList, Mora.total_append]
    rw [Note.total_nil]
    omega

theorem plainSoFar_of_close (h : close σ line e = .ok u e') (he : e.PlainSoFar) :
    e'.PlainSoFar := by
  rcases close_ok h with ⟨-, rfl⟩ | ⟨s, p, key, opening, -, -, -, ho, rfl⟩
  · exact he
  · intro m hm
    simp only [Array.toList_appendList, List.mem_append] at hm
    rcases hm with hm | hm | hm
    · exact he m hm
    · exact Phrase.plain_of_openWith p (Phrase.plain_firstMora σ p key) ho m hm
    · exact Phrase.plain_laterMorae σ p key p.more m hm

/-- Finishing a syllable takes all of its notes. -/
theorem notes_of_close (h : close σ line e = .ok u e') (he : e.NotesBelong) : e'.notes = #[] := by
  rcases close_ok h with ⟨hc, rfl⟩ | ⟨s, p, key, opening, -, -, -, -, rfl⟩
  · exact he hc
  · rfl

theorem held_of_feed {c : Cue Event} (h : feed c e = .ok u e') :
    e'.held = e.held + Note.total c.what.note?.toList := by
  obtain ⟨σ, line, what⟩ := c
  cases what with
  | syllable s =>
      obtain ⟨e₁, hc, rfl⟩ := feedSyllable_ok.mp h
      have hheld : e₁.held = e.held := held_of_close hc
      exact hheld
  | note n =>
      obtain ⟨-, rfl, -⟩ := feedNote_ok h
      simp [held, Event.note?]
      omega

theorem plainSoFar_of_feed {c : Cue Event} (h : feed c e = .ok u e') (he : e.PlainSoFar) :
    e'.PlainSoFar := by
  obtain ⟨σ, line, what⟩ := c
  cases what with
  | syllable s =>
      obtain ⟨e₁, hc, rfl⟩ := feedSyllable_ok.mp h
      have hplain : e₁.PlainSoFar := plainSoFar_of_close hc he
      exact hplain
  | note n =>
      obtain ⟨-, rfl, -⟩ := feedNote_ok h
      exact he

theorem notesBelong_of_feed {c : Cue Event} (h : feed c e = .ok u e') : e'.NotesBelong := by
  obtain ⟨σ, line, what⟩ := c
  intro hnone
  cases what with
  | syllable s =>
      obtain ⟨e₁, -, rfl⟩ := feedSyllable_ok.mp h
      cases hnone
  | note n =>
      obtain ⟨⟨s, hs⟩, rfl, -⟩ := feedNote_ok h
      cases hs.symm.trans hnone

/-! ## Whole runs -/

theorem held_of_feedAll {cs : List (Cue Event)} (h : feedAll cs e = .ok u e') :
    e'.held = e.held + Note.total (cs.filterMap (fun c => c.what.note?)) := by
  induction cs generalizing e with
  | nil => rw [feedAll_nil_ok h]; rfl
  | cons c cs ih =>
      obtain ⟨e₁, h₁, h₂⟩ := feedAll_cons_ok.mp h
      rw [ih h₂, held_of_feed h₁, List.filterMap_cons]
      cases c.what.note? <;> simp [Nat.add_assoc]

theorem plainSoFar_of_feedAll {cs : List (Cue Event)} (h : feedAll cs e = .ok u e')
    (he : e.PlainSoFar) : e'.PlainSoFar := by
  induction cs generalizing e with
  | nil => rw [feedAll_nil_ok h]; exact he
  | cons c cs ih =>
      obtain ⟨e₁, h₁, h₂⟩ := feedAll_cons_ok.mp h
      exact ih h₂ (plainSoFar_of_feed h₁ he)

theorem notesBelong_of_feedAll {cs : List (Cue Event)} (h : feedAll cs e = .ok u e')
    (he : e.NotesBelong) : e'.NotesBelong := by
  induction cs generalizing e with
  | nil => rw [feedAll_nil_ok h]; exact he
  | cons c cs ih =>
      obtain ⟨e₁, h₁, h₂⟩ := feedAll_cons_ok.mp h
      exact ih h₂ (notesBelong_of_feed h₁)

/-- The notes of the cues of calls are the notes of the calls. -/
theorem notes_callCues (cs : List (Cue Call)) :
    (cs.flatMap callCues).filterMap (fun c => c.what.note?)
      = cs.flatMap (fun c => c.what.notes) := by
  induction cs with
  | nil => rfl
  | cons c cs ih =>
      rw [List.flatMap_cons, List.filterMap_append, ih, List.flatMap_cons, callCues, cuesAt,
        List.filterMap_map]
      exact congrArg (· ++ _) (Call.notes_events c.what)

/-! ## The end -/

theorem finish_ok {ms : List Mora} (h : e.finish σ line = .ok ms) :
    ∃ e₁ sung, close σ line e = .ok () e₁ ∧ withFinalCoda line e₁ = .ok sung ∧
      ms = refrain sung := by
  unfold finish at h
  split at h
  · cases h
  · rename_i e₁ hc
    cases hw : withFinalCoda line e₁ with
    | error f => rw [hw] at h; cases h
    | ok sung => rw [hw] at h; cases h; exact ⟨e₁, sung, hc, hw, rfl⟩

/-- The morae at the end are the ones so far and at most one for a coda. -/
theorem withFinalCoda_ok {sung : List Mora} (h : withFinalCoda line e = .ok sung) :
    (sung = e.morae.toList ∧ ∀ text t, e.carried ≠ some (.coda text t)) ∨
      ∃ text t key, e.carried = some (.coda text t) ∧ e.lastKey? = some key ∧
        sung = e.morae.toList ++ [Mora.loneConsonant text key (min t finalCodaLimit)] := by
  unfold withFinalCoda at h
  split at h
  · rename_i text t hcar
    split at h
    · rename_i key hkey
      cases h
      exact Or.inr ⟨text, t, key, hcar, hkey, rfl⟩
    · cases h
  · rename_i t hcar
    cases h
    exact Or.inl ⟨rfl, fun text t hc => by rw [hcar] at hc; cases hc⟩
  · rename_i hcar
    cases h
    exact Or.inl ⟨rfl, fun text t hc => by rw [hcar] at hc; cases hc⟩

theorem total_withFinalCoda {sung : List Mora} (h : withFinalCoda line e = .ok sung) :
    Mora.total sung + unsung e.carried
      = Mora.total e.morae.toList + Carry.total e.carried := by
  rcases withFinalCoda_ok h with ⟨rfl, hno⟩ | ⟨text, t, key, hcar, -, rfl⟩
  · -- only silence can be left, and all of it stays unsung
    cases hc : e.carried with
    | none => rfl
    | some c =>
        cases c with
        | silence t => rfl
        | coda text t => exact absurd hc (hno text t)
  · have hmin := Ticks.toNat_min t finalCodaLimit
    rw [hcar, Mora.total_append, Mora.total_cons, Mora.total_nil]
    simp only [Mora.loneConsonant, unsung, Carry.total, Carry.ticks]
    omega

theorem plain_withFinalCoda {sung : List Mora} (h : withFinalCoda line e = .ok sung)
    (he : e.PlainSoFar) : ∀ m ∈ sung, m.Plain := by
  rcases withFinalCoda_ok h with ⟨rfl, -⟩ | ⟨text, t, key, -, -, rfl⟩
  · exact he
  · intro m hm
    rcases List.mem_append.mp hm with hm | hm
    · exact he m hm
    · rw [List.mem_singleton.mp hm]
      exact Mora.plain_loneConsonant _ _ _

/-- **No tick is lost.** After calls that all succeed, the ticks of the morae, of what is carried
and of the notes of the current syllable are together the ticks of all notes fed. If the score is
then finished, the ticks of its morae, one for each mora with bends and what is left unsung when
the last syllable is finished are together the same. -/
theorem ticks_conserved (cs : List (Cue Call)) (e : Engine) (h : performAll cs {} = .ok () e) :
    Mora.total e.morae.toList + Carry.total e.carried + Note.total e.notes.toList
        = Note.total (cs.flatMap (fun c => c.what.notes))
      ∧ ∀ σ line ms, e.finish σ line = .ok ms →
          ∃ e₁, close σ line e = .ok () e₁ ∧
            Mora.total ms + Mora.bent ms + unsung e₁.carried
              = Note.total (cs.flatMap (fun c => c.what.notes)) := by
  have hfed := performAll_ok h
  have hheld : e.held = Note.total (cs.flatMap (fun c => c.what.notes)) := by
    rw [held_of_feedAll hfed, notes_callCues]
    simp [held, Carry.total]
  have hplain : e.PlainSoFar := plainSoFar_of_feedAll hfed (by simp [PlainSoFar])
  refine ⟨hheld, fun σ line ms hf => ?_⟩
  obtain ⟨e₁, sung, hc, hw, rfl⟩ := finish_ok hf
  have hsung := plain_withFinalCoda hw (plainSoFar_of_close hc hplain)
  have hnotes : e₁.notes = #[] :=
    notes_of_close hc (notesBelong_of_feedAll hfed (fun _ => rfl))
  refine ⟨e₁, hc, ?_⟩
  calc Mora.total (refrain sung) + Mora.bent (refrain sung) + unsung e₁.carried
      = Mora.total sung + unsung e₁.carried := by
        rw [total_refrain (fun m hm => (hsung m hm).bends_eq)]
    _ = Mora.total e₁.morae.toList + Carry.total e₁.carried := total_withFinalCoda hw
    _ = e₁.held := by
        -- no note waits once the last syllable is finished
        rw [held, hnotes]
        rfl
    _ = e.held := held_of_close hc
    _ = Note.total (cs.flatMap (fun c => c.what.notes)) := hheld

/-- An account with a tie over a coda, a note without ticks and a silence that is not sung. -/
theorem ticks_conserved_kan_ta :
    let cs : List (Cue Call) :=
      [⟨{}, 2, .merge [⟨['k'], [], ['a'], ['n'], 1, 1⟩, ⟨['t'], [], ['a'], [], 1, 5⟩]
          [⟨.pitched ⟨.c, .natural⟩ 4, 220, 1⟩, ⟨.tie, 220, 2⟩, ⟨.pitched ⟨.d, .natural⟩ 4, 0, 5⟩]⟩,
        ⟨{}, 3, .event (.note ⟨.rest, 7, 6⟩)⟩]
    ∃ e ms, performAll cs {} = .ok () e ∧ e.finish {} 3 = .ok ms ∧
      Mora.total e.morae.toList + Carry.total e.carried + Note.total e.notes.toList = 447 ∧
      ∃ e₁, close {} 3 e = .ok () e₁ ∧
        Mora.total ms + Mora.bent ms + unsung e₁.carried = 447 := by
  intro cs
  obtain ⟨hheld, hfinish⟩ := ticks_conserved cs _ rfl
  exact ⟨_, _, rfl, rfl, hheld, hfinish {} 3 _ rfl⟩

end Engine

end SungScore
