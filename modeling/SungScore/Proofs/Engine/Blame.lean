import SungScore.Proofs.Engine.Invariant
import SungScore.Proofs.Exact.Phrase

set_option autoImplicit false

/-!
# Notes at fault

A fault in the arrangement of notes quotes a note, but the engine need not find it when that note is
fed. A note without a syllable is refused at once, and a rest when a sound is fed after it. A tie of
nothing and a run that is overlong are found when their syllable is finished: when the next one is fed,
or at the end. So the cues are cut in two where the fault is found: the ones that were fed, and the
rest. `Engine.AtFault` says which note is at fault, and the fault has its column, but the line of the
first cue of the rest (`Engine.atFault_of_feedAll`) or the line at the end
(`Engine.atFault_of_close`).
-/

namespace SungScore

/-- A fault that quotes a note. Notes are quoted in angle brackets, and syllables are not. -/
def Fault.aboutNote : Fault → Bool
  | misplaced _ _ text cause =>
      match cause with
      | .noSyllable | .soundAfterRest | .tieWithoutNote => true
      | .ticksOverflow => text.head? == some '<'
      | _ => false
  | _ => false

/-- The cue of a note. -/
def Cue.note (c : Cue Note) : Cue Event := ⟨c.settings, c.line, .note c.what⟩

namespace Engine

/-! ## What is held -/

variable {σ : Settings} {line : Nat} {e e' : Engine} {f : Fault} {u : Unit}
  {fed rest : List (Cue Event)}

/-- The current syllable is the last one that was fed, and its notes are the ones fed after it. -/
theorem exists_held (h : feedAll fed {} = .ok u e) :
    (fed = [] ∧ e.current = none) ∨
      ∃ before τ l s held, fed = before ++ ⟨τ, l, .syllable s⟩ :: List.map Cue.note held ∧
        e.current = some s ∧ e.notes.toList = held.map (·.what) := by
  induction fed using List.reverseRecOn generalizing e with
  | nil =>
      cases h
      exact Or.inl ⟨rfl, rfl⟩
  | append_singleton fed c ih =>
      obtain ⟨e₁, hfed, hlast⟩ := feedAll_append_ok.mp h
      obtain ⟨e₂, hc, hend⟩ := feedAll_cons_ok.mp hlast
      obtain rfl := feedAll_nil_ok hend
      obtain ⟨τ, l, what⟩ := c
      right
      cases what with
      | syllable s =>
          obtain ⟨e₂, hclose, rfl⟩ := feedSyllable_ok.mp hc
          refine ⟨fed, τ, l, s, [], rfl, rfl, ?_⟩
          -- a syllable that was finished has left no notes
          rcases close_ok hclose with ⟨hnone, rfl⟩ | ⟨-, -, -, -, -, -, -, -, rfl⟩
          · have hnotes := ((keeps_feedAll fed).ok coherent_new hfed).notesBelong hnone
            simp [hnotes]
          · rfl
      | note n =>
          obtain ⟨⟨s, hs⟩, rfl, -⟩ := feedNote_ok hc
          rcases ih hfed with ⟨-, hnone⟩ | ⟨before, τ', l', s', held, rfl, hcurrent, hnotes⟩
          · rw [hnone] at hs
            cases hs
          · refine ⟨before, τ', l', s', held ++ [⟨τ, l, n⟩], ?_, hcurrent, ?_⟩
            · simp [Cue.note]
            · simp [hnotes]

/-! ## Which note is at fault -/

/-- What comes next, if anything, is a syllable. -/
def EndsSyllable (rest : List (Cue Event)) : Prop := ∀ c ∈ rest.head?, ∃ s, c.what = .syllable s

/-- With some cues fed and the rest still to be fed, the note is the one for which the engine fails
with the given cause. -/
inductive AtFault (fed rest : List (Cue Event)) : Misplacement → Cue Note → Prop
  /-- A note before the first syllable. -/
  | noSyllable {n : Cue Note} {later : List (Cue Event)} (hfed : fed = [])
      (hrest : rest = n.note :: later) : AtFault fed rest .noSyllable n
  /-- A rest with a sound after it. -/
  | soundAfterRest {before later : List (Cue Event)} {n m : Cue Note}
      (hfed : fed = before ++ [n.note]) (hrest : rest = m.note :: later)
      (hn : n.what.isRest = true) (hm : m.what.isRest = false) :
      AtFault fed rest .soundAfterRest n
  /-- A tie that is the first note of a syllable. -/
  | tieWithoutNote {before : List (Cue Event)} {τ : Settings} {l : Nat} {s : Syllable}
      {n : Cue Note} {later : List (Cue Note)}
      (hfed : fed = before ++ ⟨τ, l, .syllable s⟩ :: List.map Cue.note (n :: later))
      (hrest : EndsSyllable rest) (hn : n.what.isTie = true) : AtFault fed rest .tieWithoutNote n
  /-- The first note of a syllable with which a run is overlong. -/
  | ticksOverflow {before : List (Cue Event)} {τ : Settings} {l : Nat} {s : Syllable}
      {held later : List (Cue Note)} {n : Cue Note}
      (hfed : fed = before ++ ⟨τ, l, .syllable s⟩ :: List.map Cue.note (held ++ n :: later))
      (hrest : EndsSyllable rest)
      (hfits : ¬ Exact.Note.SomeRunOverlong (held.map (·.what.exact)))
      (hlong : Exact.Note.SomeRunOverlong ((held ++ [n]).map (·.what.exact))) :
      AtFault fed rest .ticksOverflow n

/-- The note at fault was fed, or is the next one. -/
theorem AtFault.mem {cause : Misplacement} {n : Cue Note} (h : AtFault fed rest cause n) :
    n.note ∈ fed ∨ rest.head? = some n.note := by
  cases h with
  | noSyllable _ hrest => exact Or.inr (by simp [hrest])
  | soundAfterRest hfed => exact Or.inl (by simp [hfed])
  | tieWithoutNote hfed => exact Or.inl (by simp [hfed])
  | ticksOverflow hfed => exact Or.inl (by simp [hfed])

/-! ## Where the fault is found -/

/-- No syllable looks like a note in a message. -/
def Unbracketed (cs : List (Cue Event)) : Prop :=
  ∀ c ∈ cs, ∀ s, c.what = .syllable s → s.display.head? ≠ some '<'

/-- A fault about a note that is found when a syllable is finished has the line given for that. -/
theorem atFault_of_close (hfed : feedAll fed {} = .ok u e) (hcs : Unbracketed fed)
    (hrest : EndsSyllable rest) (h : close σ line e = .error f e') (hnote : f.aboutNote = true) :
    ∃ n text cause, AtFault fed rest cause n ∧ f = .misplaced line n.what.column text cause := by
  have hcoherent := (keeps_feedAll fed).ok coherent_new hfed
  obtain ⟨s, hs, -, -, -, -, hphrase⟩ := close_error h
  rcases exists_held hfed with ⟨-, hnone⟩ | ⟨before, τ, l, s', held, rfl, hcurrent, hnotes⟩
  · rw [hnone] at hs
    cases hs
  obtain rfl : s' = s := Option.some.inj (hcurrent.symm.trans hs)
  have hplain : s'.display.head? ≠ some '<' := hcs ⟨τ, l, .syllable s'⟩ (by simp) s' rfl
  have hrests := hcoherent.restsLast
  rw [hnotes] at hphrase hrests
  rcases hphrase with hphrase | ⟨p, hp, ⟨-, rfl⟩ | ⟨key, hopen⟩⟩
  · rcases Phrase.ofNotes_error hphrase with hruns | rfl | rfl
    · rcases Note.runs_error_at hruns hrests with
        ⟨n, tail, heq, htie, rfl⟩ | ⟨front, n, tail, heq, rfl, hfits, hlong⟩
      · obtain ⟨c, later, rfl, rfl, -⟩ := List.map_eq_cons_iff.mp heq
        exact ⟨c, _, _, .tieWithoutNote rfl hrest htie, rfl⟩
      · obtain ⟨front', back, rfl, rfl, hback⟩ := List.map_eq_append_iff.mp heq
        obtain ⟨c, later, rfl, rfl, -⟩ := List.map_eq_cons_iff.mp hback
        refine ⟨c, _, _, .ticksOverflow rfl hrest ?_ ?_, rfl⟩
        · rwa [List.map_map] at hfits
        · simpa [Function.comp_def] using hlong
    · cases hnote
    · cases hnote
  · cases hnote
  · -- what does not fit its syllable is a fault of the syllable
    rcases p.openWith_error hopen with ⟨t, -, -, rfl⟩ | ⟨-, text, t, -, rfl⟩
    · obtain ⟨rfl, -⟩ := Phrase.ofNotes_ok hp
      exact absurd (by simpa [Fault.aboutNote, Syllable.fault] using hnote) hplain
    · cases hnote

/-- At the end of a score only the last syllable can have a note at fault. -/
theorem close_of_finish (h : e.finish σ line = .error f) (hnote : f.aboutNote = true) :
    ∃ e', close σ line e = .error f e' := by
  rcases finish_error h with hclose | ⟨_, _, _, _, _, _, rfl⟩
  · exact hclose
  · cases hnote

/-- A fault about a note that is found when a cue is fed has the line of that cue. -/
theorem atFault_of_feedAll {cs : List (Cue Event)} (h : feedAll cs {} = .error f e')
    (hcs : Unbracketed cs) (hnote : f.aboutNote = true) :
    ∃ fed c rest e n text cause, cs = fed ++ c :: rest ∧ feedAll fed {} = .ok () e ∧
      feed c e = .error f e' ∧ AtFault fed (c :: rest) cause n ∧
      f = .misplaced c.line n.what.column text cause := by
  obtain ⟨fed, c, rest, e, rfl, hfed, hc⟩ := feedAll_error h
  suffices hat : ∃ n text cause, AtFault fed (c :: rest) cause n ∧
      f = .misplaced c.line n.what.column text cause by
    obtain ⟨n, text, cause, hat, hf⟩ := hat
    exact ⟨fed, c, rest, e, n, text, cause, rfl, hfed, hc, hat, hf⟩
  obtain ⟨τ, l, what⟩ := c
  cases what with
  | syllable s =>
      have hfed' : Unbracketed fed := fun x hx => hcs x (List.mem_append_left _ hx)
      have hrest : EndsSyllable (⟨τ, l, .syllable s⟩ :: rest) := fun x hx => ⟨s, by
        obtain rfl := Option.some.inj hx
        rfl⟩
      exact atFault_of_close hfed hfed' hrest (feedSyllable_error.mp hc) hnote
  | note m =>
      obtain ⟨rfl, hrefused⟩ := feedNote_error hc
      rcases exists_held hfed with ⟨rfl, hnone⟩ | ⟨before, τ', l', s, held, rfl, hcurrent, hnotes⟩
      · have hback : e'.notes.back? = none := by
          simp [((keeps_feedAll []).ok coherent_new hfed).notesBelong hnone]
        rcases hrefused with ⟨-, rfl⟩ | ⟨last, hlast, -⟩
        · exact ⟨⟨τ, l, m⟩, _, _, .noSyllable rfl rfl, rfl⟩
        · rw [hback] at hlast
          cases hlast
      · rcases hrefused with ⟨hnone, -⟩ | ⟨last, hlast, hr, hm, rfl⟩
        · rw [hnone] at hcurrent
          cases hcurrent
        · -- the rest is the last note that is held
          rw [← Array.getLast?_toList, hnotes, List.getLast?_map] at hlast
          obtain ⟨c, hheld, rfl⟩ := Option.map_eq_some_iff.mp hlast
          obtain ⟨front, rfl⟩ := List.getLast?_eq_some_iff.mp hheld
          have hsplit : before ++ ⟨τ', l', .syllable s⟩ :: (front ++ [c]).map Cue.note
              = (before ++ ⟨τ', l', .syllable s⟩ :: front.map Cue.note) ++ [c.note] := by simp
          let sound : Cue Note := ⟨τ, l, m⟩
          have hat : AtFault _ (sound.note :: rest) .soundAfterRest c :=
            .soundAfterRest hsplit rfl hr hm
          exact ⟨c, _, _, hat, rfl⟩

end Engine

end SungScore
