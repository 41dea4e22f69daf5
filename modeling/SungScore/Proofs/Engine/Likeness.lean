import SungScore.Proofs.Engine.Cue
import SungScore.Proofs.SideBySide

set_option autoImplicit false

/-!
# Engines side by side

An engine looks at the letters of a syllable, at the kind and the length of a note, and at the keys
and the bound on codas that the settings give. Lines and columns it only reports. So two engines that
are fed syllables and notes which differ in nothing but their places go on side by side, and their
morae are the same.

A `Likeness` says what is taken to be alike. Its clauses are the least that the engine needs: what
differs in two syllables or two notes that are alike is their place, alike they stay when a run is
lengthened, and the faults that are reported at them are alike, too. All keys may be mapped by an
injective function. That the engine keeps to every likeness is `feedAll_alike` and `finish_alike`.
-/

namespace SungScore

/-- What is taken to be alike in two engines. -/
structure Likeness where
  /-- Where lines go. -/
  lines : Nat → Nat
  /-- Where keys go. -/
  keys : Int → Int
  settings : Settings → Settings → Prop
  syllable : Syllable → Syllable → Prop
  note : Note → Note → Prop
  fault : Fault → Fault → Prop
  keys_injective : Function.Injective keys
  settings_bound : ∀ {σ σ'}, settings σ σ' → σ'.maximalSuffix = σ.maximalSuffix
  settings_keys : ∀ {σ σ' n n'}, settings σ σ' → note n n' → n'.key? σ' = (n.key? σ).map keys
  syllable_place : ∀ {s s'}, syllable s s' → ∃ line column, s' = { s with line, column }
  note_place : ∀ {n n'}, note n n' → ∃ column, n' = { n with column }
  note_length : ∀ {n n'}, note n n' → ∀ length, note { n with length } { n' with length }
  syllable_fault : ∀ {s s'}, syllable s s' → ∀ cause, fault (s.fault cause) (s'.fault cause)
  note_fault : ∀ {n n'}, note n n' → ∀ line cause,
    fault (n.fault line cause) (n'.fault (lines line) cause)
  tie_fault : ∀ {n n'}, note n n' → ∀ line,
    fault (.misplaced line n.column ['-'] .tieWithoutNote)
      (.misplaced (lines line) n'.column ['-'] .tieWithoutNote)
  rest_fault : ∀ {m m' n n'}, note m m' → note n n' → ∀ line,
    fault (.misplaced line m.column (m.display ++ n.display) .soundAfterRest)
      (.misplaced (lines line) m'.column (m'.display ++ n'.display) .soundAfterRest)
  coda_fault : ∀ line text, fault (.misplaced line 1 text .noPrecedingNote)
    (.misplaced (lines line) 1 text .noPrecedingNote)

namespace Likeness

variable {L : Likeness} {σ σ' : Settings} (line : Nat)

/-! ## Notes -/

section

variable {n n' run run' : Note} {ns ns' rs rs' : List Note}

theorem isRest_eq (h : L.note n n') : n'.isRest = n.isRest := by
  obtain ⟨column, rfl⟩ := L.note_place h
  rfl

theorem isTie_eq (h : L.note n n') : n'.isTie = n.isTie := by
  obtain ⟨column, rfl⟩ := L.note_place h
  rfl

theorem length_eq (h : L.note n n') : n'.length = n.length := by
  obtain ⟨column, rfl⟩ := L.note_place h
  rfl

theorem continues_eq (h : L.note n n') (hrun : L.note run run') :
    n'.continues run' = n.continues run := by
  rw [Note.continues, Note.continues, isRest_eq h, isRest_eq hrun, isTie_eq h]

theorem extend_alike (hrun : L.note run run') (h : L.note n n') :
    AlikeExcept L.fault L.note (run.extend line n) (run'.extend (L.lines line) n') := by
  rw [Note.extend, Note.extend, length_eq h, length_eq hrun]
  cases Ticks.add? run.length n.length with
  | none => exact .error (L.note_fault h line _)
  | some length => exact .ok (L.note_length hrun length)

theorem runsFrom_alike (hrun : L.note run run') (h : List.Forall₂ L.note ns ns') :
    AlikeExcept L.fault (List.Forall₂ L.note) (Note.runsFrom line run ns)
      (Note.runsFrom (L.lines line) run' ns') := by
  induction h generalizing run run' with
  | nil => exact .ok (.cons hrun .nil)
  | cons hn _ ih =>
      rename_i n n' ns ns' _
      rw [Note.runsFrom, Note.runsFrom, continues_eq hn hrun, isTie_eq hn]
      by_cases hc : n.continues run = true
      · rw [if_pos hc, if_pos hc]
        obtain ⟨longer, longer', hx, hy, hlonger⟩ | ⟨f, f', hx, hy, hf⟩ :=
          (extend_alike line hrun hn).cases
        · rw [hx, hy]
          exact ih hlonger
        · rw [hx, hy]
          exact .error hf
      · rw [if_neg hc, if_neg hc]
        by_cases ht : n.isTie = true
        · rw [if_pos ht, if_pos ht]
          exact .error (L.tie_fault hn line)
        · rw [if_neg ht, if_neg ht]
          obtain ⟨others, others', hx, hy, hothers⟩ | ⟨f, f', hx, hy, hf⟩ := (ih hn).cases
          · rw [hx, hy]
            exact .ok (.cons hrun hothers)
          · rw [hx, hy]
            exact .error hf

theorem runs_alike (h : List.Forall₂ L.note ns ns') :
    AlikeExcept L.fault (List.Forall₂ L.note) (Note.runs line ns)
      (Note.runs (L.lines line) ns') := by
  cases h with
  | nil => exact .ok .nil
  | cons hn hns =>
      rw [Note.runs, Note.runs, isTie_eq hn]
      split
      · exact .error (L.tie_fault hn line)
      · exact runsFrom_alike line hn hns

theorem splitRest_alike (h : List.Forall₂ L.note rs rs') :
    List.Forall₂ L.note (Phrase.splitRest rs).1 (Phrase.splitRest rs').1 ∧
      (Phrase.splitRest rs').2 = (Phrase.splitRest rs).2 := by
  unfold Phrase.splitRest
  obtain ⟨hx, hy⟩ | ⟨n, n', hx, hy, hn⟩ := getLast?_of_forall₂ h
  · rw [hx, hy]
    exact ⟨.nil, rfl⟩
  · rw [hx, hy]
    dsimp only
    rw [isRest_eq hn]
    split
    · exact ⟨dropLast_of_forall₂ h, length_eq hn⟩
    · exact ⟨h, rfl⟩

end

/-! ## Phrases -/

/-- Two phrases that are alike. -/
structure Phrases (L : Likeness) (p p' : Phrase) : Prop where
  syllable : L.syllable p.syllable p'.syllable
  first : L.note p.first p'.first
  more : List.Forall₂ L.note p.more p'.more
  silence : p'.silence = p.silence

theorem ofNotes_alike {s s' : Syllable} {ns ns' : List Note} (hs : L.syllable s s')
    (h : List.Forall₂ L.note ns ns') :
    AlikeExcept L.fault L.Phrases (Phrase.ofNotes line s ns)
      (Phrase.ofNotes (L.lines line) s' ns') := by
  unfold Phrase.ofNotes
  obtain ⟨rs, rs', hx, hy, hrs⟩ | ⟨f, f', hx, hy, hf⟩ := (runs_alike line h).cases
  · rw [hx, hy]
    dsimp only
    obtain ⟨hsounds, hsilence⟩ := splitRest_alike hrs
    rw [isEmpty_of_forall₂ h]
    -- the sounds are those of a phrase if there are any
    revert hsounds hsilence
    obtain ⟨sounds, silence⟩ := Phrase.splitRest rs
    obtain ⟨sounds', silence'⟩ := Phrase.splitRest rs'
    rintro hsounds rfl
    cases hsounds with
    | nil => exact .error (L.syllable_fault hs _)
    | cons hfirst hmore => exact .ok ⟨hs, hfirst, hmore, rfl⟩
  · rw [hx, hy]
    exact .error hf

/-- The mora on the key where its key goes. -/
def mora (L : Likeness) (m : Mora) : Mora := { m with key := L.keys m.key }

section

variable {p p' : Phrase} (hσ : L.settings σ σ') (hp : L.Phrases p p')

include hp

theorem last_alike : L.note p.last p'.last := by
  rw [Phrase.last, Phrase.last]
  obtain ⟨hx, hy⟩ | ⟨n, n', hx, hy, hn⟩ := getLast?_of_forall₂ hp.more
  · rw [hx, hy]
    exact hp.first
  · rw [hx, hy]
    exact hn

theorem letters_eq : p'.syllable.onset = p.syllable.onset ∧ p'.syllable.breath = p.syllable.breath ∧
    p'.syllable.vowel = p.syllable.vowel ∧ p'.syllable.coda = p.syllable.coda := by
  obtain ⟨line, column, h⟩ := L.syllable_place hp.syllable
  rw [h]
  exact ⟨rfl, rfl, rfl, rfl⟩

include hσ

theorem codaTicks_eq : p'.codaTicks σ' = p.codaTicks σ := by
  rw [Phrase.codaTicks, Phrase.codaTicks, (letters_eq hp).2.2.2, length_eq (last_alike hp),
    L.settings_bound hσ]

theorem keptTicks_eq {n n' : Note} {ns ns' : List Note} (hn : L.note n n')
    (hns : List.Forall₂ L.note ns ns') : p'.keptTicks σ' n' ns' = p.keptTicks σ n ns := by
  rw [Phrase.keptTicks, Phrase.keptTicks, isEmpty_of_forall₂ hns, length_eq hn, codaTicks_eq hσ hp]

theorem carry_eq : p'.carry σ' = p.carry σ := by
  rw [Phrase.carry, Phrase.carry, codaTicks_eq hσ hp, hp.silence, (letters_eq hp).2.2.2]

theorem firstMora_eq (key : Int) : p'.firstMora σ' (L.keys key) = L.mora (p.firstMora σ key) := by
  obtain ⟨honset, hbreath, hvowel, -⟩ := letters_eq hp
  rw [Phrase.firstMora, Phrase.firstMora, keptTicks_eq hσ hp hp.first hp.more, honset, hbreath,
    hvowel]
  rfl

theorem closing_eq (key : Int) : p'.closing σ' (L.keys key) = (p.closing σ key).map L.mora := by
  rw [Phrase.closing, Phrase.closing, codaTicks_eq hσ hp, hp.silence, (letters_eq hp).2.2.2]
  split
  · rfl
  · rfl

theorem laterMorae_eq (key : Int) {ns ns' : List Note} (hns : List.Forall₂ L.note ns ns') :
    p'.laterMorae σ' (L.keys key) ns' = (p.laterMorae σ key ns).map L.mora := by
  induction hns generalizing key with
  | nil => exact closing_eq hσ hp key
  | cons hn hns ih =>
      rw [Phrase.laterMorae, Phrase.laterMorae, List.map_cons, L.settings_keys hσ hn,
        Option.getD_map, ih, keptTicks_eq hσ hp hn hns, (letters_eq hp).2.2.1]
      rfl

omit hσ

theorem openWith_alike (before : Option Int) (m : Mora) (carried : Option Carry) :
    AlikeExcept L.fault (fun ms ms' => ms' = ms.map L.mora) (p.openWith line before m carried)
      (p'.openWith (L.lines line) (before.map L.keys) (L.mora m) carried) := by
  have htick : (L.mora m).tick = m.tick := rfl
  cases carried with
  | none => exact .ok rfl
  | some c =>
      cases c with
      | silence t =>
          simp only [Phrase.openWith, htick]
          cases Ticks.add? m.tick t with
          | none => exact .error (L.syllable_fault hp.syllable _)
          | some tick => exact .ok rfl
      | coda text t =>
          simp only [Phrase.openWith, htick, (letters_eq hp).1]
          by_cases honset : text = p.syllable.onset
          · rw [if_pos honset, if_pos honset]
            cases Ticks.add? m.tick t with
            | none => exact .error (L.syllable_fault hp.syllable _)
            | some tick => exact .ok rfl
          · rw [if_neg honset, if_neg honset]
            cases before with
            | none => exact .error (L.coda_fault line text)
            | some key => exact .ok rfl

end

/-! ## Engines -/

/-- Two engines that are alike. -/
structure Engines (L : Likeness) (e e' : Engine) : Prop where
  morae : e'.morae.toList = e.morae.toList.map L.mora
  current : Option.Rel L.syllable e.current e'.current
  notes : List.Forall₂ L.note e.notes.toList e'.notes.toList
  carried : e'.carried = e.carried

/-- Two events that are alike. -/
inductive Events (L : Likeness) : Event → Event → Prop
  | syllable {s s' : Syllable} (h : L.syllable s s') : Events L (.syllable s) (.syllable s')
  | note {n n' : Note} (h : L.note n n') : Events L (.note n) (.note n')

/-- Two cues that are alike. -/
structure Cues (L : Likeness) (c c' : Cue Event) : Prop where
  settings : L.settings c.settings c'.settings
  line : c'.line = L.lines c.line
  what : L.Events c.what c'.what

open Engine

section

variable {e e' : Engine}

theorem lastKey?_eq (he : L.Engines e e') : e'.lastKey? = e.lastKey?.map L.keys := by
  rw [lastKey?, lastKey?, ← Array.getLast?_toList, ← Array.getLast?_toList, he.morae,
    List.getLast?_map, Option.map_map, Option.map_map]
  rfl

theorem sing_alike {p p' : Phrase} (hσ : L.settings σ σ') (hp : L.Phrases p p') :
    SideBySide L.fault L.Engines (sing σ line p) (sing σ' (L.lines line) p') := by
  intro e e' he
  have hkey : (p'.first.key? σ').or e'.lastKey?
      = ((p.first.key? σ).or e.lastKey?).map L.keys := by
    rw [L.settings_keys hσ hp.first, lastKey?_eq he]
    cases p.first.key? σ <;> rfl
  unfold sing
  rw [hkey]
  cases (p.first.key? σ).or e.lastKey? with
  | none => exact .error (L.note_fault hp.first line _) he
  | some key =>
      simp only [Option.map_some, firstMora_eq hσ hp, lastKey?_eq he, he.carried]
      obtain ⟨opening, _, hx, hy, rfl⟩ | ⟨f, f', hx, hy, hf⟩ :=
        (openWith_alike line hp e.lastKey? (p.firstMora σ key) e.carried).cases
      · rw [hx, hy]
        refine .ok () ⟨?_, he.current, he.notes, carry_eq hσ hp⟩
        simp [he.morae, laterMorae_eq hσ hp key hp.more]
      · rw [hx, hy]
        exact .error hf ⟨he.morae, he.current, he.notes, rfl⟩

theorem close_alike (hσ : L.settings σ σ') :
    SideBySide L.fault L.Engines (close σ line) (close σ' (L.lines line)) := by
  intro e e' he
  have hcurrent := he.current
  have hdone : L.Engines { e with current := none, notes := #[] }
      { e' with current := none, notes := #[] } := ⟨he.morae, .none, .nil, he.carried⟩
  unfold close
  generalize e.current = current at hcurrent
  generalize e'.current = current' at hcurrent
  cases hcurrent with
  | none => exact .ok () he
  | some hs =>
      obtain ⟨p, p', hx, hy, hp⟩ | ⟨f, f', hx, hy, hf⟩ :=
        (ofNotes_alike line hs he.notes).cases
      · simp only [hx, hy]
        exact sing_alike line hσ hp _ _ hdone
      · simp only [hx, hy]
        exact .error hf hdone

theorem feedSyllable_alike {s s' : Syllable} (hσ : L.settings σ σ') (hs : L.syllable s s') :
    SideBySide L.fault L.Engines (feedSyllable σ line s) (feedSyllable σ' (L.lines line) s') := by
  refine (close_alike line hσ).bind (fun _ e e' he => ?_)
  exact .ok () ⟨he.morae, .some hs, he.notes, he.carried⟩

theorem feedNote_alike {n n' : Note} (hn : L.note n n') :
    SideBySide L.fault L.Engines (feedNote line n) (feedNote (L.lines line) n') := by
  intro e e' he
  have hcurrent := he.current
  have hnotes : List.Forall₂ L.note (e.notes.push n).toList (e'.notes.push n').toList := by
    rw [Array.toList_push, Array.toList_push]
    exact List.rel_append he.notes (.cons hn .nil)
  have hlast := getLast?_of_forall₂ he.notes
  rw [Array.getLast?_toList, Array.getLast?_toList] at hlast
  unfold feedNote
  generalize e.current = current at hcurrent
  generalize e'.current = current' at hcurrent
  cases hcurrent with
  | none => exact .error (L.note_fault hn line _) he
  | some hs =>
      obtain ⟨hx, hy⟩ | ⟨m, m', hx, hy, hm⟩ := hlast
      · rw [hx, hy]
        exact .ok () ⟨he.morae, .some hs, hnotes, he.carried⟩
      · rw [hx, hy]
        dsimp only
        rw [isRest_eq hm, isRest_eq hn]
        split
        · exact .error (L.rest_fault hm hn line) he
        · exact .ok () ⟨he.morae, .some hs, hnotes, he.carried⟩

theorem feed_alike {c c' : Cue Event} (h : L.Cues c c') :
    SideBySide L.fault L.Engines (feed c) (feed c') := by
  obtain ⟨σ, line, what⟩ := c
  obtain ⟨σ', line', what'⟩ := c'
  obtain ⟨hσ, rfl, hwhat⟩ := h
  cases hwhat with
  | syllable hs => exact feedSyllable_alike line hσ hs
  | note hn => exact feedNote_alike line hn

/-- **Runs side by side**: engines that are fed cues that are alike stay alike. -/
theorem feedAll_alike {cs cs' : List (Cue Event)} (h : List.Forall₂ L.Cues cs cs') :
    SideBySide L.fault L.Engines (feedAll cs) (feedAll cs') := by
  induction h with
  | nil => exact SideBySide.pure ()
  | cons hc _ ih => exact (feed_alike hc).bind (fun _ => ih)

/-! ## The end -/

theorem refrain_map (ms : List Mora) : refrain (ms.map L.mora) = (refrain ms).map L.mora := by
  induction ms with
  | nil => rfl
  | cons m ms ih =>
      cases ms with
      | nil => rfl
      | cons next later =>
          -- a key changes exactly where it changed before
          have hkey : (L.mora next).key = (L.mora m).key ↔ next.key = m.key :=
            L.keys_injective.eq_iff
          rw [List.map_cons, List.map_cons, refrain, ← List.map_cons, ih, refrain, List.map_cons]
          simp only [hkey]
          split <;> rfl

theorem withFinalCoda_alike {e e' : Engine} (he : L.Engines e e') :
    AlikeExcept L.fault (fun ms ms' => ms' = ms.map L.mora) (withFinalCoda line e)
      (withFinalCoda (L.lines line) e') := by
  unfold withFinalCoda
  rw [he.carried, lastKey?_eq he, he.morae]
  cases e.carried with
  | none => exact .ok rfl
  | some c =>
      cases c with
      | silence t => exact .ok rfl
      | coda text t =>
          cases e.lastKey? with
          | none => exact .error (L.coda_fault line text)
          | some key => exact .ok (by rw [List.map_append]; rfl)

/-- **Scores side by side** are finished with the same morae, on the keys where their keys go. -/
theorem finish_alike {e e' : Engine} (hσ : L.settings σ σ') (he : L.Engines e e') :
    AlikeExcept L.fault (fun ms ms' => ms' = ms.map L.mora) (e.finish σ line)
      (e'.finish σ' (L.lines line)) := by
  unfold finish
  obtain ⟨_, e₁, e₁', hx, hy, he₁⟩ | ⟨f, f', e₁, e₁', hx, hy, hf, -⟩ :=
    (close_alike line hσ e e' he).cases
  · rw [hx, hy]
    dsimp only
    obtain ⟨ms, _, hx, hy, rfl⟩ | ⟨f, f', hx, hy, hf⟩ := (withFinalCoda_alike line he₁).cases
    · rw [hx, hy]
      exact .ok (refrain_map ms)
    · rw [hx, hy]
      exact .error hf
  · rw [hx, hy]
    exact .error hf

end

end Likeness

end SungScore
