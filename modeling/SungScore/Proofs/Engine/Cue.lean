import SungScore.Engine
import SungScore.Proofs.Steps

set_option autoImplicit false

/-!
# Cues and calls

The engine is driven by events: a syllable or a note is fed to it. A *cue* is an event with the
settings and the number of the line in effect when it is fed; a score drives its engine by a
list of cues. A caller may also hand over a lyric line and a melody line at once. Such a call
stands for the events of both lines in the order of their columns (`Event.interleave`).

* `close_ok`, `feedSyllable_ok` and `feedNote_ok` say all that a step does when it succeeds.
* `merge_eq` and `performAll_ok` reduce calls to cues, so that a property of all runs needs to be
  proved for single events only.
-/

namespace SungScore

/-! ## Events -/

/-- What is fed to an engine. -/
inductive Event
  | syllable (s : Syllable)
  | note (n : Note)
deriving DecidableEq

namespace Event

/-- The note of an event. -/
def note? : Event → Option Note
  | syllable _ => none
  | note n => some n

/-- The syllable of an event. -/
def syllable? : Event → Option Syllable
  | syllable s => some s
  | note _ => none

/-- The events of a lyric line and a melody line by their columns, a syllable before a note in
the same one. Syllables after the last note are left out. -/
def interleave : List Syllable → List Note → List Event
  | _, [] => []
  | lyrics, n :: ns =>
      (lyrics.takeWhile (fun s => decide (s.column ≤ n.column))).map syllable
        ++ note n :: interleave (lyrics.dropWhile (fun s => decide (s.column ≤ n.column))) ns

/-- The syllables after the last note. -/
def leftOver : List Syllable → List Note → List Syllable
  | lyrics, [] => lyrics
  | lyrics, n :: ns => leftOver (lyrics.dropWhile (fun s => decide (s.column ≤ n.column))) ns

@[simp] theorem filterMap_note?_map_syllable (ss : List Syllable) :
    (ss.map syllable).filterMap note? = [] := by
  induction ss with
  | nil => rfl
  | cons s ss ih => rw [List.map_cons, List.filterMap_cons]; exact ih

@[simp] theorem filterMap_syllable?_map_syllable (ss : List Syllable) :
    (ss.map syllable).filterMap syllable? = ss := by
  rw [List.filterMap_map]
  exact List.filterMap_some

/-- No note is left out. -/
theorem notes_interleave (lyrics : List Syllable) (ns : List Note) :
    (interleave lyrics ns).filterMap note? = ns := by
  induction ns generalizing lyrics with
  | nil => rfl
  | cons n ns ih =>
      rw [interleave, List.filterMap_append, filterMap_note?_map_syllable, List.filterMap_cons]
      simp [note?, ih]

/-- The syllables that are left out are the last ones. -/
theorem syllables_interleave (lyrics : List Syllable) (ns : List Note) :
    (interleave lyrics ns).filterMap syllable? ++ leftOver lyrics ns = lyrics := by
  induction ns generalizing lyrics with
  | nil => rfl
  | cons n ns ih =>
      rw [interleave, leftOver, List.filterMap_append, filterMap_syllable?_map_syllable,
        List.filterMap_cons_none (by rfl), List.append_assoc, ih, List.takeWhile_append_dropWhile]

end Event

/-! ## Cues and calls -/

/-- Something that the engine is given, with the settings and the line in effect. -/
structure Cue (α : Type) where
  settings : Settings
  line : Nat
  what : α
deriving DecidableEq

/-- A call of the engine: a single event, or a pair of lines. -/
inductive Call
  | event (x : Event)
  | merge (lyrics : List Syllable) (melody : List Note)
deriving DecidableEq

/-- The notes that a call feeds. -/
def Call.notes : Call → List Note
  | event x => x.note?.toList
  | merge _ melody => melody

/-- The events that a call stands for. -/
def Call.events : Call → List Event
  | event x => [x]
  | merge lyrics melody => Event.interleave lyrics melody

theorem Call.notes_events (c : Call) : c.events.filterMap Event.note? = c.notes := by
  cases c with
  | event x => cases x <;> rfl
  | merge lyrics melody => exact Event.notes_interleave lyrics melody

namespace Engine

/-- Feeds an event. -/
def feed (c : Cue Event) : EStateM Fault Engine Unit :=
  match c.what with
  | .syllable s => feedSyllable c.settings c.line s
  | .note n => feedNote c.line n

/-- Feeds events one after another. -/
def feedAll : List (Cue Event) → EStateM Fault Engine Unit
  | [] => pure ()
  | c :: cs => do
      feed c
      feedAll cs

/-- Performs a call. -/
def perform (c : Cue Call) : EStateM Fault Engine Unit :=
  match c.what with
  | .event x => feed ⟨c.settings, c.line, x⟩
  | .merge lyrics melody => merge c.settings c.line lyrics melody

/-- Performs calls one after another. -/
def performAll : List (Cue Call) → EStateM Fault Engine Unit
  | [] => pure ()
  | c :: cs => do
      perform c
      performAll cs

/-! ## What a step does -/

variable {σ : Settings} {line : Nat} {e e' : Engine} {s : Syllable} {n : Note}

/-- Finishing a syllable sings its phrase, and does nothing where there is no syllable. -/
theorem close_ok {u : Unit} (h : close σ line e = .ok u e') :
    (e.current = none ∧ e' = e) ∨
      ∃ s p key opening, e.current = some s ∧
        Phrase.ofNotes line s e.notes.toList = .ok p ∧
        (p.first.key? σ).or e.lastKey? = some key ∧
        p.openWith line e.lastKey? (p.firstMora σ key) e.carried = .ok opening ∧
        e' = { morae := e.morae ++ (opening ++ p.laterMorae σ key p.more)
               current := none
               notes := #[]
               carried := p.carry σ } := by
  unfold close at h
  split at h
  · rename_i hc
    cases h
    exact Or.inl ⟨hc, rfl⟩
  · rename_i s hc
    dsimp only at h
    split at h
    · cases h
    · rename_i p hp
      unfold sing at h
      split at h
      · cases h
      · rename_i key hkey
        split at h
        · cases h
        · rename_i opening ho
          cases h
          exact Or.inr ⟨s, p, key, opening, hc, hp, hkey, ho, rfl⟩

/-- Feeding a syllable finishes the one before it. -/
theorem feedSyllable_ok {u : Unit} :
    feedSyllable σ line s e = .ok u e' ↔
      ∃ e₁, close σ line e = .ok () e₁ ∧ e' = { e₁ with current := some s } := by
  unfold feedSyllable
  rw [bind_ok]
  constructor
  · rintro ⟨_, e₁, hc, hm⟩
    cases hm
    exact ⟨e₁, hc, rfl⟩
  · rintro ⟨e₁, hc, rfl⟩
    exact ⟨(), e₁, hc, rfl⟩

/-- Feeding a note adds it to the notes of the current syllable. No sound is taken after a
rest. -/
theorem feedNote_ok {u : Unit} (h : feedNote line n e = .ok u e') :
    (∃ s, e.current = some s) ∧ e' = { e with notes := e.notes.push n } ∧
      ∀ last, e.notes.back? = some last → last.isRest = true → n.isRest = true := by
  unfold feedNote at h
  split at h
  · cases h
  · rename_i s last hs hlast
    split at h
    · cases h
    · rename_i hr
      cases h
      refine ⟨⟨s, hs⟩, rfl, fun x hx hxr => ?_⟩
      obtain rfl : last = x := by simpa using hlast.symm.trans hx
      simpa [hxr] using hr
  · rename_i s hs hlast
    cases h
    refine ⟨⟨s, hs⟩, rfl, fun x hx _ => ?_⟩
    rw [hlast] at hx
    cases hx

/-- A syllable is refused if the one before it cannot be finished. -/
theorem feedSyllable_error {f : Fault} :
    feedSyllable σ line s e = .error f e' ↔ close σ line e = .error f e' := by
  unfold feedSyllable
  rw [bind_error]
  constructor
  · rintro (hclose | ⟨u, e₁, -, hmodify⟩)
    · exact hclose
    · cases hmodify
  · exact Or.inl

/-- A note that is refused leaves the engine as it is. -/
theorem feedNote_error {f : Fault} (h : feedNote line n e = .error f e') :
    e' = e ∧ ((e.current = none ∧ f = n.fault line .noSyllable) ∨
      ∃ last, e.notes.back? = some last ∧ last.isRest = true ∧ n.isRest = false ∧
        f = .misplaced line last.column (last.display ++ n.display) .soundAfterRest) := by
  unfold feedNote at h
  split at h
  · rename_i hs
    cases h
    exact ⟨rfl, Or.inl ⟨hs, rfl⟩⟩
  · rename_i s last hs hlast
    split at h
    · rename_i hr
      cases h
      obtain ⟨hrest, hsound⟩ : last.isRest = true ∧ n.isRest = false := by simpa using hr
      exact ⟨rfl, Or.inr ⟨last, hlast, hrest, hsound, rfl⟩⟩
    · cases h
  · cases h

/-! ## Runs -/

theorem feedAll_cons_ok {u : Unit} {c : Cue Event} {cs : List (Cue Event)} :
    feedAll (c :: cs) e = .ok u e' ↔
      ∃ e₁, feed c e = .ok () e₁ ∧ feedAll cs e₁ = .ok () e' :=
  run_cons_ok (fun _ _ => rfl)

theorem feedAll_append_ok {u : Unit} {cs cs' : List (Cue Event)} :
    feedAll (cs ++ cs') e = .ok u e' ↔
      ∃ e₁, feedAll cs e = .ok () e₁ ∧ feedAll cs' e₁ = .ok () e' :=
  run_append_ok rfl (fun _ _ => rfl)

theorem feedAll_error {f : Fault} {cs : List (Cue Event)} (h : feedAll cs e = .error f e') :
    ∃ fed c rest e₁, cs = fed ++ c :: rest ∧ feedAll fed e = .ok () e₁ ∧
      feed c e₁ = .error f e' :=
  run_error rfl (fun _ _ => rfl) h

theorem feedAll_nil_ok {u : Unit} (h : feedAll [] e = .ok u e') : e' = e := by
  cases h
  rfl

/-- The cues of events on one line. -/
def cuesAt (σ : Settings) (line : Nat) (xs : List Event) : List (Cue Event) :=
  xs.map (Cue.mk σ line)

/-- The cues that a call stands for. -/
def callCues (c : Cue Call) : List (Cue Event) := cuesAt c.settings c.line c.what.events

theorem cuesAt_append (xs ys : List Event) :
    cuesAt σ line (xs ++ ys) = cuesAt σ line xs ++ cuesAt σ line ys := List.map_append

theorem cuesAt_cons (x : Event) (xs : List Event) :
    cuesAt σ line (x :: xs) = ⟨σ, line, x⟩ :: cuesAt σ line xs := rfl

theorem feedAll_append (cs cs' : List (Cue Event)) :
    feedAll (cs ++ cs') = (do feedAll cs; feedAll cs') := by
  induction cs with
  | nil => rfl
  | cons c cs ih => rw [List.cons_append, feedAll, ih, feedAll, bind_assoc]

/-- Refuses syllables that have nothing to be sung on. -/
def refuse : List Syllable → EStateM Fault Engine Unit
  | [] => pure ()
  | s :: _ => throw (s.fault .noNote)

/-- The syllables up to a column are fed, and the later ones are left. -/
theorem feedReached_eq (column : Nat) (lyrics : List Syllable) :
    feedReached σ line column lyrics = (do
      feedAll (cuesAt σ line
        ((lyrics.takeWhile (fun s => decide (s.column ≤ column))).map Event.syllable))
      pure (lyrics.dropWhile (fun s => decide (s.column ≤ column)))) := by
  induction lyrics with
  | nil => rfl
  | cons s ss ih =>
      rw [feedReached]
      by_cases hs : s.column ≤ column
      · rw [if_pos hs, ih, List.takeWhile_cons_of_pos (by simpa using hs),
          List.dropWhile_cons_of_pos (by simpa using hs), List.map_cons, cuesAt_cons, feedAll,
          bind_assoc]
        rfl
      · rw [if_neg hs, List.takeWhile_cons_of_neg (by simpa using hs),
          List.dropWhile_cons_of_neg (by simpa using hs)]
        rfl

/-- **Merging two lines** feeds their events by columns, and then refuses the syllables that are
left out. -/
theorem merge_eq (lyrics : List Syllable) (melody : List Note) :
    merge σ line lyrics melody = (do
      feedAll (cuesAt σ line (Event.interleave lyrics melody))
      refuse (Event.leftOver lyrics melody)) := by
  -- every note is fed after the syllables up to its column, and both advance together
  induction melody generalizing lyrics with
  | nil => cases lyrics <;> rfl
  | cons n ns ih =>
      rw [merge, feedReached_eq, Event.interleave, Event.leftOver, cuesAt_append, cuesAt_cons,
        feedAll_append, feedAll]
      simp only [bind_assoc, pure_bind, ih]
      rfl

theorem refuse_ok {u : Unit} {ss : List Syllable} :
    refuse ss e = .ok u e' ↔ ss = [] ∧ e' = e := by
  cases ss with
  | nil => exact ⟨fun h => by cases h; exact ⟨rfl, rfl⟩, fun ⟨_, h⟩ => by rw [h]; rfl⟩
  | cons s ss => exact ⟨fun h => (by cases h), fun ⟨h, _⟩ => (by cases h)⟩

theorem refuse_error {f : Fault} {ss : List Syllable} (h : refuse ss e = .error f e') :
    e' = e ∧ ∃ s later, ss = s :: later ∧ f = s.fault .noNote := by
  cases ss with
  | nil => cases h
  | cons s later =>
      cases h
      exact ⟨rfl, s, later, rfl, rfl⟩

theorem merge_ok {u : Unit} {lyrics : List Syllable} {melody : List Note} :
    merge σ line lyrics melody e = .ok u e' ↔
      feedAll (cuesAt σ line (Event.interleave lyrics melody)) e = .ok () e' ∧
        Event.leftOver lyrics melody = [] := by
  rw [merge_eq, bind_ok]
  constructor
  · rintro ⟨_, e₁, hfed, hrefuse⟩
    obtain ⟨hnone, rfl⟩ := refuse_ok.mp hrefuse
    exact ⟨hfed, hnone⟩
  · rintro ⟨hfed, hnone⟩
    exact ⟨(), e', hfed, refuse_ok.mpr ⟨hnone, rfl⟩⟩

theorem perform_ok {u : Unit} {c : Cue Call} (h : perform c e = .ok u e') :
    feedAll (callCues c) e = .ok () e' := by
  obtain ⟨σ, line, what⟩ := c
  cases what with
  | event x => exact feedAll_cons_ok.mpr ⟨e', h, rfl⟩
  | merge lyrics melody => exact (merge_ok.mp h).1

/-- Calls that all succeed feed the events that they stand for. -/
theorem performAll_ok {u : Unit} {cs : List (Cue Call)} (h : performAll cs e = .ok u e') :
    feedAll (cs.flatMap callCues) e = .ok () e' := by
  induction cs generalizing e with
  | nil => exact h
  | cons c cs ih =>
      rw [performAll, bind_ok] at h
      obtain ⟨_, e₁, h₁, h₂⟩ := h
      rw [List.flatMap_cons]
      exact feedAll_append_ok.mpr ⟨e₁, perform_ok h₁, ih h₂⟩

end Engine

end SungScore
