import SungScore.Proofs.Plain

set_option autoImplicit false

/-!
# Segments

A segment is what is sung between two syllables: a syllable with all notes that are fed to it,
each with the settings in effect then, and the settings in effect when the syllable is finished.
The morae of a score can be read off its segments without running the engine (`describe`). They
are, segment by segment,

* a body of one mora for every pitch. Its first mora has the onset, and takes in what the
  segment before leaves: its rest, or else its coda if that is the same consonant as the onset;
* a coda, where there is one that the next segment does not take in. At the end of the score it
  is cut to thirty-one ticks.

All times are counted in natural numbers. `Segment.Sung` collects what makes this account exact.
-/

namespace SungScore

/-- A syllable with the notes fed to it. -/
structure Segment where
  syllable : Syllable
  /-- The notes, each with the settings in effect when it is fed. -/
  fed : List (Settings × Note)
  /-- The settings in effect when the syllable is finished. -/
  settings : Settings
deriving DecidableEq

namespace Segment

/-! ## Times -/

def notes (g : Segment) : List Note := g.fed.map Prod.snd

/-- The notes with their ties, and the rests joined. -/
def runs (g : Segment) : List Note := (Note.runs 0 g.notes).toOption.getD []

/-- The pitches that are sung. -/
def sounds (g : Segment) : List Note := g.runs.filter (fun n => !n.isRest)

/-- The ticks of the rest. -/
def restTicks (g : Segment) : Nat := Note.total (g.runs.filter Note.isRest)

/-- The ticks kept for the coda: half of the last pitch within the bound of the settings, and
none if there is no coda or that pitch has less than fifteen ticks. -/
def codaTicks (g : Segment) : Nat :=
  match g.sounds.getLast? with
  | none => 0
  | some n =>
      if g.syllable.coda ≠ [] ∧ 15 ≤ n.length.toNat then
        min g.settings.maximalSuffix.toNat (n.length.toNat / 2)
      else 0

/-- The ticks left to a pitch with the given ones after it. -/
def kept (g : Segment) (n : Note) (after : List Note) : Nat :=
  if after.isEmpty then n.length.toNat - g.codaTicks else n.length.toNat

/-- The silence that the segment before leaves. -/
def restBefore (previous : Option Segment) : Nat := previous.elim 0 restTicks

/-- The ticks of a coda that the segment before leaves to the onset. -/
def codaBefore (previous : Option Segment) (g : Segment) : Nat :=
  match previous with
  | none => 0
  | some q => if q.restTicks = 0 ∧ q.syllable.coda = g.syllable.onset then q.codaTicks else 0

theorem codaTicks_lt (g : Segment) : g.codaTicks < 4294967296 := by
  unfold codaTicks
  have hm := g.settings.maximalSuffix.toNat_lt
  split
  · omega
  · split <;> omega

/-! ## Morae -/

/-- The key of a pitch with the settings of the segment. -/
def keyOf (g : Segment) (n : Note) : Int := (n.key? g.settings).getD 0

/-- The key of the last pitch. -/
def lastKey (g : Segment) : Int := (g.sounds.getLast?.map g.keyOf).getD 0

/-- The morae of pitches that no onset stands before. -/
def voiced (g : Segment) : List Note → List Mora
  | [] => []
  | n :: after =>
      { vowel := g.syllable.vowel, key := g.keyOf n, tick := .ofNat (g.kept n after) }
        :: voiced g after

/-- The mora with the onset and what is taken in from the segment before. -/
def opened (previous : Option Segment) (g : Segment) (n : Note) (after : List Note) : Mora :=
  { consonant := g.syllable.onset
    breath := g.syllable.breath
    vowel := g.syllable.vowel
    key := g.keyOf n
    tick := .ofNat (g.kept n after + restBefore previous + codaBefore previous g)
    onTick := .ofNat (restBefore previous)
    offTick := .ofNat (min 30 (g.kept n after / 2) + codaBefore previous g) }

/-- The morae of the pitches. -/
def body (previous : Option Segment) (g : Segment) : List Mora :=
  match g.sounds with
  | [] => []
  | n :: after => opened previous g n after :: g.voiced after

/-- The coda as a mora of its own. -/
def codaMora (g : Segment) (ticks : Nat) : Mora :=
  Mora.loneConsonant g.syllable.coda g.lastKey (.ofNat ticks)

/-- The coda, if it is sung by itself. A rest after it or another onset lets it stand alone, and
so does the end of the score. -/
def coda (g : Segment) (next : Option Segment) : List Mora :=
  if g.codaTicks = 0 then []
  else if 0 < g.restTicks then [g.codaMora g.codaTicks]
  else
    match next with
    | none => [g.codaMora (min g.codaTicks 31)]
    | some q => if g.syllable.coda = q.syllable.onset then [] else [g.codaMora g.codaTicks]

/-- The morae of segments after the given one, before the refrain. -/
def describe : Option Segment → List Segment → List Mora
  | _, [] => []
  | previous, g :: gs => body previous g ++ g.coda gs.head? ++ describe (some g) gs

/-! ## When the account is exact -/

/-- The segment is sung: its notes can be joined, there is a pitch among them and nothing else
sounds, and the first mora has room for all that it takes in. -/
structure Sung (previous : Option Segment) (g : Segment) : Prop where
  runs_eq : Note.runs 0 g.notes = .ok g.runs
  sounds_ne_nil : g.sounds ≠ []
  pitched : ∀ n ∈ g.sounds, n.isPitched = true
  fits : ∀ n after, g.sounds = n :: after →
    g.kept n after + restBefore previous + codaBefore previous g < 4294967296

/-- All segments after the given one are sung. -/
def AllSung : Option Segment → List Segment → Prop
  | _, [] => True
  | previous, g :: gs => Sung previous g ∧ AllSung (some g) gs

/-! ## Keys -/

theorem map_key_voiced (g : Segment) (ns : List Note) :
    (g.voiced ns).map (·.key) = ns.map g.keyOf := by
  induction ns with
  | nil => rfl
  | cons n after ih => rw [voiced, List.map_cons, List.map_cons, ih]

/-- The body has the keys of the pitches, in their order. -/
theorem map_key_body (previous : Option Segment) (g : Segment) :
    (body previous g).map (·.key) = g.sounds.map g.keyOf := by
  rw [body]
  cases hs : g.sounds with
  | nil => rfl
  | cons n after => rw [List.map_cons, map_key_voiced, List.map_cons]; rfl

end Segment

end SungScore
