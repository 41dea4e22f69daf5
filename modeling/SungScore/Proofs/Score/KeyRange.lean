import SungScore.Proofs.Engine.Invariant
import SungScore.Proofs.Score.Change
import SungScore.Proofs.Score.Segments

set_option autoImplicit false

/-!
# The range of keys

The range of keys is set by a configuration and by nothing else: no line changes it, whether or not
the line can be read. So all keys of a score are brought into the same range. A pitched note has such
a key by itself; every other mora takes the key of a mora before it, and so it has one too
(`Engine.keysWithin_close`). Hence the range holds for all morae of a score, whatever lines are fed to
it (`keys_within_range`).
-/

namespace SungScore

/-- All morae have keys between the given ones. -/
def Mora.AllWithin (lowest highest : Int) (ms : List Mora) : Prop :=
  ∀ m ∈ ms, lowest ≤ m.key ∧ m.key ≤ highest

/-- The settings bring keys between the given ones. -/
structure Settings.Ranges (lowest highest : Int) (σ : Settings) : Prop where
  lowestKey : σ.lowestKey = lowest
  highestKey : σ.highestKey = highest

variable {lowest highest : Int} {σ : Settings}

theorem Mora.allWithin_append {ms ms' : List Mora} :
    AllWithin lowest highest (ms ++ ms') ↔
      AllWithin lowest highest ms ∧ AllWithin lowest highest ms' :=
  List.forall_mem_append

theorem Mora.allWithin_cons {m : Mora} {ms : List Mora} :
    AllWithin lowest highest (m :: ms) ↔
      (lowest ≤ m.key ∧ m.key ≤ highest) ∧ AllWithin lowest highest ms :=
  List.forall_mem_cons

theorem Mora.allWithin_nil : AllWithin lowest highest [] := by simp [AllWithin]

/-- The refrain changes no key. -/
theorem Mora.allWithin_refrain {ms : List Mora} (h : AllWithin lowest highest ms) :
    AllWithin lowest highest (refrain ms) := by
  intro x hx
  obtain ⟨m, hm, next, rfl⟩ := mem_refrain hx
  rw [followedBy_key]
  exact h m hm

theorem Settings.Ranges.within_clampKey (hσ : σ.Ranges lowest highest) (hle : lowest ≤ highest)
    (key : Int) : lowest ≤ σ.clampKey key ∧ σ.clampKey key ≤ highest := by
  rw [clampKey, hσ.lowestKey, hσ.highestKey]
  omega

/-- A note brings its own key into the range. -/
theorem Note.within_of_key? (hσ : σ.Ranges lowest highest) (hle : lowest ≤ highest) {n : Note}
    {key : Int} (h : n.key? σ = some key) : lowest ≤ key ∧ key ≤ highest := by
  unfold key? at h
  split at h
  · cases h
    exact hσ.within_clampKey hle _
  · cases h
  · cases h

/-! ## Phrases -/

namespace Phrase

variable {p : Phrase} {line : Nat} {key : Int}

theorem allWithin_closing (hkey : lowest ≤ key ∧ key ≤ highest) :
    Mora.AllWithin lowest highest (p.closing σ key) := by
  unfold closing
  split
  · exact Mora.allWithin_cons.mpr ⟨hkey, Mora.allWithin_nil⟩
  · exact Mora.allWithin_nil

theorem allWithin_laterMorae (hσ : σ.Ranges lowest highest) (hle : lowest ≤ highest)
    (hkey : lowest ≤ key ∧ key ≤ highest) (ns : List Note) :
    Mora.AllWithin lowest highest (p.laterMorae σ key ns) := by
  -- a note without a key goes on with the key before it
  induction ns generalizing key with
  | nil => exact allWithin_closing hkey
  | cons n after ih =>
      have hnext : lowest ≤ (n.key? σ).getD key ∧ (n.key? σ).getD key ≤ highest := by
        cases hn : n.key? σ with
        | none => exact hkey
        | some k => exact Note.within_of_key? hσ hle hn
      exact Mora.allWithin_cons.mpr ⟨hnext, ih hnext⟩

theorem allWithin_openWith {before : Option Int} {m : Mora} {carried : Option Carry}
    {opening : List Mora} (h : p.openWith line before m carried = .ok opening)
    (hm : lowest ≤ m.key ∧ m.key ≤ highest)
    (hbefore : ∀ k, before = some k → lowest ≤ k ∧ k ≤ highest) :
    Mora.AllWithin lowest highest opening := by
  have hone : ∀ x : Mora, x.key = m.key → Mora.AllWithin lowest highest [x] := by
    intro x hx
    refine Mora.allWithin_cons.mpr ⟨?_, Mora.allWithin_nil⟩
    rw [hx]
    exact hm
  cases p.opens_of_openWith h with
  | nothing => exact hone m rfl
  | silence => exact hone _ rfl
  | consonant => exact hone _ rfl
  | @coda text t key _ hkey =>
      -- the coda has the key of the mora before
      exact Mora.allWithin_cons.mpr ⟨hbefore key hkey, hone m rfl⟩

end Phrase

/-! ## Engines -/

namespace Engine

/-- All morae of the engine have keys between the given ones. -/
def KeysWithin (lowest highest : Int) (e : Engine) : Prop :=
  Mora.AllWithin lowest highest e.morae.toList

variable {line : Nat} {e e' : Engine}

theorem KeysWithin.lastKey? (he : e.KeysWithin lowest highest) {key : Int}
    (h : e.lastKey? = some key) : lowest ≤ key ∧ key ≤ highest := by
  obtain ⟨m, hm, rfl⟩ := Option.map_eq_some_iff.mp h
  exact he m (by simpa using Array.mem_of_back? hm)

/-- Finishing a syllable adds morae with keys of its notes and of morae before them. -/
theorem keysWithin_close (hσ : σ.Ranges lowest highest) (hle : lowest ≤ highest) :
    Keeps (KeysWithin lowest highest) (fun _ => True) (close σ line) := by
  constructor
  · intro e u e' he h
    rcases close_ok h with ⟨-, rfl⟩ | ⟨s, p, key, opening, -, -, hkey, hopen, rfl⟩
    · exact he
    · have hfirst : lowest ≤ key ∧ key ≤ highest := by
        rcases Option.or_eq_some_iff.mp hkey with hnote | ⟨-, hlast⟩
        · exact Note.within_of_key? hσ hle hnote
        · exact he.lastKey? hlast
      rw [KeysWithin, Array.toList_appendList, Mora.allWithin_append, Mora.allWithin_append]
      exact ⟨he, Phrase.allWithin_openWith hopen hfirst (fun k hk => he.lastKey? hk),
        Phrase.allWithin_laterMorae hσ hle hfirst p.more⟩
  · intro e f e' he h
    obtain ⟨-, -, -, -, hmorae, -, -⟩ := close_error h
    rw [KeysWithin, hmorae]
    exact ⟨he, trivial⟩

theorem keysWithin_feed {c : Cue Event} (hσ : c.settings.Ranges lowest highest)
    (hle : lowest ≤ highest) : Keeps (KeysWithin lowest highest) (fun _ => True) (feed c) := by
  obtain ⟨σ, line, what⟩ := c
  cases what with
  | syllable s =>
      refine (keysWithin_close hσ hle).bind (fun _ => ⟨fun he h => ?_, fun _ h => (by cases h)⟩)
      cases h
      exact he
  | note n =>
      constructor
      · intro e u e' he h
        obtain ⟨-, rfl, -⟩ := feedNote_ok h
        exact he
      · intro e f e' he h
        obtain ⟨rfl, -⟩ := feedNote_error h
        exact ⟨he, trivial⟩

theorem keysWithin_feedAll {cs : List (Cue Event)} (hle : lowest ≤ highest)
    (hcs : ∀ c ∈ cs, c.settings.Ranges lowest highest) :
    Keeps (KeysWithin lowest highest) (fun _ => True) (feedAll cs) := by
  induction cs with
  | nil => exact Keeps.pure _ _ ()
  | cons c cs ih =>
      refine (keysWithin_feed (hcs c (by simp)) hle).bind (fun _ => ?_)
      exact ih (fun x hx => hcs x (List.mem_cons_of_mem _ hx))

theorem keysWithin_merge (hσ : σ.Ranges lowest highest) (hle : lowest ≤ highest)
    (lyrics : List Syllable) (melody : List Note) :
    Keeps (KeysWithin lowest highest) (fun _ => True) (merge σ line lyrics melody) := by
  rw [merge_eq]
  refine (keysWithin_feedAll hle ?_).bind (fun _ => ?_)
  · intro c hc
    obtain ⟨x, -, rfl⟩ := List.mem_map.mp hc
    exact hσ
  · cases Event.leftOver lyrics melody with
    | nil => exact Keeps.pure _ _ ()
    | cons s ss => exact ⟨fun _ h => (by cases h), fun he h => (by cases h; exact ⟨he, trivial⟩)⟩

theorem KeysWithin.finish (he : e.KeysWithin lowest highest) (hσ : σ.Ranges lowest highest)
    (hle : lowest ≤ highest) {ms : List Mora} (h : e.finish σ line = .ok ms) :
    Mora.AllWithin lowest highest ms := by
  obtain ⟨e₁, sung, hclose, hend, rfl⟩ := finish_ok h
  have he₁ : e₁.KeysWithin lowest highest := (keysWithin_close hσ hle).ok he hclose
  apply Mora.allWithin_refrain
  rcases withFinalCoda_ok hend with ⟨rfl, -⟩ | ⟨text, t, key, -, hkey, rfl⟩
  · exact he₁
  · exact Mora.allWithin_append.mpr
      ⟨he₁, Mora.allWithin_cons.mpr ⟨he₁.lastKey? hkey, Mora.allWithin_nil⟩⟩

end Engine

/-! ## Scores -/

namespace Score

/-- The score that a line leaves, whether it is read or refused. -/
def afterLine (s : Score) (l : Text) : Score :=
  match feedLine l s with
  | .ok _ s' => s'
  | .error _ s' => s'

/-- The score that lines leave, of which some may be refused. -/
def afterLines (s : Score) (ls : List Text) : Score := ls.foldl afterLine s

/-- The settings have the range of keys and a beat with ticks, and all morae are in the range. -/
structure InRange (lowest highest : Int) (s : Score) : Prop where
  settings : s.settings.Ranges lowest highest
  tickUnit : 1 ≤ s.settings.tickUnit
  engine : s.engine.KeysWithin lowest highest

variable {s s' : Score} {l : Text}

/-- A line that is read keeps the range. -/
theorem InRange.reads (hs : s.InRange lowest highest) (hle : lowest ≤ highest)
    (h : Reads l s s') : s'.InRange lowest highest := by
  cases h with
  | ignored => exact ⟨hs.settings, hs.tickUnit, hs.engine⟩
  | @pragma change _ hread =>
      obtain ⟨x, v, hset, hsets⟩ := Change.exists_read_iff.mp ⟨change, hread, rfl⟩
      refine ⟨?_, hsets.one_le_tickUnit hset.inRange hs.tickUnit, hs.engine⟩
      cases change <;> exact ⟨hs.settings.lowestKey, hs.settings.highestKey⟩
  | lyrics => exact ⟨hs.settings, hs.tickUnit, hs.engine⟩
  | @melody ss ns octave e _ _ _ hmerge =>
      have hσ : Settings.Ranges lowest highest { s.settings with octave } :=
        ⟨hs.settings.lowestKey, hs.settings.highestKey⟩
      exact ⟨hσ, hs.tickUnit, (Engine.keysWithin_merge hσ hle ss ns).ok hs.engine hmerge⟩

/-- A line that is refused keeps the range. -/
theorem InRange.refuses (hs : s.InRange lowest highest) (hle : lowest ≤ highest) {f : Fault}
    (h : Refuses l s f s') : s'.InRange lowest highest := by
  cases h with
  | pragma => exact ⟨hs.settings, hs.tickUnit, hs.engine⟩
  | lyrics => exact ⟨hs.settings, hs.tickUnit, hs.engine⟩
  | melody =>
      exact ⟨⟨hs.settings.lowestKey, hs.settings.highestKey⟩, hs.tickUnit, hs.engine⟩
  | @merge ss ns octave _ e _ _ _ hmerge =>
      have hσ : Settings.Ranges lowest highest { s.settings with octave } :=
        ⟨hs.settings.lowestKey, hs.settings.highestKey⟩
      exact ⟨hσ, hs.tickUnit, ((Engine.keysWithin_merge hσ hle ss ns).error hs.engine hmerge).1⟩

theorem InRange.afterLine (hs : s.InRange lowest highest) (hle : lowest ≤ highest) (l : Text) :
    (s.afterLine l).InRange lowest highest := by
  unfold Score.afterLine
  cases h : feedLine l s with
  | ok u s' => exact hs.reads hle (feedLine_iff.mp h)
  | error f s' => exact hs.refuses hle (feedLine_error_iff.mp h)

theorem InRange.afterLines (hs : s.InRange lowest highest) (hle : lowest ≤ highest)
    (ls : List Text) : (s.afterLines ls).InRange lowest highest := by
  induction ls generalizing s with
  | nil => exact hs
  | cons l ls ih => exact ih (hs.afterLine hle l)

/-- **Keys stay in the configured range.** Whatever lines are fed to a new score, and whether they
are read or refused, the range of keys is the one that it began with and the beat has ticks. If the
score can be finished, all its morae have keys in the range. -/
theorem keys_within_range (σ : Settings) (hkeys : σ.lowestKey ≤ σ.highestKey)
    (hbeat : 1 ≤ σ.tickUnit) (ls : List Text) :
    let s : Score := ({ settings := σ } : Score).afterLines ls
    s.settings.lowestKey = σ.lowestKey ∧ s.settings.highestKey = σ.highestKey ∧
      1 ≤ s.settings.tickUnit ∧
      ∀ ms, s.finish = .ok ms → ∀ m ∈ ms, σ.lowestKey ≤ m.key ∧ m.key ≤ σ.highestKey := by
  intro s
  have hnew : ({ settings := σ } : Score).InRange σ.lowestKey σ.highestKey :=
    ⟨⟨rfl, rfl⟩, hbeat, Mora.allWithin_nil⟩
  have hs : s.InRange σ.lowestKey σ.highestKey := hnew.afterLines hkeys ls
  refine ⟨hs.settings.lowestKey, hs.settings.highestKey, hs.tickUnit, fun ms hms => ?_⟩
  exact hs.engine.finish hs.settings hkeys (finish_ok.mp hms).2

/-- A range of ten keys, with keys on both sides of it, and with a pragma, a melody and a word that are
refused. The codas have the keys of the morae before them. -/
theorem keys_within_range_kan_san :
    let σ : Settings := { lowestKey := 50, highestKey := 60 }
    let ls : List Text :=
      ["# tempo 0".toList, "kan ta".toList, "c. h".toList, "x".toList, "san".toList, "o9c".toList]
    let s : Score := ({ settings := σ } : Score).afterLines ls
    σ.lowestKey ≤ σ.highestKey ∧ 1 ≤ σ.tickUnit ∧ s.settings.lowestKey = σ.lowestKey ∧
      s.settings.highestKey = σ.highestKey ∧ 1 ≤ s.settings.tickUnit ∧
      ∃ ms, s.finish = .ok ms ∧ ms.map (·.key) = [50, 50, 60, 60] ∧
        ∀ m ∈ ms, σ.lowestKey ≤ m.key ∧ m.key ≤ σ.highestKey := by
  intro σ ls
  have hkeys : σ.lowestKey ≤ σ.highestKey := by decide
  have hbeat : 1 ≤ σ.tickUnit := by decide
  have hms : (({ settings := σ } : Score).afterLines ls).finish = .ok
      [{ consonant := ['k'], vowel := ['a'], key := 50, tick := 110, offTick := 30 },
        { consonant := ['n'], key := 50, tick := 109, offTick := 109, bends := [0, 0, 0] },
        { consonant := ['s'], vowel := ['a'], key := 60, tick := 330, onTick := 220,
          offTick := 30 },
        { consonant := ['n'], key := 60, tick := 31, offTick := 30 }] := by decide +kernel
  obtain ⟨hlowest, hhighest, htick, hrange⟩ := keys_within_range σ hkeys hbeat ls
  exact ⟨hkeys, hbeat, hlowest, hhighest, htick, _, hms, by decide, hrange _ hms⟩

end Score

end SungScore
