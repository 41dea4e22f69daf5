import SungScore.Proofs.Segment.Basic

set_option autoImplicit false

/-!
# The phrase of a segment

When a segment is finished, the engine makes a phrase of it and sings that. Here the phrase is
compared with the description: its times are the ones of the segment, its later morae are the
voiced ones, and its opening is the opened mora. Of a coda some part is sung with the segment
itself (`soonCoda`), and some only when the next segment begins (`lateCoda`).
-/

namespace SungScore

namespace Segment

/-! ## What a segment leaves -/

/-- What a segment leaves to the next one. -/
def carryOf : Option Segment → Option Carry
  | none => none
  | some q =>
      if 0 < q.restTicks then some (.silence (.ofNat q.restTicks))
      else if 0 < q.codaTicks then some (.coda q.syllable.coda (.ofNat q.codaTicks))
      else none

/-- The coda that is sung at once, since a rest follows. -/
def soonCoda (g : Segment) : List Mora :=
  if 0 < g.restTicks ∧ 0 < g.codaTicks then [g.codaMora g.codaTicks] else []

/-- The coda of the segment before that does not fit the onset. -/
def lateCoda (previous : Option Segment) (g : Segment) : List Mora :=
  match previous with
  | none => []
  | some q =>
      if q.restTicks = 0 ∧ 0 < q.codaTicks ∧ q.syllable.coda ≠ g.syllable.onset then
        [q.codaMora q.codaTicks]
      else []

/-- The coda at the end of the score, if no rest follows. -/
def endCoda (g : Segment) : List Mora :=
  if g.restTicks = 0 ∧ 0 < g.codaTicks then [g.codaMora (min g.codaTicks 31)] else []

theorem coda_none (g : Segment) : g.coda none = g.soonCoda ++ g.endCoda := by
  unfold coda soonCoda endCoda
  by_cases hc : g.codaTicks = 0
  · simp [hc]
  · by_cases hr : 0 < g.restTicks
    · have hr0 : g.restTicks ≠ 0 := by omega
      simp [hc, hr, hr0, Nat.pos_of_ne_zero hc]
    · have hr0 : g.restTicks = 0 := by omega
      simp [hc, hr0, Nat.pos_of_ne_zero hc]

theorem coda_some (g q : Segment) : g.coda (some q) = g.soonCoda ++ lateCoda (some g) q := by
  unfold coda soonCoda lateCoda
  by_cases hc : g.codaTicks = 0
  · simp [hc]
  · by_cases hr : 0 < g.restTicks
    · have hr0 : g.restTicks ≠ 0 := by omega
      simp [hc, hr, hr0, Nat.pos_of_ne_zero hc]
    · have hr0 : g.restTicks = 0 := by omega
      by_cases ho : g.syllable.coda = q.syllable.onset
      · simp [hc, hr0, ho]
      · simp [hc, hr0, ho, Nat.pos_of_ne_zero hc]

theorem key_soonCoda (g : Segment) : ∀ m ∈ g.soonCoda, m.key = g.lastKey := by
  unfold soonCoda
  split
  · simp [codaMora, Mora.loneConsonant]
  · simp

/-! ## Times -/

section

variable {g : Segment} {p : Phrase} {line : Nat}

theorem runs_eq_of_runs {rs : List Note} (h : Note.runs line g.notes = .ok rs) : g.runs = rs := by
  rw [runs, Note.runs_line h]
  rfl

theorem pitched_of_mem_sounds (hp : Phrase.ofNotes line g.syllable g.notes = .ok p) :
    ∀ n ∈ g.sounds, n.isPitched = true := by
  obtain ⟨-, rs, hrs, -⟩ := Phrase.ofNotes_ok hp
  intro n hn
  rw [sounds, runs_eq_of_runs hrs, List.mem_filter] at hn
  have ht : n.isTie = false := Note.not_isTie_of_mem_runs hrs n hn.1
  simpa [Note.isPitched, ht] using hn.2

/-- The first mora of the phrase with other times is the one of the description if the times
are. -/
theorem firstMora_eq_opened (hp : Phrase.ofNotes line g.syllable g.notes = .ok p)
    (previous : Option Segment) (tick on off : Ticks)
    (htick : tick.toNat = g.kept p.first p.more + restBefore previous + codaBefore previous g)
    (hon : on.toNat = restBefore previous)
    (hoff : off.toNat = min 30 (g.kept p.first p.more / 2) + codaBefore previous g) :
    { p.firstMora g.settings (g.keyOf p.first) with tick, onTick := on, offTick := off }
      = opened previous g p.first p.more := by
  rw [opened, ← Ticks.eq_ofNat htick, ← Ticks.eq_ofNat hon, ← Ticks.eq_ofNat hoff, Phrase.firstMora,
    (Phrase.ofNotes_ok hp).1]

variable (hp : Phrase.ofNotes line g.syllable g.notes = .ok p) (hl : Note.RestsLast g.notes)

include hp hl

theorem sounds_eq : g.sounds = p.first :: p.more := by
  obtain ⟨-, rs, hrs, hsplit⟩ := Phrase.ofNotes_ok hp
  have h := (Phrase.splitRest_runs hrs hl).1
  rw [hsplit] at h
  rw [sounds, runs_eq_of_runs hrs]
  exact h.symm

theorem restTicks_eq : g.restTicks = p.silence.toNat := by
  obtain ⟨-, rs, hrs, hsplit⟩ := Phrase.ofNotes_ok hp
  have h := (Phrase.splitRest_runs hrs hl).2
  rw [hsplit] at h
  rw [restTicks, runs_eq_of_runs hrs]
  exact h.symm

theorem getLast?_sounds : g.sounds.getLast? = some p.last := by
  rw [sounds_eq hp hl, List.getLast?_cons]
  rfl

theorem codaTicks_eq : g.codaTicks = (p.codaTicks g.settings).toNat := by
  have hs := (Phrase.ofNotes_ok hp).1
  rw [codaTicks, getLast?_sounds hp hl, Phrase.codaTicks, hs]
  by_cases hc : g.syllable.coda = []
  · simp [hc]
  · have hshort : p.last.length < Phrase.codaRoom ↔ ¬ 15 ≤ p.last.length.toNat := by
      rw [UInt32.lt_iff_toNat_lt, Nat.not_le]
      rfl
    by_cases hr : 15 ≤ p.last.length.toNat
    · rw [if_neg (by simp [hc, hshort, hr]), Ticks.toNat_min, Ticks.toNat_half]
      simp [hc, hr]
    · rw [if_pos (by simp [hshort, hr])]
      simp [hr]

theorem kept_eq (n : Note) (after : List Note) (h : after = [] → n = p.last) :
    g.kept n after = (p.keptTicks g.settings n after).toNat := by
  rw [kept, Phrase.keptTicks, codaTicks_eq hp hl]
  split
  · rename_i ha
    have hle := Phrase.toNat_codaTicks_le g.settings p
    rw [h (by simpa using ha), Ticks.toNat_sub (by omega)]
  · rfl

theorem carry_eq : p.carry g.settings = carryOf (some g) := by
  have hr := restTicks_eq hp hl
  have hc := codaTicks_eq hp hl
  have hs := (Phrase.ofNotes_ok hp).1
  rw [Phrase.carry, carryOf, ← Ticks.eq_ofNat hr.symm, ← Ticks.eq_ofNat hc.symm, hs]
  simp only [Ticks.pos_iff, hr, hc]

/-! ## Singing -/

theorem lastKey_eq : g.lastKey = g.keyOf p.last := by
  rw [lastKey, getLast?_sounds hp hl]
  rfl

theorem closing_eq : p.closing g.settings g.lastKey = g.soonCoda := by
  have hr := restTicks_eq hp hl
  have hc := codaTicks_eq hp hl
  have hs := (Phrase.ofNotes_ok hp).1
  rw [Phrase.closing, soonCoda, codaMora, ← Ticks.eq_ofNat hc.symm, hs]
  simp only [Ticks.pos_iff, hr, hc]

/-- The later morae are the ones of the description, and the coda that is sung at once. -/
theorem laterMorae_eq (key : Int) (ns : List Note) (hpitch : ∀ n ∈ ns, n.isPitched = true)
    (hlast : ns.getLast? = some p.last ∨ ns = [] ∧ key = g.lastKey) :
    p.laterMorae g.settings key ns = g.voiced ns ++ g.soonCoda := by
  -- `key` is the one of the note before, which the coda at the end is sung on
  induction ns generalizing key with
  | nil =>
      rcases hlast with h | ⟨-, rfl⟩
      · cases h
      · exact closing_eq hp hl
  | cons n after ih =>
      rcases hlast with hlast | ⟨h, -⟩
      · obtain ⟨k, hk⟩ := Note.key?_of_isPitched g.settings (hpitch n (by simp))
        have hkey : g.keyOf n = (n.key? g.settings).getD key := by
          rw [keyOf, hk]
          rfl
        have hn : after = [] → n = p.last := by
          rintro rfl
          simpa using hlast
        have hkept := kept_eq hp hl n after hn
        rw [Phrase.laterMorae, voiced, ← hkey, (Phrase.ofNotes_ok hp).1,
          ← Ticks.eq_ofNat hkept.symm, ih, List.cons_append]
        · exact fun m hm => hpitch m (List.mem_cons_of_mem _ hm)
        · cases after with
          | nil =>
              refine Or.inr ⟨rfl, ?_⟩
              rw [lastKey_eq hp hl, hn rfl]
          | cons m after => exact Or.inl (by rw [← hlast, List.getLast?_cons_cons])
      · cases h

theorem kept_first_eq :
    g.kept p.first p.more = (p.firstMora g.settings (g.keyOf p.first)).tick.toNat :=
  kept_eq hp hl p.first p.more (fun hm => by simp [Phrase.last, hm])

theorem offTick_first_eq :
    (p.firstMora g.settings (g.keyOf p.first)).offTick.toNat
      = min 30 (g.kept p.first p.more / 2) := by
  rw [Phrase.toNat_offTick_firstMora, kept_first_eq hp hl]

variable {q : Segment} {before : Option Int} {opening : List Mora}

/-- The first mora as it is, where there is nothing to take in. -/
theorem firstMora_eq (previous : Option Segment) (hr : restBefore previous = 0)
    (hc : codaBefore previous g = 0) :
    p.firstMora g.settings (g.keyOf p.first) = opened previous g p.first p.more
      ∧ g.kept p.first p.more + restBefore previous + codaBefore previous g < 4294967296 := by
  have hkept := kept_first_eq hp hl
  have hoff := offTick_first_eq hp hl
  have hlt := (p.firstMora g.settings (g.keyOf p.first)).tick.toNat_lt
  refine ⟨?_, by omega⟩
  exact firstMora_eq_opened hp previous _ 0 _ (hkept.symm.trans (by omega)) hr.symm
    (hoff.trans (by omega))

/-- The rest of the segment before delays the first mora. -/
theorem openWith_silence (hrest : 0 < q.restTicks) (hlt : q.restTicks < 4294967296)
    (h : p.openWith line before (p.firstMora g.settings (g.keyOf p.first))
      (some (.silence (.ofNat q.restTicks))) = .ok opening) :
    opening = [opened (some q) g p.first p.more]
      ∧ g.kept p.first p.more + restBefore (some q) + codaBefore (some q) g < 4294967296 := by
  have hkept := kept_first_eq hp hl
  have hoff := offTick_first_eq hp hl
  have ht : (UInt32.ofNat q.restTicks).toNat = q.restTicks := Ticks.toNat_ofNat hlt
  have hr : restBefore (some q) = q.restTicks := rfl
  have hc : codaBefore (some q) g = 0 := by
    have hne : q.restTicks ≠ 0 := by omega
    simp [codaBefore, hne]
  simp only [Phrase.openWith] at h
  split at h
  · rename_i tick hadd
    cases h
    have hsum := (Ticks.add?_eq_some.mp hadd).1
    have htick := Ticks.toNat_of_add? hadd
    have hon : ((0 : Ticks) + .ofNat q.restTicks).toNat = q.restTicks := by
      rw [UInt32.zero_add, ht]
    refine ⟨?_, by omega⟩
    rw [← firstMora_eq_opened hp (some q) tick _ _ (by omega) hon (hoff.trans (by omega))]
    rfl
  · cases h

/-- A coda that is the same consonant lengthens the onset; any other one stands alone. -/
theorem openWith_coda (hrest : q.restTicks = 0) (hpos : 0 < q.codaTicks)
    (h : p.openWith line (some q.lastKey) (p.firstMora g.settings (g.keyOf p.first))
      (some (.coda q.syllable.coda (.ofNat q.codaTicks))) = .ok opening) :
    opening = lateCoda (some q) g ++ [opened (some q) g p.first p.more]
      ∧ g.kept p.first p.more + restBefore (some q) + codaBefore (some q) g < 4294967296 := by
  have hs := (Phrase.ofNotes_ok hp).1
  have hr : restBefore (some q) = 0 := hrest
  simp only [Phrase.openWith, hs] at h
  by_cases ho : q.syllable.coda = g.syllable.onset
  · have hkept := kept_first_eq hp hl
    have hoff := offTick_first_eq hp hl
    have ht : (UInt32.ofNat q.codaTicks).toNat = q.codaTicks :=
      Ticks.toNat_ofNat (codaTicks_lt q)
    have hc : codaBefore (some q) g = q.codaTicks := by simp [codaBefore, hrest, ho]
    rw [if_pos ho] at h
    split at h
    · rename_i tick hadd
      cases h
      have hsum := (Ticks.add?_eq_some.mp hadd).1
      have htick := Ticks.toNat_of_add? hadd
      -- both consonants are in the onset now
      have hfull : ((p.firstMora g.settings (g.keyOf p.first)).offTick
          + .ofNat q.codaTicks).toNat = min 30 (g.kept p.first p.more / 2) + q.codaTicks := by
        rw [Ticks.toNat_add (by omega), hoff, ht]
      refine ⟨?_, by omega⟩
      rw [← firstMora_eq_opened hp (some q) tick 0 _ (by omega) hr.symm (hfull.trans (by omega))]
      simp [lateCoda, ho]
      rfl
    · cases h
  · have hc : codaBefore (some q) g = 0 := by simp [codaBefore, ho]
    obtain ⟨hm, hfits⟩ := firstMora_eq hp hl (some q) hr hc
    rw [if_neg ho] at h
    cases h
    refine ⟨?_, hfits⟩
    rw [← hm]
    simp [lateCoda, hrest, hpos, ho, codaMora]

/-- The opening of the phrase is the first mora of the description, after the coda of the
segment before if it does not fit. -/
theorem opening_eq {previous : Option Segment}
    (hbefore : ∀ q, previous = some q → before = some q.lastKey)
    (hlt : ∀ q, previous = some q → q.restTicks < 4294967296)
    (h : p.openWith line before (p.firstMora g.settings (g.keyOf p.first)) (carryOf previous)
      = .ok opening) :
    opening = lateCoda previous g ++ [opened previous g p.first p.more]
      ∧ g.kept p.first p.more + restBefore previous + codaBefore previous g < 4294967296 := by
  -- the three things that the segment before may leave: silence, a coda, or nothing
  cases previous with
  | none =>
      obtain ⟨hm, hfits⟩ := firstMora_eq hp hl none rfl rfl
      cases h
      exact ⟨by rw [hm]; rfl, hfits⟩
  | some q =>
      rw [carryOf] at h
      by_cases hrest : 0 < q.restTicks
      · rw [if_pos hrest] at h
        have hlate : lateCoda (some q) g = [] := by
          have hne : q.restTicks ≠ 0 := by omega
          simp [lateCoda, hne]
        rw [hlate]
        exact openWith_silence hp hl hrest (hlt q rfl) h
      · have hrest0 : q.restTicks = 0 := by omega
        rw [if_neg hrest] at h
        by_cases hpos : 0 < q.codaTicks
        · rw [if_pos hpos, hbefore q rfl] at h
          exact openWith_coda hp hl hrest0 hpos h
        · have hc : codaBefore (some q) g = 0 := by
            have hc0 : q.codaTicks = 0 := by omega
            simp [codaBefore, hc0]
          obtain ⟨hm, hfits⟩ := firstMora_eq hp hl (some q) hrest0 hc
          rw [if_neg hpos] at h
          cases h
          refine ⟨?_, hfits⟩
          rw [hm]
          simp [lateCoda, hpos]

/-- **The phrase of a segment is sung as described**, with the late coda in front and without
what is left to the next segment. -/
theorem phrase_eq {previous : Option Segment} {key : Int}
    (hbefore : ∀ q, previous = some q → before = some q.lastKey)
    (hlt : ∀ q, previous = some q → q.restTicks < 4294967296)
    (hkey : (p.first.key? g.settings).or before = some key)
    (h : p.openWith line before (p.firstMora g.settings key) (carryOf previous) = .ok opening) :
    Sung previous g ∧ opening ++ p.laterMorae g.settings key p.more
      = lateCoda previous g ++ body previous g ++ soonCoda g := by
  have hsounds := sounds_eq hp hl
  have hpitch := pitched_of_mem_sounds hp
  obtain ⟨k, hk⟩ := Note.key?_of_isPitched g.settings (hpitch p.first (by simp [hsounds]))
  -- the first note is pitched, so that its key does not come from the mora before
  obtain rfl : g.keyOf p.first = key := by
    rw [hk] at hkey
    rw [keyOf, hk]
    simpa using hkey
  obtain ⟨rfl, hfits⟩ := opening_eq hp hl hbefore hlt h
  have hlater := laterMorae_eq hp hl (g.keyOf p.first) p.more
    (fun n hn => hpitch n (by simp [hsounds, hn]))
    (by
      cases hm : p.more.getLast? with
      | none =>
          have hnil : p.more = [] := List.getLast?_eq_none_iff.mp hm
          refine Or.inr ⟨hnil, ?_⟩
          rw [lastKey_eq hp hl]
          simp [Phrase.last, hnil]
      | some n => exact Or.inl (by simp [Phrase.last, hm]))
  refine ⟨⟨?_, by simp [hsounds], hpitch, ?_⟩, ?_⟩
  · obtain ⟨-, rs, hrs, -⟩ := Phrase.ofNotes_ok hp
    rw [runs_eq_of_runs hrs]
    exact Note.runs_line hrs
  · intro n after hn
    obtain ⟨rfl, rfl⟩ : p.first = n ∧ p.more = after := by simpa [hsounds] using hn
    exact hfits
  · have hbody : body previous g = opened previous g p.first p.more :: g.voiced p.more := by
      rw [body, hsounds]
    rw [hlater, hbody]
    simp

end

end Segment

end SungScore
