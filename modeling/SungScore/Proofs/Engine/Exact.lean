import SungScore.Proofs.Engine.Invariant
import SungScore.Proofs.Exact.Phrase

set_option autoImplicit false

/-!
# Engines count exactly

An engine that finishes a syllable does what it would do in integers, as far as it can count
(`Engine.close_exact`). A sum is refused exactly where a run, or the first mora with what it takes in,
does not fit in thirty-two bits; where nothing is refused, no sum has overflowed and no difference has
wrapped around.
-/

namespace SungScore

namespace Engine

variable {σ : Settings} {line : Nat} {e e' : Engine} {f : Fault}

theorem lastKey?_exact (e : Engine) : Exact.lastKey? e.exact = e.lastKey? := by
  show (e.morae.toList.map Mora.exact).getLast?.map _ = e.morae.back?.map _
  rw [List.getLast?_map, Array.getLast?_toList, Option.map_map]
  rfl

/-! ## A syllable that is finished -/

theorem exact_of_close_ok {u : Unit} (h : close σ line e = .ok u e') :
    Exact.close σ e.exact = .ok e'.exact := by
  rcases close_ok h with ⟨hnone, rfl⟩ | ⟨s, p, key, opening, hs, hp, hkey, hopen, rfl⟩
  · have hcurrent : e'.exact.current = none := hnone
    simp only [Exact.close, hcurrent]
  · have hcurrent : e.exact.current = some s := hs
    have hphrase : Exact.Phrase.ofNotes s e.exact.notes = .ok p.exact := Phrase.ofNotes_exact hp
    have hfirst : (p.exact.first.key? σ).or
        (Exact.lastKey? { e.exact with current := none, notes := [] }) = some key := by
      rw [← hkey, ← lastKey?_exact]
      rfl
    obtain ⟨hopening, -⟩ := p.openWith_exact (p.plain_firstMora σ key) hopen
    rw [← p.firstMora_exact, ← lastKey?_exact] at hopening
    have hopening' : p.exact.openWith
        (Exact.lastKey? { e.exact with current := none, notes := [] })
        (p.exact.firstMora σ key) e.exact.carried = .ok (opening.map Mora.exact) := hopening
    simp only [Exact.close, hcurrent, hphrase, Exact.sing, hfirst, hopening',
      p.laterMorae_exact_more, p.carry_exact]
    simp only [exact, Array.toList_appendList, List.map_append, List.map_nil]

/-- Nothing in a syllable that is finished is overlong. -/
theorem not_overlong_of_close_ok (he : e.NotesBelong) {u : Unit}
    (h : close σ line e = .ok u e') : ¬ Exact.Overlong σ e.exact := by
  rcases close_ok h with ⟨hnone, rfl⟩ | ⟨s, p, key, opening, hs, hp, -, hopen, rfl⟩
  · -- without a syllable there are no notes and no phrase
    have hnotes : e'.exact.notes = [] := by simp [exact, he hnone]
    rintro (⟨rs, hrs, r, hr, -⟩ | ⟨s, p, hs, -, -⟩)
    · rw [hnotes] at hrs
      cases hrs
      cases hr
    · have hcurrent : e'.exact.current = none := hnone
      rw [hcurrent] at hs
      cases hs
  · rintro (hlong | ⟨s', q, hs', hq, hlong⟩)
    · obtain ⟨-, runs, hruns, -⟩ := Phrase.ofNotes_ok hp
      exact Note.not_someRunOverlong hruns hlong
    · obtain rfl : s = s' := Option.some.inj (hs.symm.trans hs')
      obtain rfl : p.exact = q := Except.ok.inj ((Phrase.ofNotes_exact hp).symm.trans hq)
      obtain ⟨-, hle⟩ := p.openWith_exact (p.plain_firstMora σ key) hopen
      rw [← p.firstMora_exact] at hle
      exact absurd hlong (not_lt.mpr hle)

/-! ## A syllable that cannot be finished -/

/-- There is always a key for a phrase, so that it fails for want of a phrase or of bits. -/
theorem exact_of_close_error (he : e.Coherent) (h : close σ line e = .error f e') :
    (∃ cause, f.cause? = some cause ∧ cause ∈ [.tieWithoutNote, .noNote, .onlyRests] ∧
        Exact.close σ e.exact = .error cause) ∨
      (f.cause? = some .ticksOverflow ∧ Exact.Overlong σ e.exact) := by
  have hkey := (he.close_error h).2
  obtain ⟨s, hs, -, -, -, -, hphrase | ⟨p, hp, ⟨-, rfl⟩ | ⟨key, hopen⟩⟩⟩ := close_error h
  · have hcurrent : e.exact.current = some s := hs
    rcases Phrase.ofNotes_exact_error hphrase he.restsLast with
      ⟨cause, hcause, hmem, hexact⟩ | ⟨hcause, hlong⟩
    · have hnotes : Exact.Phrase.ofNotes s e.exact.notes = .error cause := hexact
      exact Or.inl ⟨cause, hcause, hmem, by simp only [Exact.close, hcurrent, hnotes]⟩
    · exact Or.inr ⟨hcause, Or.inl hlong⟩
  · cases hkey
  · rcases p.openWith_error hopen with ⟨t, hcarried, hadd, rfl⟩ | ⟨-, text, t, -, rfl⟩
    · have hlong := p.overlong_of_add? hcarried hadd
      rw [← p.firstMora_exact] at hlong
      exact Or.inr ⟨rfl, Or.inr ⟨s, p.exact, hs, Phrase.ofNotes_exact hp, hlong⟩⟩
    · cases hkey

/-- **The arithmetic of ticks is exact.** A syllable that is finished either has no phrase, for a reason
that has nothing to do with time and is the same in integers, or is refused exactly where something in
it is overlong; in all other cases its morae, with all their durations, and what it carries are those
in integers. -/
theorem close_exact (σ : Settings) (line : Nat) (e : Engine) (he : Reachable e) :
    (∃ f e' cause, close σ line e = .error f e' ∧ f.cause? = some cause ∧
        cause ∈ [.tieWithoutNote, .noNote, .onlyRests] ∧ Exact.close σ e.exact = .error cause) ∨
      (((∃ f e', close σ line e = .error f e' ∧ f.cause? = some .ticksOverflow) ↔
          Exact.Overlong σ e.exact) ∧
        (¬ Exact.Overlong σ e.exact →
          ∃ e', close σ line e = .ok () e' ∧ Exact.close σ e.exact = .ok e'.exact)) := by
  cases h : close σ line e with
  | ok u e' =>
      have hnot := not_overlong_of_close_ok he.coherent.notesBelong h
      refine Or.inr ⟨⟨?_, fun hlong => absurd hlong hnot⟩, fun _ => ⟨e', rfl, exact_of_close_ok h⟩⟩
      rintro ⟨f, e₁, hf, -⟩
      cases hf
  | error f e' =>
      rcases exact_of_close_error he.coherent h with ⟨cause, hcause, hmem, hexact⟩ | ⟨hcause, hlong⟩
      · exact Or.inl ⟨f, e', cause, rfl, hcause, hmem, hexact⟩
      · exact Or.inr ⟨⟨fun _ => hlong, fun _ => ⟨f, e', rfl, hcause⟩⟩, fun hnot => absurd hlong hnot⟩

/-- The longest of notes on "na" cannot take in the coda of "kan" before it. -/
theorem close_exact_kan_na :
    let e : Engine :=
      { morae := #[{ consonant := ['k'], vowel := ['a'], key := 48, tick := 110, offTick := 30 }]
        current := some ⟨['n'], [], ['a'], [], 1, 5⟩
        notes := #[⟨.pitched ⟨.c, .natural⟩ 4, 4294967295, 5⟩]
        carried := some (.coda ['n'] 110) }
    Reachable e ∧ (∃ f e', close {} 2 e = .error f e' ∧ f.cause? = some .ticksOverflow) ∧
      Exact.Overlong {} e.exact := by
  intro e
  let kan : Syllable := ⟨['k'], [], ['a'], ['n'], 1, 1⟩
  let na : Syllable := ⟨['n'], [], ['a'], [], 1, 5⟩
  let c : Note := ⟨.pitched ⟨.c, .natural⟩ 4, 220, 1⟩
  let long : Note := ⟨.pitched ⟨.c, .natural⟩ 4, 4294967295, 5⟩
  obtain ⟨e', hmerge, rfl⟩ : ∃ e', perform ⟨{}, 2, .merge [kan, na] [c, long]⟩ {} = .ok () e' ∧
      e' = e := ⟨_, rfl, by decide +kernel⟩
  have he : Reachable e := .succeeded _ .new hmerge
  obtain ⟨f, e₁, hclose, hcause⟩ : ∃ f e₁, close {} 2 e = .error f e₁ ∧
      f.cause? = some .ticksOverflow := ⟨_, _, rfl, by decide +kernel⟩
  refine ⟨he, ⟨f, e₁, hclose, hcause⟩, ?_⟩
  rcases close_exact {} 2 e he with ⟨g, e₂, cause, hg, hcause', hmem, -⟩ | ⟨hiff, -⟩
  · rw [hclose] at hg
    cases hg
    rw [hcause] at hcause'
    cases hcause'
    simp at hmem
  · exact hiff.mp ⟨f, e₁, hclose, hcause⟩

end Engine

end SungScore
