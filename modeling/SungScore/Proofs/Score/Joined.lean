import SungScore.Proofs.Score.Alike
import SungScore.Proofs.Score.Segments
import SungScore.Proofs.Text.Lines

set_option autoImplicit false

/-!
# Pairs of lines joined

How a score is broken into pairs of lines does not matter: where a lyric line and its melody line
are filled up to one width, the next pair can be written behind them, and the morae stay the same
(`compile_joined`).

Behind the first pair the second one is read as before, at other places and with the octave that the
first melody leaves. The engine is fed the same syllables and notes in the same order. All that the
joined lines change for it are places, and the octave of the settings that the first pair is fed
with, which no key depends on any more. So the two engines are alike up to places, and stay so.
-/

namespace SungScore

/-! ## Up to places -/

namespace Likeness

/-- Everything is alike that differs in lines, in columns and in the octave of the settings. -/
def upToPlaces (f : Nat → Nat) : Likeness where
  lines := f
  keys := id
  settings σ σ' := ∃ octave, σ' = { σ with octave }
  syllable s s' := ∃ line column, s' = { s with line, column }
  note n n' := ∃ column, n' = { n with column }
  fault _ _ := True
  keys_injective := Function.injective_id
  settings_bound := by
    rintro σ _ ⟨octave, rfl⟩
    rfl
  settings_keys := by
    rintro σ _ n _ ⟨octave, rfl⟩ ⟨column, rfl⟩
    exact (Option.map_id_apply).symm
  syllable_place := id
  note_place := id
  note_length := by
    rintro n _ ⟨column, rfl⟩ length
    exact ⟨column, rfl⟩
  syllable_fault := fun _ _ => trivial
  note_fault := fun _ _ _ => trivial
  tie_fault := fun _ _ => trivial
  rest_fault := fun _ _ _ => trivial
  coda_fault := fun _ _ => trivial

variable (f : Nat → Nat)

theorem ofLines_upToPlaces : (upToPlaces f).OfLines where
  syllable s := ⟨f s.line, s.column, rfl⟩
  fault _ := trivial
  settings := by
    rintro σ _ ⟨octave', rfl⟩ octave
    exact ⟨octave, rfl⟩

theorem settings_upToPlaces_apply {σ σ' : Settings} (h : (upToPlaces f).settings σ σ')
    (c : Change) :
    (upToPlaces f).settings (σ.apply c) (σ'.apply c) := by
  obtain ⟨octave, rfl⟩ := h
  cases c with
  | octave number => exact ⟨number, rfl⟩
  | _ => exact ⟨octave, rfl⟩

theorem map_mora_upToPlaces (ms : List Mora) : ms.map (upToPlaces f).mora = ms := List.map_id ms

theorem engines_upToPlaces_refl (e : Engine) : (upToPlaces f).Engines e e where
  morae := (map_mora_upToPlaces f _).symm
  current := by
    cases e.current with
    | none => exact .none
    | some s => exact .some ⟨s.line, s.column, rfl⟩
  notes := List.forall₂_same.mpr (fun n _ => ⟨n.column, rfl⟩)
  carried := rfl

theorem events_upToPlaces_moved (g h : Nat → Nat) (x : Event) :
    (upToPlaces f).Events x (x.moved g h) := by
  cases x with
  | syllable s => exact .syllable ⟨g s.line, h s.column, rfl⟩
  | note n => exact .note ⟨h n.column, rfl⟩

theorem events_upToPlaces_refl (x : Event) : (upToPlaces f).Events x x := by
  cases x with
  | syllable s => exact .syllable ⟨s.line, s.column, rfl⟩
  | note n => exact .note ⟨n.column, rfl⟩

end Likeness

/-! ## One pair behind another -/

variable {gap a b : Text}

theorem Lyrics.read_joined {line line' : Nat} {ss ss' : List Syllable} (hgap : gap.allBlank = true)
    (hne : gap ≠ []) (ha : read line a = .ok ss) (hb : read line' b = .ok ss') :
    read line (a ++ (gap ++ b))
      = .ok (ss ++ ss'.map (.moved (fun _ => line) (· + (a ++ gap).length))) := by
  have hmoved := read_moved (fun _ => line) line' b
  rw [hb] at hmoved
  rw [read_append hgap hne ha hmoved, List.map_map]
  rfl

theorem Melody.read_joined {unit : Ticks} {line line' : Nat} {octave octave' octave'' : Int}
    {ns ns' : List Note} (hgap : gap.allBlank = true) (hne : gap ≠ [])
    (ha : read unit line a octave = .ok ns octave')
    (hb : read unit line' b octave' = .ok ns' octave'') :
    read unit line (a ++ (gap ++ b)) octave
      = .ok (ns ++ ns'.map (.moved (· + (a ++ gap).length))) octave'' := by
  have hmoved := read_moved (fun _ => line) unit line' b octave'
  rw [hb] at hmoved
  rw [read_append hgap hne ha b, hmoved, movedResult, movedResult, List.map_map]
  rfl

variable {w : Nat} {lyrics₁ lyrics₂ : List Syllable} {melody₁ : List Note}
  (melody₂ : List Note)

/-- Events that are written beyond those of the first pair come after them. -/
theorem Event.interleave_joined (g : Nat → Nat) (hleft : leftOver lyrics₁ melody₁ = [])
    (hmelody : ∀ n ∈ melody₁, n.column ≤ w) (hlyrics : ∀ s ∈ lyrics₂, 1 ≤ s.column) :
    interleave (lyrics₁ ++ lyrics₂.map (.moved g (· + w))) (melody₁ ++ melody₂.map (.moved (· + w)))
        = interleave lyrics₁ melody₁ ++ (interleave lyrics₂ melody₂).map (.moved g (· + w))
      ∧ leftOver (lyrics₁ ++ lyrics₂.map (.moved g (· + w)))
          (melody₁ ++ melody₂.map (.moved (· + w)))
        = (leftOver lyrics₂ melody₂).map (.moved g (· + w)) := by
  have hbeyond : ∀ s ∈ lyrics₂.map (Syllable.moved g (· + w)), w < s.column := by
    intro s hs
    obtain ⟨t, ht, rfl⟩ := List.mem_map.mp hs
    have hpos := hlyrics t ht
    show w < t.column + w
    omega
  obtain ⟨hmoved, hmovedLeft⟩ := interleave_moved g (g := (· + w))
    (fun _ _ => Nat.add_le_add_iff_right) lyrics₂ melody₂
  rw [← hmoved, ← hmovedLeft]
  exact interleave_append _ hleft hmelody hbeyond

namespace Engine

open Event Likeness

/-- What both pairs are fed, one after the other, is alike to what is fed as one. -/
theorem cues_joined {σ σ' : Settings} (hσ : ∃ octave, σ' = { σ with octave }) (f g h : Nat → Nat)
    {line₁ line₂ : Nat} (hline : f line₂ = f line₁) (xs ys : List Event) :
    List.Forall₂ (upToPlaces f).Cues (cuesAt σ line₁ xs ++ cuesAt σ' line₂ ys)
      (cuesAt σ' (f line₁) (xs ++ ys.map (.moved g h))) := by
  have hfirst : List.Forall₂ (upToPlaces f).Cues (cuesAt σ line₁ xs) (cuesAt σ' (f line₁) xs) :=
    cuesAt_alike line₁ hσ (List.forall₂_same.mpr (fun x _ => events_upToPlaces_refl f x))
  have hsame : (upToPlaces f).settings σ' σ' := ⟨σ'.octave, rfl⟩
  have hsecond : List.Forall₂ (upToPlaces f).Cues (cuesAt σ' line₂ ys)
      (cuesAt σ' (f line₂) (ys.map (.moved g h))) := by
    refine cuesAt_alike line₂ hsame ?_
    rw [List.forall₂_map_right_iff, List.forall₂_same]
    exact fun x _ => events_upToPlaces_moved f g h x
  rw [cuesAt_append, ← hline]
  rw [← hline] at hfirst
  exact List.rel_append hfirst hsecond

/-- **Two pairs merged as one**: where the second pair is written beyond the first one, and both are
merged under the settings of the second, the engine is alike. -/
theorem merge_joined {melody₂ : List Note} {σ σ' : Settings} {line₁ line₂ : Nat}
    {e e₁ e₂ : Engine}
    (h₁ : merge σ line₁ lyrics₁ melody₁ e = .ok () e₁)
    (h₂ : merge σ' line₂ lyrics₂ melody₂ e₁ = .ok () e₂)
    (hmelody : ∀ n ∈ melody₁, n.column ≤ w) (hlyrics : ∀ s ∈ lyrics₂, 1 ≤ s.column)
    (hσ : ∃ octave, σ' = { σ with octave }) (f g : Nat → Nat) (hline : f line₂ = f line₁) :
    ∃ e', merge σ' (f line₁) (lyrics₁ ++ lyrics₂.map (.moved g (· + w)))
        (melody₁ ++ melody₂.map (.moved (· + w))) e = .ok () e' ∧
      (upToPlaces f).Engines e₂ e' := by
  obtain ⟨hfed₁, hleft₁⟩ := merge_ok.mp h₁
  obtain ⟨hfed₂, hleft₂⟩ := merge_ok.mp h₂
  obtain ⟨hinterleave, hleft⟩ := interleave_joined melody₂ g hleft₁ hmelody hlyrics
  obtain ⟨e', hfed, he⟩ := (feedAll_alike (cues_joined hσ f g (· + w) hline _ _)).ok
    (engines_upToPlaces_refl f e) (feedAll_append_ok.mpr ⟨e₁, hfed₁, hfed₂⟩)
  refine ⟨e', merge_ok.mpr ⟨?_, ?_⟩, he⟩
  · rw [hinterleave]
    exact hfed
  · rw [hleft, hleft₂]
    rfl

end Engine

namespace Score

open Likeness

/-- Where lines go when the second pair after some lines is written behind the first. -/
def joinedLine (before line : Nat) : Nat := if line ≤ before + 2 then line else line - 2

variable {l₁ m₁ l₂ m₂ : Text} {s s₁ s₂ : Score}

/-- **Two pairs read as one** leave scores that are alike up to places. -/
theorem feedLines_joined (hl₁ : LineKind.of l₁.dropLineEnd = .content)
    (hm₁ : LineKind.of m₁.dropLineEnd = .content) (hl₂ : LineKind.of l₂.dropLineEnd = .content)
    (hm₂ : LineKind.of m₂.dropLineEnd = .content) (hl : l₁.length < w) (hm : m₁.length < w)
    (hpending : s.pending = none) (h₁ : feedLines [l₁, m₁] s = .ok () s₁)
    (h₂ : feedLines [l₂, m₂] s₁ = .ok () s₂) :
    ∃ t, feedLines [l₁.rightpad w ' ' ++ l₂, m₁.rightpad w ' ' ++ m₂] s = .ok () t ∧
      (upToPlaces (joinedLine s.line)).Scores s₂ t ∧
      ∀ k, joinedLine s.line (s₂.line + k) = t.line + k := by
  obtain ⟨ss₁, ns₁, octave₁, e₁, hlyrics₁, hmelody₁, hmerge₁, rfl⟩ :=
    (feedLines_pair_ok hl₁ hm₁ hpending).mp h₁
  obtain ⟨ss₂, ns₂, octave₂, e₂, hlyrics₂, hmelody₂, hmerge₂, rfl⟩ :=
    (feedLines_pair_ok hl₂ hm₂ rfl).mp h₂
  obtain ⟨gap, hgap, hne, hwidth, hline⟩ := Text.dropLineEnd_rightpad hl hl₂
  obtain ⟨gap', hgap', hne', hwidth', hline'⟩ := Text.dropLineEnd_rightpad hm hm₂
  have hlyrics := Lyrics.read_joined hgap hne hlyrics₁ hlyrics₂
  have hmelody := Melody.read_joined hgap' hne' hmelody₁ hmelody₂
  rw [hwidth, ← hline] at hlyrics
  rw [hwidth', ← hline'] at hmelody
  have hcolumns : ∀ n ∈ ns₁, n.column ≤ w := by
    intro n hn
    have hcolumn := (Melody.column_of_mem_read hmelody₁ hn).2
    have hlength : m₁.dropLineEnd.length ≤ w := by
      rw [← hwidth', List.length_append]
      omega
    omega
  have hfirst : joinedLine s.line (s.line + 2) = s.line + 2 := if_pos (by omega)
  have hsecond : joinedLine s.line (s.line + 2 + 2) = s.line + 2 := if_neg (by omega)
  obtain ⟨e', hmerge, he⟩ := Engine.merge_joined hmerge₁ hmerge₂ hcolumns
    (fun x hx => (Lyrics.column_of_mem_read hlyrics₂ hx).1) ⟨octave₂, rfl⟩ (joinedLine s.line)
    (fun _ => s.line + 1) (hsecond.trans hfirst.symm)
  rw [hfirst] at hmerge
  refine ⟨⟨{ s.settings with octave := octave₂ }, s.line + 2, none, e'⟩, ?_, ?_, ?_⟩
  · refine (feedLines_pair_ok ?_ ?_ hpending).mpr ⟨_, _, _, _, hlyrics, hmelody, hmerge, rfl⟩
    · rw [hline]
      exact LineKind.of_append hl₁ _
    · rw [hline']
      exact LineKind.of_append hm₁ _
  · exact ⟨⟨octave₂, rfl⟩, rfl, rfl, hsecond.symm, rfl, he⟩
  · intro k
    rw [joinedLine, if_neg (by dsimp only; omega)]
    dsimp only
    omega

end Score

open Likeness

/-- **Pairs of lines joined**: where no lyric line waits after the lines before them, two pairs of
lines can be written as one. The lines of the first pair are filled up with spaces to one width,
which is beyond both of them, and those of the second pair come behind. If the score is compiled with
the pairs one after the other, it is so with the one pair, to the same morae. -/
theorem compile_joined (σ : Settings) (source joined : Text) (before after : List Text)
    (l₁ m₁ l₂ m₂ : Text) (w : Nat) (ms : List Mora)
    (hsource : source.lines = before ++ l₁ :: m₁ :: l₂ :: m₂ :: after)
    (hjoined : joined.lines
      = before ++ (l₁.rightpad w ' ' ++ l₂) :: (m₁.rightpad w ' ' ++ m₂) :: after)
    (hpending : (Score.after? before { settings := σ }).map (·.pending) = some none)
    (hl₁ : LineKind.of l₁.dropLineEnd = .content) (hm₁ : LineKind.of m₁.dropLineEnd = .content)
    (hl₂ : LineKind.of l₂.dropLineEnd = .content) (hm₂ : LineKind.of m₂.dropLineEnd = .content)
    (hl : l₁.length < w) (hm : m₁.length < w) (h : compile σ source = .ok ms) :
    compile σ joined = .ok ms := by
  obtain ⟨s', hread, hfinish⟩ := compile_eq_ok.mp h
  have hpairs : source.lines = before ++ ([l₁, m₁] ++ ([l₂, m₂] ++ after)) := hsource
  rw [hpairs] at hread
  obtain ⟨s, hbefore, hfirst⟩ := Score.feedLines_append_ok.mp hread
  obtain ⟨s₁, h₁, hsecond⟩ := Score.feedLines_append_ok.mp hfirst
  obtain ⟨s₂, h₂, hafter⟩ := Score.feedLines_append_ok.mp hsecond
  have hnone : s.pending = none := by
    rw [Score.after?_eq hbefore] at hpending
    exact Option.some.inj hpending
  obtain ⟨t, ht, hst, hlines⟩ :=
    Score.feedLines_joined hl₁ hm₁ hl₂ hm₂ hl hm hnone h₁ h₂
  -- from here on both scores read the same lines
  have hrest := feedLines_alike (ofLines_upToPlaces _) (fun n => ⟨n.column, rfl⟩)
    (settings_upToPlaces_apply _) hst hlines after
  rw [hafter] at hrest
  obtain ⟨t', ht', hst'⟩ := hrest.of_ok
  have hend := finishScore_alike (ofLines_upToPlaces _) hst'
  rw [hfinish] at hend
  obtain ⟨ms', hms', hmap⟩ := hend.of_ok
  rw [map_mora_upToPlaces] at hmap
  have hpair : joined.lines
      = before ++ ([l₁.rightpad w ' ' ++ l₂, m₁.rightpad w ' ' ++ m₂] ++ after) := hjoined
  refine compile_eq_ok.mpr ⟨t', ?_, hmap ▸ hms'⟩
  rw [hpair]
  exact Score.feedLines_append_ok.mpr
    ⟨s, hbefore, Score.feedLines_append_ok.mpr ⟨t, ht, ht'⟩⟩

/-- The coda `n` that is left open at the end of the first pair becomes part of the onset behind it,
in the octave that the first melody raises. -/
theorem compile_joined_kan_na_ta :
    let source : Text := "# tick_unit 100\nkan\nc<\nna ta\nd (ef)\n! end\nsa\ng\n".toList
    let joined : Text := "# tick_unit 100\nkan na ta\nc<  d (ef)\n! end\nsa\ng\n".toList
    ∃ ms, compile {} source = .ok ms ∧ compile {} joined = .ok ms := by
  intro source joined
  have h : compile {} source = .ok
      [{ consonant := ['k'], vowel := ['a'], key := 48, tick := 49, offTick := 25,
          bends := [0, 0] },
        { consonant := ['n'], vowel := ['a'], key := 62, tick := 149, offTick := 80,
          bends := [0, 0, 0, 0] },
        { consonant := ['t'], vowel := ['a'], key := 64, tick := 49, offTick := 25,
          bends := [0, 0] },
        { vowel := ['a'], key := 65, tick := 49, bends := [0, 0] },
        { consonant := ['s'], vowel := ['a'], key := 67, tick := 100, offTick := 30 }] := by
    decide +kernel
  refine ⟨_, h, compile_joined {} source joined ["# tick_unit 100".toList]
    ["! end".toList, "sa".toList, "g".toList] "kan".toList "c<".toList "na ta".toList
    "d (ef)".toList 4 _ ?_ ?_ ?_ ?_ ?_ ?_ ?_ ?_ ?_ h⟩ <;> decide +kernel

end SungScore
