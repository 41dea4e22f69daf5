import SungScore.Proofs.Score.Segments
import SungScore.Proofs.Segment.Place

set_option autoImplicit false

/-!
# The time of the vowel

The silence and the consonant of a mora are within its time when it is sung: what a first mora
takes in makes as much room as it needs. But the refrain takes a tick of the whole and looks at
neither of them. If the first pitch of a segment has no ticks of its own, all time of its mora was
taken in, and the vowel is left with one tick less than none (`Segment.Squeezed`). This is the only
way in which a vowel can lose more than it has (`vowelTick_nonneg_iff`).
-/

namespace SungScore

theorem Mora.vowelTick_nonneg (m : Mora) :
    0 ≤ m.vowelTick ↔ m.onTick.toNat + m.offTick.toNat ≤ m.tick.toNat := by
  rw [vowelTick]
  omega

/-- The refrain takes one tick from the vowel at most. -/
theorem Mora.vowelTick_followedBy {m : Mora} (h : 0 ≤ m.vowelTick) (next : Option Mora) :
    -1 ≤ (m.followedBy next).vowelTick := by
  have hle := pred_le_tick_followedBy next m
  rw [vowelTick_nonneg] at h
  rw [vowelTick, followedBy_onTick, followedBy_offTick]
  omega

namespace Segment

/-- The key of the pitch after the first one, which may be in the next segment. -/
def nextKey? (g : Segment) (after : List Note) (next : Option Segment) : Option Int :=
  match after with
  | m :: _ => some (g.keyOf m)
  | [] => next.bind (fun q => q.sounds.head?.map q.keyOf)

/-- The first pitch has no ticks of its own, takes in some from the segment before, and stands
before another key. -/
def Squeezed (previous : Option Segment) (g : Segment) (next : Option Segment) : Prop :=
  ∃ n after key, g.sounds = n :: after ∧ n.length = 0 ∧
    0 < restBefore previous + codaBefore previous g ∧
    g.nextKey? after next = some key ∧ key ≠ g.keyOf n

variable {previous : Option Segment} {g : Segment} {gs : List Segment}

/-! ## Morae that keep their vowel -/

theorem vowelTick_voiced (g : Segment) (ns : List Note) :
    ∀ m ∈ g.voiced ns, ∀ next, 0 ≤ (m.followedBy next).vowelTick := by
  induction ns with
  | nil => simp [voiced]
  | cons n after ih =>
      intro m hm next
      rcases List.mem_cons.mp hm with rfl | hm
      · rw [Mora.vowelTick_nonneg, Mora.followedBy_onTick, Mora.followedBy_offTick]
        exact Nat.zero_le _
      · exact ih m hm next

theorem vowelTick_codaMora (g : Segment) (ticks : Nat) (next : Option Mora) :
    0 ≤ ((g.codaMora ticks).followedBy next).vowelTick := by
  have hle := Mora.pred_le_tick_followedBy next (g.codaMora ticks)
  have hoff : (g.codaMora ticks).offTick.toNat = (g.codaMora ticks).tick.toNat - 1 :=
    Ticks.toNat_pred _
  have hon : (g.codaMora ticks).onTick.toNat = 0 := rfl
  rw [Mora.vowelTick_nonneg, Mora.followedBy_onTick, Mora.followedBy_offTick]
  omega

theorem vowelTick_coda (g : Segment) (q : Option Segment) :
    ∀ m ∈ g.coda q, ∀ next, 0 ≤ (m.followedBy next).vowelTick := by
  intro m hm next
  unfold coda at hm
  split at hm
  · cases hm
  · split at hm
    · rw [List.mem_singleton.mp hm]
      exact vowelTick_codaMora g _ next
    · split at hm
      · rw [List.mem_singleton.mp hm]
        exact vowelTick_codaMora g _ next
      · split at hm
        · cases hm
        · rw [List.mem_singleton.mp hm]
          exact vowelTick_codaMora g _ next

/-! ## First morae -/

theorem kept_eq_zero_iff {n : Note} {after : List Note} (h : g.sounds = n :: after) :
    g.kept n after = 0 ↔ n.length = 0 := by
  rw [Ticks.eq_zero_iff, kept]
  split
  · rename_i ha
    obtain rfl : after = [] := by simpa using ha
    have hle := codaTicks_le (g := g) (n := n) (by rw [h]; rfl)
    omega
  · rfl

/-- A first mora overruns its time if and only if it has no ticks of its own, has taken in some and
is refrained. -/
theorem vowelTick_opened (h : Sung previous g) {n : Note} {after : List Note}
    (hs : g.sounds = n :: after) (next : Option Mora) :
    0 ≤ ((opened previous g n after).followedBy next).vowelTick ↔
      ¬ (n.length = 0 ∧ 0 < restBefore previous + codaBefore previous g ∧
          ∃ m, next = some m ∧ m.key ≠ g.keyOf n) := by
  have hfits := h.fits n after hs
  have hkept := kept_eq_zero_iff hs
  have htick : (opened previous g n after).tick.toNat
      = g.kept n after + restBefore previous + codaBefore previous g := Ticks.toNat_ofNat hfits
  have hon : (opened previous g n after).onTick.toNat = restBefore previous :=
    Ticks.toNat_ofNat (by omega)
  have hoff : (opened previous g n after).offTick.toNat
      = min 30 (g.kept n after / 2) + codaBefore previous g := Ticks.toNat_ofNat (by omega)
  rw [Mora.vowelTick_nonneg, Mora.followedBy_onTick, Mora.followedBy_offTick, ← hkept]
  cases next with
  | none =>
      have hroom : (opened previous g n after).onTick.toNat
          + (opened previous g n after).offTick.toNat
            ≤ (opened previous g n after).tick.toNat := by omega
      simpa [Mora.followedBy] using hroom
  | some m =>
      rw [Mora.followedBy]
      by_cases hk : m.key = (opened previous g n after).key
      · rw [if_pos hk]
        constructor
        · rintro - ⟨-, -, m', hm', hne⟩
          obtain rfl : m = m' := by simpa using hm'
          exact hne hk
        · intro _
          omega
      · -- one tick is missing, which the vowel has unless all time was taken in
        rw [if_neg hk, Mora.toNat_refrained_tick]
        constructor
        · rintro hle ⟨hzero, hpos, -⟩
          omega
        · intro hnot
          have hcase : ¬ (g.kept n after = 0
              ∧ 0 < restBefore previous + codaBefore previous g) := by
            rintro ⟨hzero, hpos⟩
            exact hnot ⟨hzero, hpos, m, rfl, hk⟩
          omega

/-! ## Whole scores -/

/-- The first mora of segments has the key of their first pitch. -/
theorem head?_describe (h : AllSung previous gs) :
    (describe previous gs).head?.map (·.key)
      = gs.head?.bind (fun q => q.sounds.head?.map q.keyOf) := by
  cases gs with
  | nil => rfl
  | cons q gs =>
      cases hs : q.sounds with
      | nil => exact absurd hs h.1.sounds_ne_nil
      | cons n after => simp [describe, body, hs, opened]

/-- After a first pitch without ticks comes the mora of the next pitch: there is no coda in
between. -/
theorem head?_after {n : Note} {after : List Note} (hs : g.sounds = n :: after)
    (hzero : n.length = 0) (h : AllSung (some g) gs) :
    (g.voiced after ++ (g.coda gs.head? ++ describe (some g) gs)).head?.map (·.key)
      = g.nextKey? after gs.head? := by
  cases after with
  | cons m later => rfl
  | nil =>
      -- a note without ticks keeps none for a coda
      have hle := codaTicks_le (g := g) (n := n) (by rw [hs]; rfl)
      have hlength : n.length.toNat = 0 := Ticks.eq_zero_iff.mp hzero
      have hnone : g.codaTicks = 0 := by omega
      have hcoda : g.coda gs.head? = [] := by simp [coda, hnone]
      rw [voiced, hcoda]
      exact head?_describe h

/-- The first mora of a segment keeps its vowel exactly if the segment is not squeezed. -/
theorem vowelTick_first (h : AllSung previous (g :: gs)) {n : Note} {after : List Note}
    (hs : g.sounds = n :: after) :
    0 ≤ ((opened previous g n after).followedBy
        (g.voiced after ++ (g.coda gs.head? ++ describe (some g) gs)).head?).vowelTick ↔
      ¬ Squeezed previous g gs.head? := by
  rw [vowelTick_opened h.1 hs]
  refine not_congr ⟨?_, ?_⟩
  · rintro ⟨hzero, hpos, m, hm, hne⟩
    have hkey := head?_after hs hzero h.2
    rw [hm] at hkey
    exact ⟨n, after, m.key, hs, hzero, hpos, hkey.symm, hne⟩
  · rintro ⟨n', after', key, hs', hzero, hpos, hkey, hne⟩
    obtain ⟨rfl, rfl⟩ : n = n' ∧ after = after' := by simpa [hs] using hs'
    rw [← head?_after hs hzero h.2] at hkey
    obtain ⟨m, hm, rfl⟩ := Option.map_eq_some_iff.mp hkey
    exact ⟨hzero, hpos, m, hm, hne⟩

/-- Before the refrain every vowel has its time. -/
theorem vowelTick_describe_nonneg (h : AllSung previous gs) :
    ∀ m ∈ describe previous gs, 0 ≤ m.vowelTick := by
  induction gs generalizing previous with
  | nil => simp [describe]
  | cons g gs ih =>
      cases hs : g.sounds with
      | nil => exact absurd hs h.1.sounds_ne_nil
      | cons n after =>
          intro m hm
          simp only [describe, body, hs, List.mem_append, List.mem_cons] at hm
          rcases hm with ((rfl | hm) | hm) | hm
          · exact (vowelTick_opened h.1 hs none).mpr (by simp)
          · exact vowelTick_voiced g after m hm none
          · exact vowelTick_coda g _ m hm none
          · exact ih h.2 m hm

/-- Only the first mora of a segment can lose its vowel. -/
theorem vowelTick_cons (h : AllSung previous (g :: gs)) :
    (∀ m ∈ refrain (describe previous (g :: gs)), 0 ≤ m.vowelTick) ↔
      ¬ Squeezed previous g gs.head? ∧
        ∀ m ∈ refrain (describe (some g) gs), 0 ≤ m.vowelTick := by
  cases hs : g.sounds with
  | nil => exact absurd hs h.1.sounds_ne_nil
  | cons n after =>
      have hsplit : describe previous (g :: gs) = opened previous g n after
          :: (g.voiced after ++ (g.coda gs.head? ++ describe (some g) gs)) := by
        simp [describe, body, hs]
      -- the voiced morae and the coda keep their vowels whatever comes next
      rw [hsplit, refrain_cons, List.forall_mem_cons, vowelTick_first h hs,
        forall_mem_refrain_append _ (vowelTick_voiced g after),
        forall_mem_refrain_append _ (vowelTick_coda g _)]

/-- No vowel is cut below zero exactly if no segment is squeezed. -/
theorem vowelTick_describe (h : AllSung previous gs) :
    (∀ m ∈ refrain (describe previous gs), 0 ≤ m.vowelTick) ↔
      ∀ (i : Nat) g, gs[i]? = some g → ¬ Squeezed (before previous gs i) g gs[i + 1]? := by
  induction gs generalizing previous with
  | nil => simp [describe, refrain]
  | cons f gs ih =>
      rw [vowelTick_cons h, ih h.2, List.head?_eq_getElem?]
      constructor
      · rintro ⟨hfirst, hlater⟩ i g hg
        cases i with
        | zero =>
            obtain rfl : f = g := by simpa using hg
            exact hfirst
        | succ i =>
            rw [before_succ]
            exact hlater i g (by simpa using hg)
      · intro hall
        refine ⟨hall 0 f rfl, fun i g hg => ?_⟩
        rw [← before_succ]
        exact hall (i + 1) g (by simpa using hg)

end Segment

open Segment

/-- **The time of the vowel**: in a compiled source it is negative exactly for the first morae of
squeezed segments, and there it is one tick below zero. -/
theorem vowelTick_nonneg_iff (σ : Settings) (source : Text) (ms : List Mora)
    (h : compile σ source = .ok ms) :
    (∀ m ∈ ms, -1 ≤ m.vowelTick) ∧
      ((∀ m ∈ ms, 0 ≤ m.vowelTick) ↔
        ∀ (i : Nat) g, (segmentsOf σ source)[i]? = some g →
          ¬ Squeezed (before none (segmentsOf σ source) i) g (segmentsOf σ source)[i + 1]?) := by
  obtain ⟨hall, rfl⟩ := compile_ok h
  refine ⟨?_, vowelTick_describe hall⟩
  intro x hx
  obtain ⟨m, hm, next, rfl⟩ := mem_refrain hx
  exact Mora.vowelTick_followedBy (vowelTick_describe_nonneg hall m hm) next

/-- The second syllable begins on a note that its group leaves without ticks. It is delayed by the
tick of a rest, which the refrain then takes. -/
theorem vowelTick_negative_ka_ta :
    let source : Text := "ka ta\nc. (de)\n".toList
    let σ : Settings := { tickUnit := 1 }
    1 ≤ σ.tickUnit ∧ σ.lowestKey ≤ σ.highestKey ∧
      ∃ ms, compile σ source = .ok ms ∧ ¬ ∀ m ∈ ms, 0 ≤ m.vowelTick := by
  intro source σ
  let late : Mora :=
    { consonant := ['t'], vowel := ['a'], key := 50, tick := 0, onTick := 1, bends := [0] }
  have h : compile σ source = .ok
      [{ consonant := ['k'], vowel := ['a'], key := 48, tick := 0, bends := [0] }, late,
        { vowel := ['a'], key := 52, tick := 1 }] := by decide +kernel
  refine ⟨by decide, by decide, _, h, fun hall => ?_⟩
  have hlate : 0 ≤ late.vowelTick := hall late (by simp)
  exact absurd hlate (by decide)

/-- Where the note after a rest has a tick of its own, its vowel keeps its time. -/
theorem vowelTick_nonneg_iff_ka_ta :
    let source : Text := "ka ta\nc. (de)2\n".toList
    let σ : Settings := { tickUnit := 1 }
    ∃ ms, compile σ source = .ok ms ∧ (∀ m ∈ ms, -1 ≤ m.vowelTick) ∧
      ((∀ m ∈ ms, 0 ≤ m.vowelTick) ↔
        ∀ (i : Nat) g, (segmentsOf σ source)[i]? = some g →
          ¬ Squeezed (before none (segmentsOf σ source) i) g (segmentsOf σ source)[i + 1]?) := by
  intro source σ
  have h : compile σ source = .ok
      [{ consonant := ['k'], vowel := ['a'], key := 48, tick := 0, bends := [0] },
        { consonant := ['t'], vowel := ['a'], key := 50, tick := 1, onTick := 1, bends := [0] },
        { vowel := ['a'], key := 52, tick := 1 }] := by decide +kernel
  exact ⟨_, h, vowelTick_nonneg_iff σ source _ h⟩

end SungScore
