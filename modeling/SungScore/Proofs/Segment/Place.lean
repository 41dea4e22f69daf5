import SungScore.Proofs.Refrain
import SungScore.Proofs.Segment.Basic

set_option autoImplicit false

/-!
# Where the notes are sung

Every pitched note of a segment has a mora of its own, and these morae stand one after another
in the body. So the place of a note among all morae can be counted: it is the `place` of its
segment and its number among the pitches of the segment. There its key is found
(`key_at_place`), and the time of the last pitch (`tick_at_last_place`).
-/

namespace SungScore

namespace Segment

/-- The pitched notes, each with the settings in effect when it is fed. -/
def pitches (g : Segment) : List (Settings × Note) := g.fed.filter (fun x => x.2.isPitched)

/-- The segment before the one with the given number. -/
def before (previous : Option Segment) (gs : List Segment) : Nat → Option Segment
  | 0 => previous
  | i + 1 => gs[i]?

/-- The number of morae that stand before the segment with the given number. -/
def place : List Segment → Nat → Nat
  | g :: gs, i + 1 => g.sounds.length + (g.coda gs.head?).length + place gs i
  | _, _ => 0

@[simp] theorem place_zero (gs : List Segment) : place gs 0 = 0 := by
  cases gs <;> rfl

variable {previous : Option Segment} {g : Segment} {gs : List Segment} {i j : Nat}

/-! ## Bodies -/

theorem length_body (previous : Option Segment) (g : Segment) :
    (body previous g).length = g.sounds.length := by
  have h := congrArg List.length (map_key_body previous g)
  simpa using h

/-- A segment sounds just its pitched notes. -/
theorem marks_sounds (h : Sung previous g) :
    g.sounds.map Note.mark = g.pitches.map (fun x => x.2.mark) := by
  have hruns := Note.pitches_runs h.runs_eq
  rw [notes, List.filter_map, List.map_map] at hruns
  exact hruns

theorem keyOf_eq (hn : ∀ n ∈ g.sounds, n.isPitched = true) {n : Note} (h : n ∈ g.sounds) :
    n.key? g.settings = some (g.keyOf n) := by
  obtain ⟨key, hkey⟩ := Note.key?_of_isPitched g.settings (hn n h)
  rw [keyOf, hkey]
  rfl

/-- The mora of a pitched note has its key under the settings of the segment. -/
theorem key_body (h : Sung previous g) {x : Settings × Note} (hx : g.pitches[j]? = some x) :
    j < g.sounds.length ∧ ((body previous g)[j]?).map (·.key) = x.2.key? g.settings := by
  have hmark : (g.sounds[j]?).map Note.mark = some x.2.mark := by
    rw [← List.getElem?_map, marks_sounds h, List.getElem?_map, hx]
    rfl
  obtain ⟨n, hn, hnx⟩ := Option.map_eq_some_iff.mp hmark
  have hmem : n ∈ g.sounds := List.mem_of_getElem? hn
  refine ⟨(List.getElem?_eq_some_iff.mp hn).1, ?_⟩
  rw [← Note.key?_eq_of_mark_eq g.settings hnx, keyOf_eq h.pitched hmem, ← List.getElem?_map,
    map_key_body, List.getElem?_map, hn]
  rfl

theorem bends_body (previous : Option Segment) (g : Segment) :
    ∀ m ∈ body previous g, m.bends = [] := by
  have hvoiced : ∀ ns, ∀ m ∈ g.voiced ns, m.bends = [] := by
    intro ns
    induction ns with
    | nil => simp [voiced]
    | cons n after ih => simpa [voiced] using ih
  rw [body]
  split
  · simp
  · rename_i n after _
    simpa [opened] using hvoiced after

/-! ## The last pitch -/

/-- At most the whole of the last pitch is kept for the coda. -/
theorem codaTicks_le {n : Note} (h : g.sounds.getLast? = some n) :
    g.codaTicks ≤ n.length.toNat / 2 := by
  rw [codaTicks, h]
  dsimp only
  split
  · exact Nat.min_le_right _ _
  · exact Nat.zero_le _

/-- What the mora of the last pitch takes in, if it is the first one as well. -/
def takenByLast (previous : Option Segment) (g : Segment) : Nat :=
  if g.sounds.length = 1 then restBefore previous + codaBefore previous g else 0

theorem getLast?_voiced (g : Segment) (ns : List Note) :
    (g.voiced ns).getLast? = ns.getLast?.map (fun n =>
      { vowel := g.syllable.vowel, key := g.keyOf n, tick := .ofNat (g.kept n []) }) := by
  induction ns with
  | nil => rfl
  | cons n after ih =>
      rw [voiced, List.getLast?_cons, ih, List.getLast?_cons]
      cases hl : after.getLast? with
      | none =>
          obtain rfl : after = [] := List.getLast?_eq_none_iff.mp hl
          rfl
      | some m => rfl

/-- The mora of the last pitch gives up the ticks of the coda. -/
theorem tick_last_body (h : Sung previous g) {n : Note} (hn : g.sounds.getLast? = some n) :
    ∃ m, (body previous g).getLast? = some m ∧
      m.tick.toNat + g.codaTicks = n.length.toNat + takenByLast previous g := by
  have hcoda := codaTicks_le hn
  have hkept : g.kept n [] = n.length.toNat - g.codaTicks := rfl
  cases hs : g.sounds with
  | nil => exact absurd hs h.sounds_ne_nil
  | cons first after =>
      rw [body, takenByLast, hs]
      cases after with
      | nil =>
          -- the only pitch is the opened one, with all that it takes in
          obtain rfl : first = n := by simpa [hs] using hn
          have hfits := h.fits first [] hs
          refine ⟨opened previous g first [], rfl, ?_⟩
          have hone : [first].length = 1 := rfl
          rw [if_pos hone]
          show (UInt32.ofNat _).toNat + _ = _
          rw [Ticks.toNat_ofNat hfits]
          omega
      | cons next later =>
          have hlast : (next :: later).getLast? = some n := by
            rw [← hn, hs, List.getLast?_cons_cons]
          refine ⟨{ vowel := g.syllable.vowel, key := g.keyOf n, tick := .ofNat (g.kept n []) },
            ?_, ?_⟩
          · show (opened previous g first (next :: later) :: g.voiced (next :: later)).getLast? = _
            rw [voiced, List.getLast?_cons_cons, ← voiced, getLast?_voiced, hlast]
            rfl
          · have hlt := n.length.toNat_lt
            rw [if_neg (by simp)]
            show (UInt32.ofNat _).toNat + _ = _
            rw [Ticks.toNat_ofNat (by omega)]
            omega

/-! ## Segments in their order -/

theorem before_succ (f : Segment) (gs : List Segment) (i : Nat) :
    before previous (f :: gs) (i + 1) = before (some f) gs i := by
  cases i <;> rfl

theorem AllSung.getElem? (h : AllSung previous gs) (hg : gs[i]? = some g) :
    Sung (before previous gs i) g := by
  induction gs generalizing previous i with
  | nil => cases hg
  | cons f gs ih =>
      obtain ⟨hf, hgs⟩ := h
      cases i with
      | zero =>
          obtain rfl : f = g := by simpa using hg
          exact hf
      | succ i =>
          rw [before_succ]
          exact ih hgs (by simpa using hg)

/-- The body of a segment is at its place. -/
theorem getElem?_describe (hg : gs[i]? = some g) (hj : j < g.sounds.length) :
    (describe previous gs)[place gs i + j]? = (body (before previous gs i) g)[j]? := by
  induction gs generalizing previous i with
  | nil => cases hg
  | cons f gs ih =>
      have hlength := length_body previous f
      cases i with
      | zero =>
          obtain rfl : f = g := by simpa using hg
          rw [describe, place_zero, before, List.append_assoc,
            List.getElem?_append_left (by omega), Nat.zero_add]
      | succ i =>
          -- the place counts the body and the coda of the first segment
          rw [describe, place, before_succ, List.getElem?_append_right
            (by rw [List.length_append]; omega), ← ih (by simpa using hg)]
          congr 1
          rw [List.length_append]
          omega

/-- **The place of a note**: there its key stands, under the settings with which its segment is
finished. -/
theorem key_at_place (h : AllSung previous gs) (hg : gs[i]? = some g) {x : Settings × Note}
    (hx : g.pitches[j]? = some x) :
    ((refrain (describe previous gs))[place gs i + j]?).map (·.key) = x.2.key? g.settings := by
  obtain ⟨hj, hkey⟩ := key_body (h.getElem? hg) hx
  rw [← List.getElem?_map, map_key_refrain, List.getElem?_map, getElem?_describe hg hj, hkey]

/-- **The time of a last pitch**: its mora lasts as long as the note with what is taken in, less
the ticks of the coda and the one that the refrain takes. -/
theorem tick_at_last_place (h : AllSung previous gs) (hg : gs[i]? = some g) {n : Note}
    (hn : g.sounds.getLast? = some n) :
    ∃ m, (refrain (describe previous gs))[place gs i + (g.sounds.length - 1)]? = some m ∧
      m.tick.toNat + (if m.bends.isEmpty then 0 else 1) + g.codaTicks
        = n.length.toNat + takenByLast (before previous gs i) g := by
  have hsung := h.getElem? hg
  obtain ⟨m, hm, htick⟩ := tick_last_body hsung hn
  have hlast : (describe previous gs)[place gs i + (g.sounds.length - 1)]? = some m := by
    have hpos : g.sounds.length ≠ 0 := by simpa using hsung.sounds_ne_nil
    rw [getElem?_describe hg (by omega), ← hm, List.getLast?_eq_getElem?, length_body]
  let next := (describe previous gs)[place gs i + (g.sounds.length - 1) + 1]?
  have hrefrain := Mora.tick_followedBy next (bends_body _ g m (List.mem_of_getLast? hm))
  refine ⟨m.followedBy next, ?_, ?_⟩
  · rw [getElem?_refrain, hlast]
    rfl
  · omega

end Segment

end SungScore
