import SungScore.Proofs.Melody.Arrangement

set_option autoImplicit false

/-!
# How long a melody line lasts

A note outside groups lasts one beat, and the notes of a group together last the beats that are written
behind it (`Melody.lasts_as_written`).
-/

namespace SungScore

instance (ts : List Token) : Decidable (Token.GroupOpen ts) :=
  inferInstanceAs (Decidable (_ = some Token.opening))

/-- The beats of the group that a token closes. -/
def Token.beats? : Token → Option Nat
  | .closing beats => some (beatsOf beats)
  | _ => none

theorem Token.beats?_eq_none {t : Token} (h : t.isParenthesis = false) : t.beats? = none := by
  cases t <;> first | rfl | cases h

namespace Lexeme

/-- The tokens that stand outside groups, where others stand before them. -/
def outsideBehind (before : List Token) : List Lexeme → List Lexeme
  | [] => []
  | x :: xs =>
      let later := outsideBehind (before ++ [x.token]) xs
      if Token.GroupOpen before then later else x :: later

/-- The tokens of a line that stand outside groups. -/
def outside (xs : List Lexeme) : List Lexeme := outsideBehind [] xs

/-- The beats that tokens last: one for every note outside groups, and those of the groups. -/
def beatsBehind (before : List Token) (xs : List Lexeme) : Nat :=
  (outsideBehind before xs).countP (·.token.isNote) + (xs.filterMap (·.token.beats?)).sum

variable {before : List Token} {x : Lexeme} {xs : List Lexeme}

theorem beatsBehind_cons (before : List Token) (x : Lexeme) (xs : List Lexeme) :
    beatsBehind before (x :: xs)
      = beatsBehind before [x] + beatsBehind (before ++ [x.token]) xs := by
  have hbeats : ((x :: xs).filterMap (·.token.beats?)).sum
      = ([x].filterMap (·.token.beats?)).sum + (xs.filterMap (·.token.beats?)).sum := by
    rw [← List.sum_append, ← List.filterMap_append, List.singleton_append]
  have houtside : outsideBehind before (x :: xs)
      = outsideBehind before [x] ++ outsideBehind (before ++ [x.token]) xs := by
    rw [outsideBehind, outsideBehind]
    split_ifs <;> rfl
  rw [beatsBehind, beatsBehind, beatsBehind, hbeats, houtside, List.countP_append]
  omega

/-- A note in a group adds nothing to the line by itself, and one outside adds a beat. -/
theorem beatsBehind_note (hnote : x.token.isNote = true) (hparen : x.token.isParenthesis = false) :
    beatsBehind before [x] = if Token.GroupOpen before then 0 else 1 := by
  rw [beatsBehind, outsideBehind]
  split_ifs <;> simp [outsideBehind, hnote, Token.beats?_eq_none hparen]

theorem beatsBehind_of_not_isNote (hnote : x.token.isNote = false) :
    beatsBehind before [x] = x.token.beats?.getD 0 := by
  have hcount : (outsideBehind before [x]).countP (·.token.isNote) = 0 := by
    rw [outsideBehind]
    split_ifs <;> simp [outsideBehind, hnote]
  rw [beatsBehind, hcount, Nat.zero_add]
  cases hbeats : x.token.beats? <;> simp [hbeats]

end Lexeme

namespace Voice

variable {unit : Ticks} {line : Nat} {octave : Int} {before : List Token} {x : Lexeme}
  {xs : List Lexeme} {v v' : Voice} {now ns : List Note}

/-- What a token adds to the melody lasts the beats that it adds to the line. -/
theorem Takes.total_eq (hv : Behind octave before v) (h : Takes unit x v now v') :
    Note.total now = unit.toNat * Lexeme.beatsBehind before [x] := by
  cases h with
  | note hkind _ hgroup =>
      obtain ⟨hnote, hparen⟩ := Token.of_kind? hkind
      rw [Lexeme.beatsBehind_note hnote hparen, if_neg (hv.not_groupOpen hgroup)]
      simp
  | member hkind _ hgroup =>
      obtain ⟨hnote, hparen⟩ := Token.of_kind? hkind
      rw [Lexeme.beatsBehind_note hnote hparen, if_pos (hv.groupOpen hgroup)]
      rfl
  | shift hshift =>
      obtain ⟨hnote, hparen⟩ := Token.of_isShift hshift
      rw [Lexeme.beatsBehind_of_not_isNote hnote, Token.beats?_eq_none hparen]
      rfl
  | opening htoken =>
      rw [Lexeme.beatsBehind_of_not_isNote (by rw [htoken]; rfl), htoken]
      rfl
  | @closing beats g time htoken _ hmembers htime =>
      obtain ⟨-, -, hlasts⟩ := time?_eq_some.mp htime
      have hne : g.members.toList ≠ [] := by
        simpa [Array.isEmpty, Array.size_eq_zero_iff] using hmembers
      rw [Lexeme.beatsBehind_of_not_isNote (by rw [htoken]; rfl), htoken, total_subdivide hne,
        hlasts, Nat.mul_comm]
      rfl

theorem Behind.total_run (hv : Behind octave before v)
    (h : Voice.run unit line xs v = .ok ns v') :
    Note.total ns = unit.toNat * Lexeme.beatsBehind before xs := by
  induction xs generalizing before v ns with
  | nil =>
      cases h
      rfl
  | cons x xs ih =>
      obtain ⟨now, v₁, later, hstep, hrun, rfl⟩ := run_cons_ok.mp h
      have htakes := step_ok.mp hstep
      rw [Note.total_append, htakes.total_eq hv, ih (hv.takes htakes) hrun,
        Lexeme.beatsBehind_cons before x xs, Nat.mul_add]

/-- A note outside groups is given at once. -/
theorem Takes.note_of_isNote (hv : Behind octave before v) (h : Takes unit x v now v')
    (hopen : ¬ Token.GroupOpen before) (hnote : x.token.isNote = true) :
    ∃ kind, now = [⟨kind, unit, x.column⟩] := by
  cases h with
  | note => exact ⟨_, rfl⟩
  | member _ _ hgroup => exact absurd (hv.groupOpen hgroup) hopen
  | shift hshift =>
      rw [(Token.of_isShift hshift).1] at hnote
      cases hnote
  | opening htoken =>
      rw [htoken] at hnote
      cases hnote
  | closing htoken =>
      rw [htoken] at hnote
      cases hnote

/-- Notes outside groups last one beat. -/
theorem Behind.exists_mem_run (hv : Behind octave before v)
    (h : Voice.run unit line xs v = .ok ns v') (hx : x ∈ Lexeme.outsideBehind before xs)
    (hnote : x.token.isNote = true) : ∃ n ∈ ns, n.column = x.column ∧ n.length = unit := by
  induction xs generalizing before v ns with
  | nil => cases hx
  | cons y ys ih =>
      obtain ⟨now, v₁, later, hstep, hrun, rfl⟩ := run_cons_ok.mp h
      have htakes := step_ok.mp hstep
      have hlater : x ∈ Lexeme.outsideBehind (before ++ [y.token]) ys →
          ∃ n ∈ now ++ later, n.column = x.column ∧ n.length = unit := by
        intro hx
        obtain ⟨n, hn, hlike⟩ := ih (hv.takes htakes) hrun hx
        exact ⟨n, List.mem_append_right now hn, hlike⟩
      -- the token itself, or one of those behind it
      rw [Lexeme.outsideBehind] at hx
      split at hx
      · exact hlater hx
      · rename_i hopen
        rcases List.mem_cons.mp hx with rfl | hx
        · obtain ⟨kind, rfl⟩ := htakes.note_of_isNote hv hopen hnote
          exact ⟨_, List.mem_append_left later (List.mem_singleton_self _), rfl, rfl⟩
        · exact hlater hx

end Voice

namespace Melody

/-- **A melody line lasts as long as it is written**: a beat for every note outside groups, and for every
group its beats. A note outside groups is the only one at its column and lasts one beat. -/
theorem lasts_as_written {unit : Ticks} {line : Nat} {text : Text} {octave octave' : Int}
    {xs : List Lexeme} {ns : List Note} (hcut : Lexeme.Cut 1 text xs)
    (h : read unit line text octave = .ok ns octave') :
    Note.total ns = unit.toNat * ((Lexeme.outside xs).countP (·.token.isNote)
        + (xs.filterMap (·.token.beats?)).sum) ∧
      ∀ x ∈ Lexeme.outside xs, x.token.isNote = true →
        ∃ n ∈ ns, n.column = x.column ∧ n.length = unit ∧
          ∀ m ∈ ns, m.column = x.column → m = n := by
  obtain rfl := Lexeme.cut_iff.mp hcut
  have hv := Voice.behind_nil octave
  refine ⟨hv.total_run (read_ok.mp h), fun x hx hnote => ?_⟩
  obtain ⟨n, hn, hcolumn, hlength⟩ := hv.exists_mem_run (read_ok.mp h) hx hnote
  exact ⟨n, hn, hcolumn, hlength, fun m hm hsame =>
    eq_of_column_eq (ascending_read h) hm hn (hsame.trans hcolumn.symm)⟩

/-- Two notes outside groups, a group of two beats and one without any number. -/
theorem lasts_as_written_c_des_r :
    ∃ ns octave', read 25 1 "c(des -<a)2 r(his)0".toList 4 = .ok ns octave' ∧
      Note.total ns = 25 * (2 + (2 + 1)) := by
  have hnotes : (read 25 1 "c(des -<a)2 r(his)0".toList).run' 4 = some
      [⟨.pitched ⟨.c, .natural⟩ 4, 25, 1⟩, ⟨.pitched ⟨.d, .flat⟩ 4, 17, 3⟩, ⟨.tie, 16, 7⟩,
        ⟨.pitched ⟨.a, .natural⟩ 5, 17, 9⟩, ⟨.rest, 25, 13⟩,
        ⟨.pitched ⟨.h, .sharp⟩ 5, 25, 15⟩] := by
    decide +kernel
  obtain ⟨octave', hok⟩ := exists_ok_of_run' hnotes
  refine ⟨_, octave', hok, (lasts_as_written (Lexeme.cut_iff.mpr rfl) hok).1.trans ?_⟩
  decide +kernel

end Melody

end SungScore
