import SungScore.Proofs.Melody.Step
import SungScore.Proofs.Melody.Token

set_option autoImplicit false

/-!
# Places of notes

A melody line gives its notes in the order of their columns, also where a group holds them back
until it is closed (`Melody.ascending_read`). Where the line is written does not matter: in other
columns and under another line number it gives the same notes and the same fault, at the places that
it was moved to (`Voice.run_moved`). A line that is written behind another one is read with the octave
that the other one leaves (`Melody.read_append`), and with the same notes or the same fault as by itself
(`Melody.read_behind`).
-/

namespace SungScore

/-- The note in another column. -/
def Note.moved (g : Nat → Nat) (n : Note) : Note := { n with column := g n.column }

theorem Note.map_moved_id (ns : List Note) : ns.map (.moved id) = ns := List.map_id ns

theorem shareAmong_moved (g : Nat → Nat) (time : Ticks) (count : Nat) (ns : List Note) :
    shareAmong time count (ns.map (.moved g)) = (shareAmong time count ns).map (.moved g) := by
  fun_induction shareAmong time count ns with
  | case1 => rfl
  | case2 => rfl
  | case3 time count n ns hne length ih =>
      cases ns with
      | nil => exact absurd rfl hne
      | cons m ms =>
          have hcons : shareAmong time count ((n :: m :: ms).map (.moved g))
              = Note.moved g { n with length } :: shareAmong (time - length) (count - 1)
                  ((m :: ms).map (.moved g)) := rfl
          rw [hcons, ih, List.map_cons]

namespace Voice

variable {unit : Ticks} {line : Nat} {x : Lexeme} {xs ys : List Lexeme} {v v' w : Voice}
  {now ns : List Note}

/-! ## Other places -/

/-- The voice with all that it remembers in other columns. -/
def moved (g : Nat → Nat) (v : Voice) : Voice :=
  { v with group := v.group.map (fun G => ⟨G.opening.moved g, G.members.map (.moved g)⟩) }

/-- The result of reading with the notes in other columns and a fault at another place. -/
def movedResult (f g : Nat → Nat) :
    EStateM.Result Fault Voice (List Note) → EStateM.Result Fault Voice (List Note)
  | .ok ns v => .ok (ns.map (.moved g)) (v.moved g)
  | .error e v => .error (e.moved f g) (v.moved g)

variable (f g : Nat → Nat)

theorem place_moved (n : Note) (v : Voice) :
    place (n.moved g) (v.moved g) = movedResult f g (place n v) := by
  unfold place moved
  cases hg : v.group with
  | none => simp [movedResult, moved, hg]
  | some G => simp [movedResult, moved]

theorem setOctave_moved (octave : Int) (e : Fault) (v : Voice) :
    setOctave octave (e.moved f g) (v.moved g) = movedResult f g (setOctave octave e v) := by
  unfold setOctave
  cases signed? octave <;> rfl

theorem step_moved (unit : Ticks) (line : Nat) (x : Lexeme) (v : Voice) :
    step unit (f line) (x.moved g) (v.moved g) = movedResult f g (step unit line x v) := by
  have hsound : ∀ kind, place ⟨kind, unit, g x.column⟩ (v.moved g)
      = movedResult f g (place ⟨kind, unit, x.column⟩ v) :=
    fun kind => place_moved f g ⟨kind, unit, x.column⟩ v
  unfold step
  rw [show (x.moved g).token = x.token from rfl]
  cases hx : x.token with
  | pitch p octave =>
      cases octave with
      | none => exact hsound _
      | some octave =>
          dsimp only
          cases signed? octave with
          | none => rfl
          | some octave => exact hsound _
  | octave number => exact setOctave_moved f g number (x.unrecognizable line) v
  | raise => exact setOctave_moved f g (v.octave + 1) (x.misplaced line .octaveOutOfRange) v
  | lower => exact setOctave_moved f g (v.octave - 1) (x.misplaced line .octaveOutOfRange) v
  | tie => exact hsound _
  | rest => exact hsound _
  | opening =>
      cases hg : v.group with
      | none => simp [moved, movedResult, hg]
      | some G =>
          simp only [moved, hg, Option.map_some, movedResult]
          rfl
  | closing beats =>
      cases hg : v.group with
      | none =>
          simp only [moved, hg, Option.map_none, movedResult]
          rfl
      | some G =>
          have hsome : (v.moved g).group = some ⟨G.opening.moved g, G.members.map (.moved g)⟩ := by
            rw [moved, hg, Option.map_some]
          have hempty : (G.members.map (Note.moved g)).isEmpty = G.members.isEmpty := by
            simp [Array.isEmpty]
          simp only [hsome, hempty]
          split
          · rfl
          · cases time? unit beats with
            | none => rfl
            | some time => simp [movedResult, moved, subdivide, shareAmong_moved]

theorem run_moved (unit : Ticks) (line : Nat) (xs : List Lexeme) (v : Voice) :
    run unit (f line) (xs.map (.moved g)) (v.moved g) = movedResult f g (run unit line xs v) := by
  induction xs generalizing v with
  | nil => rfl
  | cons x xs ih =>
      rw [List.map_cons, run, run]
      simp only [bind, EStateM.bind, step_moved]
      cases step unit line x v with
      | error e v₁ => rfl
      | ok now v₁ =>
          simp only [movedResult, ih]
          cases run unit line xs v₁ with
          | error e v₂ => rfl
          | ok later v₂ => simp [pure, EStateM.pure]

/-! ## A longer line -/

/-- The voice with more of the line behind it. -/
def followed (more : Text) (v : Voice) : Voice :=
  { v with group := v.group.map (fun G => ⟨G.opening.followed more, G.members⟩) }

variable (more : Text)

theorem group_followed_none (h : v.group = none) : (v.followed more).group = none := by
  rw [followed, h]
  rfl

theorem group_followed_some {g : Group} (h : v.group = some g) :
    (v.followed more).group = some ⟨g.opening.followed more, g.members⟩ := by
  rw [followed, h]
  rfl

/-- What a token quotes matters for its fault only. -/
theorem Takes.followed (h : Takes unit x v now v') :
    Takes unit (x.followed more) (v.followed more) now (v'.followed more) := by
  cases h with
  | note hkind hfits hgroup => exact .note hkind hfits (group_followed_none more hgroup)
  | member hkind hfits hgroup =>
      have hmember : Takes unit (x.followed more) (v.followed more) [] _ :=
        .member hkind hfits (group_followed_some more hgroup)
      exact hmember
  | shift hshift hfits => exact .shift hshift hfits
  | opening htoken hgroup => exact .opening htoken (group_followed_none more hgroup)
  | closing htoken hgroup hmembers htime =>
      have hclosing : Takes unit (x.followed more) (v.followed more) _ _ :=
        .closing htoken (group_followed_some more hgroup) hmembers htime
      exact hclosing

theorem run_followed (h : run unit line xs v = .ok ns v') :
    run unit line (xs.map (.followed more)) (v.followed more) = .ok ns (v'.followed more) := by
  induction xs generalizing v ns with
  | nil =>
      cases h
      rfl
  | cons x xs ih =>
      obtain ⟨now, v₁, later, hstep, hrun, rfl⟩ := run_cons_ok.mp h
      have htakes := (step_ok.mp hstep).followed more
      exact run_cons_ok.mpr ⟨now, v₁.followed more, later, step_ok.mpr htakes, ih hrun, rfl⟩

end Voice

/-! ## The line -/

namespace Melody

variable {unit : Ticks} {line : Nat} {text : Text} {octave octave' : Int} {ns : List Note}

/-- The result of a line from the one of its tokens: all groups have to be closed. -/
def ended (line : Nat) :
    EStateM.Result Fault Voice (List Note) → EStateM.Result Fault Int (List Note)
  | .error e v => .error e v.octave
  | .ok notes v =>
      match v.group with
      | none => .ok notes v.octave
      | some g => .error (g.opening.misplaced line .unclosedGroup) v.octave

theorem read_eq (unit : Ticks) (line : Nat) (text : Text) (octave : Int) :
    read unit line text octave
      = ended line (Voice.run unit line (Lexeme.scan text) { octave }) := by
  unfold read ended
  cases Voice.run unit line (Lexeme.scan text) { octave } <;> rfl

theorem read_ok :
    read unit line text octave = .ok ns octave' ↔
      Voice.run unit line (Lexeme.scan text) { octave } = .ok ns { octave := octave' } := by
  rw [read_eq]
  cases Voice.run unit line (Lexeme.scan text) { octave } with
  | error e v => simp [ended]
  | ok notes v =>
      obtain ⟨o, group⟩ := v
      cases group <;> simp [ended]

/-- A line gives the notes that its tokens stand for, and leaves the octave that they lead to. -/
theorem marks_read (h : read unit line text octave = .ok ns octave') :
    ns.map Note.mark = Lexeme.written octave (Lexeme.scan text) ∧
      octave' = Token.octaveAfter octave ((Lexeme.scan text).map (·.token)) := by
  obtain ⟨hmarks, hoctave⟩ := Voice.marks_run (read_ok.mp h)
  exact ⟨by simpa [Voice.heldMarks] using hmarks, hoctave⟩

/-- The notes of a line stand at columns of its tokens, in the same order. -/
theorem columns_read (h : read unit line text octave = .ok ns octave') :
    (ns.map (·.column)).Sublist ((Lexeme.scan text).map (·.column)) := by
  have hcolumns := Lexeme.columns_written octave (Lexeme.scan text)
  rw [← (marks_read h).1, List.map_map] at hcolumns
  exact hcolumns

/-- The notes of a line ascend. -/
theorem ascending_read (h : read unit line text octave = .ok ns octave') :
    Ascending (ns.map (·.column)) :=
  (Lexeme.ascending_scan text).sublist (columns_read h)

/-- The notes of a line are within it. -/
theorem column_of_mem_read {n : Note} (h : read unit line text octave = .ok ns octave')
    (hn : n ∈ ns) : 1 ≤ n.column ∧ n.column ≤ text.length := by
  have hmem := (columns_read h).subset (List.mem_map_of_mem hn)
  obtain ⟨x, hx, hcolumn⟩ := List.mem_map.mp hmem
  rw [← hcolumn]
  exact Lexeme.column_of_mem_scan hx

/-- The result of a line with its notes in other columns and its fault at another place. -/
def movedResult (f g : Nat → Nat) :
    EStateM.Result Fault Int (List Note) → EStateM.Result Fault Int (List Note)
  | .ok ns octave => .ok (ns.map (.moved g)) octave
  | .error e octave => .error (e.moved f g) octave

theorem ended_moved (f g : Nat → Nat) (line : Nat) (r : EStateM.Result Fault Voice (List Note)) :
    ended (f line) (Voice.movedResult f g r) = movedResult f g (ended line r) := by
  cases r with
  | error e v => rfl
  | ok notes v =>
      obtain ⟨o, group⟩ := v
      cases group <;> rfl

/-- The line of a melody line only names the place of its fault. -/
theorem read_moved (f : Nat → Nat) (unit : Ticks) (line : Nat) (text : Text) (octave : Int) :
    read unit (f line) text octave = movedResult f id (read unit line text octave) := by
  have hrun := Voice.run_moved f id unit line (Lexeme.scan text) { octave }
  have hsame : (Lexeme.scan text).map (.moved id) = Lexeme.scan text := List.map_id _
  rw [hsame] at hrun
  rw [read_eq, read_eq, ← ended_moved, ← hrun]
  rfl

/-- **A melody line behind another one**, with blanks in between, is read with the octave that the
other one leaves. -/
theorem read_append {gap a : Text} (hgap : gap.allBlank = true) (hne : gap ≠ [])
    (ha : read unit line a octave = .ok ns octave') (b : Text) :
    read unit line (a ++ (gap ++ b)) octave
      = (match movedResult id (· + (a ++ gap).length) (read unit line b octave') with
        | .ok ns' octave'' => .ok (ns ++ ns') octave''
        | .error e octave'' => .error e octave'') := by
  have hfirst := Voice.run_followed (gap ++ b) (read_ok.mp ha)
  have hsecond := Voice.run_moved id (· + (a ++ gap).length) unit line (Lexeme.scan b)
    { octave := octave' }
  rw [read_eq unit line b, ← ended_moved, ← hsecond, read_eq, Lexeme.scan_append hgap hne,
    Voice.run_append]
  -- between the two lines no group is open, so that nothing is remembered but the octave
  simp only [bind, EStateM.bind]
  rw [show ({ octave } : Voice) = Voice.followed (gap ++ b) { octave } from rfl, hfirst]
  dsimp only [Voice.followed, Voice.moved, Option.map_none, id_eq]
  cases Voice.run unit line ((Lexeme.scan b).map (.moved (· + (a ++ gap).length)))
      { octave := octave' } with
  | error e v => rfl
  | ok later v =>
      obtain ⟨o, group⟩ := v
      cases group <;> rfl

/-- **A longer line is read part by part.** Behind a line that is read, with blanks in between, another
one is read exactly if it is read by itself, in the octave that the first one leaves. Then its notes
stand behind those of the first one and it leaves the octave that it leaves by itself; otherwise it has
the fault that it has by itself. Both stand at their columns behind the first line and the blanks. -/
theorem read_behind {gap a : Text} (hgap : gap.allBlank = true) (hne : gap ≠ [])
    (ha : read unit line a octave = .ok ns octave') (b : Text) :
    ((∃ ms o, read unit line (a ++ (gap ++ b)) octave = .ok ms o)
        ↔ ∃ ns' o, read unit line b octave' = .ok ns' o) ∧
      (∀ ns' o, read unit line b octave' = .ok ns' o →
        read unit line (a ++ (gap ++ b)) octave
          = .ok (ns ++ ns'.map (.moved (· + (a ++ gap).length))) o) ∧
      ∀ e o, read unit line b octave' = .error e o →
        read unit line (a ++ (gap ++ b)) octave = .error (e.moved id (· + (a ++ gap).length)) o := by
  rw [read_append hgap hne ha b]
  cases read unit line b octave' with
  | ok ns' o =>
      refine ⟨⟨fun _ => ⟨ns', o, rfl⟩, fun _ => ⟨_, o, rfl⟩⟩, fun ms o' h => ?_, fun e o' h => ?_⟩
      · cases h
        rfl
      · cases h
  | error e o =>
      refine ⟨⟨?_, ?_⟩, fun ms o' h => ?_, fun e' o' h => ?_⟩
      · rintro ⟨ms, o', h⟩
        cases h
      · rintro ⟨ms, o', h⟩
        cases h
      · cases h
      · cases h
        rfl

/-- The octave that is set in front of the blanks is in effect behind them. -/
theorem read_behind_o5c_d :
    ∃ o, read 220 1 ("o5c".toList ++ (" \t".toList ++ "d".toList)) 4
      = .ok [⟨.pitched ⟨.c, .natural⟩ 5, 220, 3⟩, ⟨.pitched ⟨.d, .natural⟩ 5, 220, 6⟩] o := by
  have hfirst : (read 220 1 "o5c".toList).run' 4
      = some [⟨.pitched ⟨.c, .natural⟩ 5, 220, 3⟩] := by decide +kernel
  have hsecond : (read 220 1 "d".toList).run' 5
      = some [⟨.pitched ⟨.d, .natural⟩ 5, 220, 1⟩] := by decide +kernel
  obtain ⟨octave', ha⟩ := exists_ok_of_run' hfirst
  obtain rfl : octave' = 5 := (marks_read ha).2.trans (by decide +kernel)
  obtain ⟨o, hb⟩ := exists_ok_of_run' hsecond
  exact ⟨o, (read_behind (by decide) (by decide) ha "d".toList).2.1 _ o hb⟩

end Melody

end SungScore
