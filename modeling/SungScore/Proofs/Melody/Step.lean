import SungScore.Melody.Voice
import SungScore.Proofs.Melody.Subdivision
import SungScore.Proofs.Steps

set_option autoImplicit false

/-!
# What tokens do to the voice

A token of a melody line either stands for a note, or changes the octave, or is a parenthesis. What it
does to the voice is said once, by `Voice.Takes`, and all that is known of a step that succeeds follows
from `Voice.step_ok`. So tokens give the notes that they stand for, in their order and each in the octave
that is in effect where it is written (`Voice.marks_run`).
-/

namespace SungScore

/-! ## Numbers in range -/

/-- The octaves that can be counted. -/
def InOctaves (octave : Int) : Prop := -2147483648 ≤ octave ∧ octave ≤ 2147483647

theorem signed?_eq_some {n m : Int} : signed? n = some m ↔ InOctaves n ∧ m = n := by
  unfold signed? InOctaves
  split_ifs with h
  · simp [h, eq_comm]
  · simp [h]

theorem unsigned?_eq_some_iff {v : Int} {t : UInt32} :
    unsigned? v = some t ↔ (0 ≤ v ∧ v ≤ 4294967295) ∧ (t.toNat : Int) = v := by
  unfold unsigned?
  by_cases h : 0 ≤ v ∧ v ≤ 4294967295
  · have htoNat : (UInt32.ofNat v.toNat).toNat = v.toNat := Ticks.toNat_ofNat (by omega)
    rw [if_pos h, Option.some_inj, ← UInt32.toNat_inj, htoNat]
    omega
  · rw [if_neg h]
    simp [h]

theorem unsigned?_eq_some {n : Nat} {t : Ticks} :
    unsigned? n = some t ↔ n ≤ 4294967295 ∧ t.toNat = n := by
  rw [unsigned?_eq_some_iff]
  omega

namespace Token

/-! ## Kinds of tokens -/

/-- What a token stands for if it is one of a note, in the given octave. -/
def kind? (octave : Int) : Token → Option NoteKind
  | .pitch p none => some (.pitched p octave)
  | .pitch p (some own) => some (.pitched p own)
  | .tie => some .tie
  | .rest => some .rest
  | _ => none

/-- The octave behind a token. -/
def octaveBehind (octave : Int) : Token → Int
  | .octave number => number
  | .raise => octave + 1
  | .lower => octave - 1
  | _ => octave

/-- The octave that a token names or goes to, from the given one, can be counted. -/
def OctaveFits (octave : Int) : Token → Prop
  | .pitch _ (some own) => InOctaves own
  | .octave number => InOctaves number
  | .raise => InOctaves (octave + 1)
  | .lower => InOctaves (octave - 1)
  | _ => True

/-- Whether a token changes the octave. -/
def isShift : Token → Bool
  | .octave _ | .raise | .lower => true
  | _ => false

/-- The octave behind tokens. -/
def octaveAfter (octave : Int) (ts : List Token) : Int := ts.foldl octaveBehind octave

/-- The number of beats of a group: one if none or zero is written behind it. -/
def beatsOf : Option Nat → Nat
  | none | some 0 => 1
  | some beats => beats

end Token

namespace Lexeme

/-- The kind and the column of the note that a token stands for, in the given octave. -/
def mark? (octave : Int) (x : Lexeme) : Option (NoteKind × Nat) :=
  (x.token.kind? octave).map (fun kind => (kind, x.column))

/-- The kinds and the columns of the notes that tokens stand for, from left to right. The octave is
the one in effect before them. -/
def written (octave : Int) : List Lexeme → List (NoteKind × Nat)
  | [] => []
  | x :: xs => (x.mark? octave).toList ++ written (x.token.octaveBehind octave) xs

/-- Notes are written where their tokens are. -/
theorem columns_written (octave : Int) (xs : List Lexeme) :
    ((written octave xs).map Prod.snd).Sublist (xs.map (·.column)) := by
  induction xs generalizing octave with
  | nil => exact .slnil
  | cons x xs ih =>
      rw [written, mark?, List.map_append, List.map_cons]
      cases x.token.kind? octave with
      | none => exact (ih _).cons _
      | some kind => exact (ih _).cons_cons _

end Lexeme

namespace Voice

/-! ## Steps that succeed -/

/-- A group lasts as long as is written, if that can be counted. -/
theorem time?_eq_some {unit time : Ticks} {beats : Option Nat} :
    time? unit beats = some time ↔ Token.beatsOf beats ≤ 4294967295 ∧
      Token.beatsOf beats * unit.toNat ≤ 4294967295 ∧
        time.toNat = Token.beatsOf beats * unit.toNat := by
  have hone : some unit = some time ↔ 1 ≤ 4294967295 ∧ 1 * unit.toNat ≤ 4294967295 ∧
      time.toNat = 1 * unit.toNat := by
    have hunit := unit.toNat_lt
    rw [Option.some_inj, ← UInt32.toNat_inj]
    omega
  match beats with
  | none => exact hone
  | some 0 => exact hone
  | some (n + 1) =>
      rw [time?, Option.bind_eq_some_iff]
      · simp only [unsigned?_eq_some, Token.beatsOf]
        constructor
        · rintro ⟨b, ⟨hle, hb⟩, htime⟩
          rw [hb, ← Nat.cast_mul, unsigned?_eq_some] at htime
          exact ⟨hle, htime⟩
        · rintro ⟨hle, htime⟩
          refine ⟨.ofNat (n + 1), ⟨hle, Ticks.toNat_ofNat (by omega)⟩, ?_⟩
          rw [Ticks.toNat_ofNat (by omega), ← Nat.cast_mul, unsigned?_eq_some]
          exact htime
      · simp

variable {unit : Ticks} {line : Nat} {x : Lexeme} {v v' : Voice} {now : List Note}

/-- What a token does to the voice, with the notes that it adds to the melody. -/
inductive Takes (unit : Ticks) (x : Lexeme) (v : Voice) : List Note → Voice → Prop
  /-- A note outside groups. -/
  | note {kind : NoteKind} (hkind : x.token.kind? v.octave = some kind)
      (hfits : x.token.OctaveFits v.octave) (hgroup : v.group = none) :
      Takes unit x v [⟨kind, unit, x.column⟩] v
  /-- A note in a group. -/
  | member {kind : NoteKind} {g : Group} (hkind : x.token.kind? v.octave = some kind)
      (hfits : x.token.OctaveFits v.octave) (hgroup : v.group = some g) :
      Takes unit x v []
        { v with group := some { g with members := g.members.push ⟨kind, unit, x.column⟩ } }
  /-- Another octave. -/
  | shift (hshift : x.token.isShift = true) (hfits : x.token.OctaveFits v.octave) :
      Takes unit x v [] { v with octave := x.token.octaveBehind v.octave }
  /-- The beginning of a group. -/
  | opening (htoken : x.token = .opening) (hgroup : v.group = none) :
      Takes unit x v [] { v with group := some { opening := x } }
  /-- The end of a group. -/
  | closing {beats : Option Nat} {g : Group} {time : Ticks} (htoken : x.token = .closing beats)
      (hgroup : v.group = some g) (hmembers : g.members.isEmpty = false)
      (htime : time? unit beats = some time) :
      Takes unit x v (subdivide time g.members.toList) { v with group := none }

theorem place_ok {n : Note} :
    place n v = .ok now v' ↔ (v.group = none ∧ now = [n] ∧ v' = v) ∨
      ∃ g, v.group = some g ∧ now = [] ∧
        v' = { v with group := some { g with members := g.members.push n } } := by
  unfold place
  cases hgroup : v.group with
  | none => simp [eq_comm]
  | some g => simp [eq_comm]

theorem setOctave_ok {octave : Int} {fault : Fault} :
    setOctave octave fault v = .ok now v' ↔
      InOctaves octave ∧ now = [] ∧ v' = { v with octave := octave } := by
  unfold setOctave
  cases hsigned : signed? octave with
  | none =>
      have hout : ¬ InOctaves octave := fun h => by
        rw [signed?_eq_some.mpr ⟨h, rfl⟩] at hsigned
        cases hsigned
      simp [hout]
  | some o =>
      obtain ⟨hin, rfl⟩ := signed?_eq_some.mp hsigned
      simp [hin, eq_comm]

/-- A token of a note is placed. -/
theorem step_note {kind : NoteKind} (hkind : x.token.kind? v.octave = some kind)
    (hfits : x.token.OctaveFits v.octave) :
    step unit line x v = place ⟨kind, unit, x.column⟩ v := by
  unfold step
  generalize x.token = token at hkind hfits ⊢
  match token with
  | .pitch p none => cases hkind; rfl
  | .pitch p (some own) =>
      cases hkind
      dsimp only
      rw [signed?_eq_some.mpr ⟨hfits, rfl⟩]
  | .tie => cases hkind; rfl
  | .rest => cases hkind; rfl

/-- A token that changes the octave sets it. -/
theorem step_shift (hshift : x.token.isShift = true) (hfits : x.token.OctaveFits v.octave) :
    step unit line x v = .ok [] { v with octave := x.token.octaveBehind v.octave } := by
  unfold step
  generalize x.token = token at hshift hfits ⊢
  match token with
  | .octave number => exact setOctave_ok.mpr ⟨hfits, rfl, rfl⟩
  | .raise => exact setOctave_ok.mpr ⟨hfits, rfl, rfl⟩
  | .lower => exact setOctave_ok.mpr ⟨hfits, rfl, rfl⟩

theorem takes_of_place {kind : NoteKind} (hkind : x.token.kind? v.octave = some kind)
    (hfits : x.token.OctaveFits v.octave) (h : place ⟨kind, unit, x.column⟩ v = .ok now v') :
    Takes unit x v now v' := by
  rcases place_ok.mp h with ⟨hgroup, rfl, rfl⟩ | ⟨g, hgroup, rfl, rfl⟩
  · exact .note hkind hfits hgroup
  · exact .member hkind hfits hgroup

theorem takes_of_setOctave {octave : Int} {fault : Fault} (hshift : x.token.isShift = true)
    (hbehind : x.token.octaveBehind v.octave = octave)
    (hfits : x.token.OctaveFits v.octave = InOctaves octave)
    (h : setOctave octave fault v = .ok now v') : Takes unit x v now v' := by
  obtain ⟨hin, rfl, rfl⟩ := setOctave_ok.mp h
  rw [← hbehind]
  exact .shift hshift (hfits ▸ hin)

/-- **A step succeeds** exactly if the token can be taken. -/
theorem step_ok : step unit line x v = .ok now v' ↔ Takes unit x v now v' := by
  constructor
  · intro h
    obtain ⟨token, column, source⟩ := x
    cases token with
    | pitch p own =>
        cases own with
        | none => exact takes_of_place rfl trivial h
        | some own =>
            dsimp only [step] at h
            split at h
            · rename_i octave hsigned
              obtain ⟨hin, rfl⟩ := signed?_eq_some.mp hsigned
              exact takes_of_place rfl hin h
            · cases h
    | octave number => exact takes_of_setOctave rfl rfl rfl h
    | raise => exact takes_of_setOctave rfl rfl rfl h
    | lower => exact takes_of_setOctave rfl rfl rfl h
    | tie => exact takes_of_place rfl trivial h
    | rest => exact takes_of_place rfl trivial h
    | opening =>
        dsimp only [step] at h
        split at h
        · rename_i hgroup
          cases h
          exact .opening rfl hgroup
        · cases h
    | closing beats =>
        dsimp only [step] at h
        split at h
        · cases h
        · rename_i g hgroup
          split at h
          · cases h
          · rename_i hmembers
            split at h
            · rename_i time htime
              cases h
              exact .closing rfl hgroup (Bool.eq_false_iff.mpr hmembers) htime
            · cases h
  · intro h
    cases h with
    | note hkind hfits hgroup =>
        rw [step_note hkind hfits]
        exact place_ok.mpr (Or.inl ⟨hgroup, rfl, rfl⟩)
    | member hkind hfits hgroup =>
        rw [step_note hkind hfits]
        exact place_ok.mpr (Or.inr ⟨_, hgroup, rfl, rfl⟩)
    | shift hshift hfits => exact step_shift hshift hfits
    | opening htoken hgroup => simp [step, htoken, hgroup]
    | closing htoken hgroup hmembers htime => simp [step, htoken, hgroup, hmembers, htime]

/-! ## Runs -/

variable {xs ys : List Lexeme} {ns : List Note}

/-- Two steps that succeed one after the other, with the notes of both. -/
theorem both_ok {a b : EStateM Fault Voice (List Note)} :
    (do
      let now ← a
      let later ← b
      return now ++ later : EStateM Fault Voice (List Note)) v = .ok ns v' ↔
      ∃ now v₁ later, a v = .ok now v₁ ∧ b v₁ = .ok later v' ∧ ns = now ++ later := by
  rw [bind_ok]
  constructor
  · rintro ⟨now, v₁, ha, hrest⟩
    obtain ⟨later, v₂, hb, hpure⟩ := bind_ok.mp hrest
    cases hpure
    exact ⟨now, v₁, later, ha, hb, rfl⟩
  · rintro ⟨now, v₁, later, ha, hb, rfl⟩
    exact ⟨now, v₁, ha, bind_ok.mpr ⟨later, v', hb, rfl⟩⟩

theorem run_cons_ok :
    run unit line (x :: xs) v = .ok ns v' ↔
      ∃ now v₁ later, step unit line x v = .ok now v₁ ∧ run unit line xs v₁ = .ok later v' ∧
        ns = now ++ later := by
  rw [run, both_ok]

theorem run_append :
    run unit line (xs ++ ys) = (do
      let now ← run unit line xs
      let later ← run unit line ys
      return now ++ later) := by
  induction xs with
  | nil => simp [run]
  | cons x xs ih =>
      rw [List.cons_append, run, ih, run]
      simp only [bind_assoc, pure_bind, List.append_assoc]

theorem run_append_ok :
    run unit line (xs ++ ys) v = .ok ns v' ↔
      ∃ now v₁ later, run unit line xs v = .ok now v₁ ∧ run unit line ys v₁ = .ok later v' ∧
        ns = now ++ later := by
  rw [run_append, both_ok]

/-! ## Notes as they are written -/

/-- What the open group holds back. -/
def heldMarks (v : Voice) : List (NoteKind × Nat) :=
  match v.group with
  | none => []
  | some g => g.members.toList.map Note.mark

theorem Takes.octave_eq (h : Takes unit x v now v') :
    v'.octave = x.token.octaveBehind v.octave := by
  have hnote : ∀ {kind}, x.token.kind? v.octave = some kind →
      x.token.octaveBehind v.octave = v.octave := by
    intro kind hkind
    generalize x.token = token at hkind
    cases token with
    | octave | raise | lower => cases hkind
    | _ => rfl
  cases h with
  | note hkind => exact (hnote hkind).symm
  | member hkind => exact (hnote hkind).symm
  | shift => rfl
  | opening htoken => rw [htoken]; rfl
  | closing htoken => rw [htoken]; rfl

/-- A token adds the note that it stands for, to the melody or to the group. -/
theorem Takes.marks_eq (h : Takes unit x v now v') :
    now.map Note.mark ++ v'.heldMarks = v.heldMarks ++ (x.mark? v.octave).toList := by
  cases h with
  | note hkind _ hgroup => simp [heldMarks, hgroup, Lexeme.mark?, hkind, Note.mark]
  | member hkind _ hgroup => simp [heldMarks, hgroup, Lexeme.mark?, hkind, Note.mark]
  | shift hshift =>
      have hnone : x.token.kind? v.octave = none := by
        generalize x.token = token at hshift
        cases token with
        | octave | raise | lower => rfl
        | _ => cases hshift
      simp [heldMarks, Lexeme.mark?, hnone]
  | opening htoken hgroup => simp [heldMarks, hgroup, Lexeme.mark?, htoken, Token.kind?]
  | closing htoken hgroup =>
      simp [heldMarks, hgroup, Lexeme.mark?, htoken, Token.kind?, subdivide, marks_shareAmong]

/-- **Tokens give the notes that they stand for**, those of an open group later. -/
theorem marks_run (h : run unit line xs v = .ok ns v') :
    ns.map Note.mark ++ v'.heldMarks = v.heldMarks ++ Lexeme.written v.octave xs ∧
      v'.octave = Token.octaveAfter v.octave (xs.map (·.token)) := by
  induction xs generalizing v ns with
  | nil =>
      cases h
      simp [Lexeme.written, Token.octaveAfter]
  | cons x xs ih =>
      obtain ⟨now, v₁, later, hstep, hrun, rfl⟩ := run_cons_ok.mp h
      have htakes := step_ok.mp hstep
      obtain ⟨hmarks, hoctave⟩ := ih hrun
      rw [htakes.octave_eq] at hmarks hoctave
      refine ⟨?_, hoctave⟩
      rw [List.map_append, List.append_assoc, hmarks, ← List.append_assoc, htakes.marks_eq,
        List.append_assoc]
      rfl

end Voice

end SungScore
