import Mathlib.Data.List.DropRight
import SungScore.Proofs.Melody.Grammar
import SungScore.Proofs.Melody.Voice

set_option autoImplicit false

/-!
# Which melody lines can be read

A melody line can be read if its tokens are arranged as they should be (`Arranged`): groups stand side
by side and have notes in them, and all numbers can be counted. Then it gives a note for every token that
stands for one, in the same column and in the octave in effect there (`read_iff_arranged`).
-/

namespace SungScore

/-! ## Arranged tokens -/

namespace Token

/-- Whether a token opens or closes a group. -/
def isParenthesis : Token → Bool
  | .opening | .closing _ => true
  | _ => false

/-- Whether a token stands for a note. -/
def isNote : Token → Bool
  | .pitch _ _ | .tie | .rest => true
  | _ => false

/-- A group is open behind tokens if the last parenthesis among them opens one. -/
def GroupOpen (ts : List Token) : Prop := (ts.filter isParenthesis).getLast? = some .opening

/-- The tokens behind the last parenthesis. -/
def sinceParenthesis (ts : List Token) : List Token := ts.rtakeWhile (fun t => !t.isParenthesis)

end Token

/-- The tokens are arranged as a melody line should be. -/
structure Arranged (unit : Ticks) (octave : Int) (ts : List Token) : Prop where
  /-- No group is opened in another one. -/
  notNested : ∀ before after, ts = before ++ .opening :: after → ¬ Token.GroupOpen before
  /-- Every group that is closed was opened and has a note. -/
  closes : ∀ before beats after, ts = before ++ .closing beats :: after →
    Token.GroupOpen before ∧ ∃ t ∈ Token.sinceParenthesis before, t.isNote = true
  /-- Every group that was opened is closed. -/
  closed : ¬ Token.GroupOpen ts
  /-- The octaves that are named can be counted. -/
  octaves : ∀ number : Nat, (.octave number ∈ ts ∨ ∃ p, .pitch p (some number) ∈ ts) →
    InOctaves number
  /-- And so can those that are reached step by step. -/
  shifts : ∀ before t after, ts = before ++ t :: after → t = .raise ∨ t = .lower →
    InOctaves (Token.octaveAfter octave (before ++ [t]))
  /-- The beats of groups can be counted, and so can their ticks. -/
  beats : ∀ beats, .closing beats ∈ ts → Token.beatsOf beats ≤ 4294967295 ∧
    Token.beatsOf beats * unit.toNat ≤ 4294967295

/-! ## One token -/

/-- The places in a list that is not empty: the first one and those behind it. -/
theorem forall_split_cons {α : Type} {P : List α → α → Prop} {x : α} {xs : List α} :
    (∀ before y after, x :: xs = before ++ y :: after → P before y) ↔
      P [] x ∧ ∀ before y after, xs = before ++ y :: after → P (x :: before) y := by
  constructor
  · intro h
    exact ⟨h [] x xs rfl, fun before y after hxs => h (x :: before) y after (by rw [hxs]; rfl)⟩
  · rintro ⟨hx, hxs⟩ before y after h
    cases before with
    | nil =>
        obtain ⟨rfl, -⟩ := List.cons.inj h
        exact hx
    | cons z before =>
        obtain ⟨rfl, htail⟩ := List.cons.inj h
        exact hxs before y after htail

namespace Token

variable {ts before : List Token} {t : Token} {octave : Int} {unit : Ticks}

theorem octaveAfter_concat (octave : Int) (ts : List Token) (t : Token) :
    octaveAfter octave (ts ++ [t]) = t.octaveBehind (octaveAfter octave ts) := by
  rw [octaveAfter, List.foldl_append]
  rfl

theorem groupOpen_concat (h : t.isParenthesis = false) : GroupOpen (ts ++ [t]) ↔ GroupOpen ts := by
  simp [GroupOpen, List.filter_append, h]

theorem groupOpen_concat_opening : GroupOpen (ts ++ [.opening]) := by
  simp [GroupOpen, isParenthesis]

theorem not_groupOpen_concat_closing {beats : Option Nat} : ¬ GroupOpen (ts ++ [.closing beats]) := by
  simp [GroupOpen, isParenthesis]

theorem sinceParenthesis_concat (h : t.isParenthesis = false) :
    sinceParenthesis (ts ++ [t]) = sinceParenthesis ts ++ [t] := by
  simp [sinceParenthesis, h]

theorem sinceParenthesis_concat_opening : sinceParenthesis (ts ++ [.opening]) = [] := by
  simp [sinceParenthesis, isParenthesis]

theorem of_kind? {kind : NoteKind} (h : t.kind? octave = some kind) :
    t.isNote = true ∧ t.isParenthesis = false := by
  cases t <;> first | exact ⟨rfl, rfl⟩ | cases h

theorem of_isShift (h : t.isShift = true) : t.isNote = false ∧ t.isParenthesis = false := by
  cases t <;> first | exact ⟨rfl, rfl⟩ | cases h

/-- A token is one of a note, or changes the octave, or is a parenthesis. -/
theorem kind_cases (octave : Int) (t : Token) :
    (∃ kind, t.kind? octave = some kind) ∨ t.isShift = true ∨ t = .opening ∨
      ∃ beats, t = .closing beats := by
  match t with
  | .pitch p none => exact Or.inl ⟨_, rfl⟩
  | .pitch p (some own) => exact Or.inl ⟨_, rfl⟩
  | .tie => exact Or.inl ⟨_, rfl⟩
  | .rest => exact Or.inl ⟨_, rfl⟩
  | .octave _ => exact Or.inr (Or.inl rfl)
  | .raise => exact Or.inr (Or.inl rfl)
  | .lower => exact Or.inr (Or.inl rfl)
  | .opening => exact Or.inr (Or.inr (Or.inl rfl))
  | .closing beats => exact Or.inr (Or.inr (Or.inr ⟨beats, rfl⟩))

/-- The token may stand behind the given ones. -/
structure Allowed (unit : Ticks) (octave : Int) (before : List Token) (t : Token) : Prop where
  octaveFits : t.OctaveFits (octaveAfter octave before)
  opening : t = .opening → ¬ GroupOpen before
  closing : ∀ beats, t = .closing beats →
    (GroupOpen before ∧ ∃ t ∈ sinceParenthesis before, t.isNote = true) ∧
      beatsOf beats ≤ 4294967295 ∧ beatsOf beats * unit.toNat ≤ 4294967295

/-- Each of the tokens may stand where it stands. -/
def EachAllowed (unit : Ticks) (octave : Int) (ts : List Token) : Prop :=
  ∀ before t after, ts = before ++ t :: after → t.Allowed unit octave before

/-- Without parentheses, only the octave matters. -/
theorem allowed_of_not_isParenthesis (h : t.isParenthesis = false)
    (hfits : t.OctaveFits (octaveAfter octave before)) : t.Allowed unit octave before := by
  refine ⟨hfits, ?_, ?_⟩
  · rintro rfl
    cases h
  · rintro beats rfl
    cases h

end Token

namespace Voice

variable {unit : Ticks} {line : Nat} {octave : Int} {before : List Token} {x : Lexeme}
  {xs : List Lexeme} {v v' : Voice} {now ns : List Note}

/-- What the voice remembers of the tokens that it took, from the given octave on. -/
structure Behind (octave : Int) (before : List Token) (v : Voice) : Prop where
  octave_eq : v.octave = Token.octaveAfter octave before
  groupOpen_iff : Token.GroupOpen before ↔ v.group.isSome = true
  members_iff : ∀ {g}, v.group = some g →
    (g.members.isEmpty = false ↔ ∃ t ∈ Token.sinceParenthesis before, t.isNote = true)

theorem behind_nil (octave : Int) : Behind octave [] { octave } := by
  refine ⟨rfl, ?_, fun h => (by cases h)⟩
  simp [Token.GroupOpen]

theorem Behind.not_groupOpen (hv : Behind octave before v) (h : v.group = none) :
    ¬ Token.GroupOpen before := by
  rw [hv.groupOpen_iff, h]
  simp

theorem Behind.groupOpen {g : Group} (hv : Behind octave before v) (h : v.group = some g) :
    Token.GroupOpen before := by
  rw [hv.groupOpen_iff, h]
  rfl

theorem Behind.group_eq_none (hv : Behind octave before v) (h : ¬ Token.GroupOpen before) :
    v.group = none := by
  rw [← Option.not_isSome_iff_eq_none, ← hv.groupOpen_iff]
  exact h

theorem Behind.exists_group (hv : Behind octave before v) (h : Token.GroupOpen before) :
    ∃ g, v.group = some g :=
  Option.isSome_iff_exists.mp (hv.groupOpen_iff.mp h)

/-- It remembers one token more. -/
theorem Behind.takes (hv : Behind octave before v) (h : Takes unit x v now v') :
    Behind octave (before ++ [x.token]) v' := by
  have hoctave : v'.octave = Token.octaveAfter octave (before ++ [x.token]) := by
    rw [h.octave_eq, hv.octave_eq, Token.octaveAfter_concat]
  cases h with
  | note hkind _ hgroup =>
      refine ⟨hoctave, ?_, fun h => (by rw [hgroup] at h; cases h)⟩
      rw [Token.groupOpen_concat (Token.of_kind? hkind).2, hv.groupOpen_iff]
  | member hkind _ hgroup =>
      obtain ⟨hnote, hparen⟩ := Token.of_kind? hkind
      refine ⟨hoctave, ?_, fun h => ?_⟩
      · rw [Token.groupOpen_concat hparen, hv.groupOpen_iff, hgroup]
        rfl
      · cases h
        rw [Token.sinceParenthesis_concat hparen]
        simp [hnote]
  | shift hshift =>
      obtain ⟨hnote, hparen⟩ := Token.of_isShift hshift
      refine ⟨hoctave, ?_, fun h => ?_⟩
      · rw [Token.groupOpen_concat hparen, hv.groupOpen_iff]
      · rw [hv.members_iff h, Token.sinceParenthesis_concat hparen]
        simp [hnote]
  | opening htoken =>
      rw [htoken] at hoctave ⊢
      refine ⟨hoctave, ?_, fun h => ?_⟩
      · simp [Token.groupOpen_concat_opening]
      · cases h
        simp [Token.sinceParenthesis_concat_opening]
  | closing htoken =>
      rw [htoken] at hoctave ⊢
      refine ⟨hoctave, ?_, fun h => (by cases h)⟩
      simp [Token.not_groupOpen_concat_closing]

/-- The voice takes a token exactly if it may stand behind those that were taken before. -/
theorem Behind.exists_step_iff (hv : Behind octave before v) (line : Nat) :
    (∃ now v', step unit line x v = .ok now v') ↔ x.token.Allowed unit octave before := by
  simp only [step_ok]
  constructor
  · rintro ⟨now, v', htakes⟩
    have hoctave := hv.octave_eq
    cases htakes with
    | note hkind hfits =>
        exact Token.allowed_of_not_isParenthesis (Token.of_kind? hkind).2 (hoctave ▸ hfits)
    | member hkind hfits =>
        exact Token.allowed_of_not_isParenthesis (Token.of_kind? hkind).2 (hoctave ▸ hfits)
    | shift hshift hfits =>
        exact Token.allowed_of_not_isParenthesis (Token.of_isShift hshift).2 (hoctave ▸ hfits)
    | opening htoken hgroup =>
        rw [htoken]
        exact ⟨trivial, fun _ => hv.not_groupOpen hgroup, fun beats h => (by cases h)⟩
    | closing htoken hgroup hmembers htime =>
        rw [htoken]
        refine ⟨trivial, fun h => (by cases h), fun beats h => ?_⟩
        cases h
        obtain ⟨hcount, hticks, -⟩ := time?_eq_some.mp htime
        exact ⟨⟨hv.groupOpen hgroup, (hv.members_iff hgroup).mp hmembers⟩, hcount, hticks⟩
  · intro h
    have hfits : x.token.OctaveFits v.octave := by
      rw [hv.octave_eq]
      exact h.octaveFits
    -- one constructor of `Takes` for each kind of token, and two for notes
    rcases x.token.kind_cases v.octave with ⟨kind, hkind⟩ | hshift | htoken | ⟨beats, htoken⟩
    · cases hgroup : v.group with
      | none => exact ⟨_, _, .note hkind hfits hgroup⟩
      | some g => exact ⟨_, _, .member hkind hfits hgroup⟩
    · exact ⟨_, _, .shift hshift hfits⟩
    · exact ⟨_, _, .opening htoken (hv.group_eq_none (h.opening htoken))⟩
    · obtain ⟨⟨hopen, hnote⟩, hcount, hticks⟩ := h.closing beats htoken
      obtain ⟨g, hgroup⟩ := hv.exists_group hopen
      have htime := time?_eq_some.mpr ⟨hcount, hticks, Ticks.toNat_ofNat (Nat.lt_succ_of_le hticks)⟩
      exact ⟨_, _, .closing htoken hgroup ((hv.members_iff hgroup).mpr hnote) htime⟩

theorem Behind.run (hv : Behind octave before v) (h : Voice.run unit line xs v = .ok ns v') :
    Behind octave (before ++ xs.map (·.token)) v' := by
  induction xs generalizing before v ns with
  | nil =>
      cases h
      simpa using hv
  | cons x xs ih =>
      obtain ⟨now, v₁, later, hstep, hrun, rfl⟩ := run_cons_ok.mp h
      rw [List.map_cons, List.append_cons]
      exact ih (hv.takes (step_ok.mp hstep)) hrun

/-- Tokens are taken exactly if each of them may stand where it stands. -/
theorem Behind.exists_run_iff (hv : Behind octave before v) (line : Nat) :
    (∃ ns v', Voice.run unit line xs v = .ok ns v') ↔
      ∀ earlier t later, xs.map (·.token) = earlier ++ t :: later →
        t.Allowed unit octave (before ++ earlier) := by
  induction xs generalizing before v with
  | nil => simp [Voice.run, pure, EStateM.pure]
  | cons x xs ih =>
      rw [List.map_cons, forall_split_cons]
      constructor
      · rintro ⟨ns, v', hrun⟩
        obtain ⟨now, v₁, rest, hstep, hrest, -⟩ := run_cons_ok.mp hrun
        have hnext := hv.takes (step_ok.mp hstep)
        rw [List.append_nil]
        refine ⟨(hv.exists_step_iff line).mp ⟨now, v₁, hstep⟩, fun earlier t later hsplit => ?_⟩
        rw [List.append_cons]
        exact (ih hnext).mp ⟨rest, v', hrest⟩ earlier t later hsplit
      · rintro ⟨hnow, hlater⟩
        rw [List.append_nil] at hnow
        obtain ⟨now, v₁, hstep⟩ := (hv.exists_step_iff line).mpr hnow
        have hnext := hv.takes (step_ok.mp hstep)
        obtain ⟨rest, v', hrest⟩ := (ih hnext).mpr (fun earlier t later hsplit => by
          rw [← List.append_cons]
          exact hlater earlier t later hsplit)
        exact ⟨now ++ rest, v', run_cons_ok.mpr ⟨now, v₁, rest, hstep, hrest, rfl⟩⟩

end Voice

/-! ## The line -/

section

variable {unit : Ticks} {octave : Int} {ts : List Token}

theorem Arranged.allowed (h : Arranged unit octave ts) {before after : List Token} {t : Token}
    (hts : ts = before ++ t :: after) : t.Allowed unit octave before := by
  have hmem : t ∈ ts := by rw [hts]; simp
  refine ⟨?_, ?_, ?_⟩
  · -- an octave that is named fits anywhere, one that is reached depends on the place
    match t with
    | .pitch p none => trivial
    | .pitch p (some number) => exact h.octaves number (Or.inr ⟨p, hmem⟩)
    | .octave number => exact h.octaves number (Or.inl hmem)
    | .raise =>
        have hin := h.shifts before _ after hts (Or.inl rfl)
        rwa [Token.octaveAfter_concat] at hin
    | .lower =>
        have hin := h.shifts before _ after hts (Or.inr rfl)
        rwa [Token.octaveAfter_concat] at hin
    | .tie | .rest | .opening | .closing _ => trivial
  · rintro rfl
    exact h.notNested before after hts
  · rintro beats rfl
    exact ⟨h.closes before beats after hts, h.beats beats hmem⟩

/-- Tokens are arranged if each may stand where it stands, and no group is open at the end. -/
theorem arranged_iff :
    Arranged unit octave ts ↔ Token.EachAllowed unit octave ts ∧ ¬ Token.GroupOpen ts := by
  constructor
  · intro h
    exact ⟨fun before t after hts => h.allowed hts, h.closed⟩
  · rintro ⟨hall, hclosed⟩
    have hmem : ∀ t ∈ ts, ∃ before, t.Allowed unit octave before := by
      intro t ht
      obtain ⟨before, after, hts⟩ := List.append_of_mem ht
      exact ⟨before, hall before t after hts⟩
    constructor
    case notNested => exact fun before after hts => (hall before _ after hts).opening rfl
    case closes => exact fun before beats after hts => ((hall before _ after hts).closing beats rfl).1
    case closed => exact hclosed
    case octaves =>
      rintro number (ht | ⟨p, ht⟩)
      · exact (hmem _ ht).elim (fun before h => h.octaveFits)
      · exact (hmem _ ht).elim (fun before h => h.octaveFits)
    case shifts =>
      rintro before t after hts (rfl | rfl)
      · rw [Token.octaveAfter_concat]
        exact (hall before _ after hts).octaveFits
      · rw [Token.octaveAfter_concat]
        exact (hall before _ after hts).octaveFits
    case beats => exact fun beats ht => (hmem _ ht).elim (fun before h => (h.closing beats rfl).2)

end

/-- Tokens of a line are taken exactly if each of them may stand where it stands. -/
theorem Voice.exists_run_iff {unit : Ticks} {octave : Int} (line : Nat) {xs : List Lexeme} :
    (∃ ns v, run unit line xs { octave } = .ok ns v) ↔
      Token.EachAllowed unit octave (xs.map (·.token)) :=
  (behind_nil octave).exists_run_iff line

/-- A line can be read exactly if its tokens are arranged. -/
theorem Melody.exists_read_iff (unit : Ticks) (line : Nat) (text : Text) (octave : Int) :
    (∃ ns octave', read unit line text octave = .ok ns octave') ↔
      Arranged unit octave ((Lexeme.scan text).map (·.token)) := by
  have hnil := Voice.behind_nil octave
  rw [arranged_iff]
  constructor
  · rintro ⟨ns, octave', h⟩
    have hrun := read_ok.mp h
    refine ⟨(Voice.exists_run_iff line).mp ⟨ns, _, hrun⟩, fun hopen => ?_⟩
    have hgroup := (hnil.run hrun).groupOpen_iff.mp hopen
    cases hgroup
  · rintro ⟨hall, hclosed⟩
    obtain ⟨ns, v, hrun⟩ := (Voice.exists_run_iff line).mpr hall
    have hgroup := (hnil.run hrun).group_eq_none hclosed
    obtain ⟨octave', group⟩ := v
    obtain rfl : group = none := hgroup
    exact ⟨ns, octave', read_ok.mpr hrun⟩

/-- **Melody lines are read by their grammar.** A line can be cut into its longest tokens in exactly one
way. It is read if and only if these are arranged, and then it gives a note for every one that stands
for a note: of that kind, in the octave in effect there, and at its column, the columns ascending. The
octave that it leaves is the one that the tokens lead to. -/
theorem read_iff_arranged (unit : Ticks) (line : Nat) (text : Text) (octave : Int) :
    ∃ xs, (∀ ys, Lexeme.Cut 1 text ys ↔ ys = xs) ∧
      ((∃ ns octave', Melody.read unit line text octave = .ok ns octave') ↔
        Arranged unit octave (xs.map (·.token))) ∧
      ∀ ns octave', Melody.read unit line text octave = .ok ns octave' →
        ns.map Note.mark = Lexeme.written octave xs ∧ Ascending (ns.map (·.column)) ∧
          octave' = Token.octaveAfter octave (xs.map (·.token)) := by
  refine ⟨Lexeme.scan text, fun ys => Lexeme.cut_iff, Melody.exists_read_iff unit line text octave,
    fun ns octave' h => ?_⟩
  obtain ⟨hmarks, hoctave⟩ := Melody.marks_read h
  exact ⟨hmarks, Melody.ascending_read h, hoctave⟩

/-- A group of two beats, in which one note has an octave of its own. -/
theorem read_iff_arranged_ces_b :
    let text : Text := "o3ces(b2 -)2>es oas".toList
    ∃ xs, Lexeme.Cut 1 text xs ∧ Arranged 220 4 (xs.map (·.token)) ∧
      Lexeme.written 4 xs = [(.pitched ⟨.c, .flat⟩ 3, 3), (.pitched ⟨.h, .flat⟩ 2, 7), (.tie, 10),
        (.pitched ⟨.e, .flat⟩ 2, 14), (.rest, 17), (.pitched ⟨.a, .flat⟩ 2, 18)] := by
  intro text
  obtain ⟨xs, hcut, hread, hgives⟩ := read_iff_arranged 220 1 text 4
  have hnotes : (Melody.read 220 1 text).run' 4 = some
      [⟨.pitched ⟨.c, .flat⟩ 3, 220, 3⟩, ⟨.pitched ⟨.h, .flat⟩ 2, 220, 7⟩, ⟨.tie, 220, 10⟩,
        ⟨.pitched ⟨.e, .flat⟩ 2, 220, 14⟩, ⟨.rest, 220, 17⟩, ⟨.pitched ⟨.a, .flat⟩ 2, 220, 18⟩] := by
    decide +kernel
  obtain ⟨octave', hok⟩ := exists_ok_of_run' hnotes
  exact ⟨xs, (hcut xs).mpr rfl, hread.mp ⟨_, _, hok⟩, (hgives _ _ hok).1.symm⟩

end SungScore
