import SungScore.Proofs.Melody.Arrangement
import SungScore.Proofs.Text.Lines

set_option autoImplicit false

/-!
# Where a melody line goes wrong

A melody line that cannot be read goes wrong at one of its tokens (`Lexeme.Wrong`): at the first one
that may not stand where it stands, or else at the parenthesis of the group that is left open. Which
token it is, and for which cause, is known exactly (`Melody.read_error_iff`). The fault names its column
and quotes the line from its first character on (`Melody.fault_quotes_token`).
-/

namespace SungScore

/-- The fault of a token at a place: it is misplaced for the cause given, or else it cannot be
recognized. -/
def Fault.ofToken (line column : Nat) (quote : Text) : Option Misplacement → Fault
  | none => .unrecognizable line column quote
  | some cause => .misplaced line column quote cause

/-! ## Tokens that offend -/

namespace Token

/-- How a token offends behind the given ones, with the cause that is reported. There is none for
numbers that are too large. -/
inductive Offends (unit : Ticks) (octave : Int) (before : List Token) :
    Token → Option Misplacement → Prop
  /-- The octave of a pitch cannot be counted. -/
  | pitch {p : Pitch} {own : Nat} (hown : ¬ InOctaves own) :
      Offends unit octave before (.pitch p (some own)) none
  /-- An octave that is set cannot be counted. -/
  | octave {number : Nat} (hnumber : ¬ InOctaves number) :
      Offends unit octave before (.octave number) none
  /-- There is no octave above. -/
  | raise (habove : ¬ InOctaves (octaveAfter octave before + 1)) :
      Offends unit octave before .raise (some .octaveOutOfRange)
  /-- There is no octave below. -/
  | lower (hbelow : ¬ InOctaves (octaveAfter octave before - 1)) :
      Offends unit octave before .lower (some .octaveOutOfRange)
  /-- A group is opened in another one. -/
  | nested (hopen : GroupOpen before) : Offends unit octave before .opening (some .nestedGroup)
  /-- A group is closed, and none is open. -/
  | unopened {beats : Option Nat} (hopen : ¬ GroupOpen before) :
      Offends unit octave before (.closing beats) (some .unopenedGroup)
  /-- A group is closed that has no note. -/
  | empty {beats : Option Nat} (hopen : GroupOpen before)
      (hempty : ¬ ∃ t ∈ sinceParenthesis before, t.isNote = true) :
      Offends unit octave before (.closing beats) (some .emptyGroup)
  /-- The beats of a group, or their ticks, cannot be counted. -/
  | beats {beats : Option Nat} (hopen : GroupOpen before)
      (hnote : ∃ t ∈ sinceParenthesis before, t.isNote = true)
      (hlong : ¬ (beatsOf beats ≤ 4294967295 ∧ beatsOf beats * unit.toNat ≤ 4294967295)) :
      Offends unit octave before (.closing beats) none

/-- A group is open behind tokens if there is a parenthesis that opens one, and none behind it. -/
theorem groupOpen_iff {ts : List Token} :
    GroupOpen ts ↔ ∃ before after, ts = before ++ .opening :: after ∧
      ∀ t ∈ after, t.isParenthesis = false := by
  constructor
  · intro h
    -- the tokens are split where the last one of the parentheses comes from
    obtain ⟨parentheses, hfilter⟩ := List.getLast?_eq_some_iff.mp h
    obtain ⟨before, rest, rfl, -, hrest⟩ := List.filter_eq_append_iff.mp hfilter
    obtain ⟨skipped, after, rfl, -, -, hafter⟩ := List.filter_eq_cons_iff.mp hrest
    refine ⟨before ++ skipped, after, (List.append_assoc _ _ _).symm, fun t ht => ?_⟩
    exact Bool.eq_false_iff.mpr (List.filter_eq_nil_iff.mp hafter t ht)
  · rintro ⟨before, after, rfl, hafter⟩
    have hnone : after.filter isParenthesis = [] :=
      List.filter_eq_nil_iff.mpr (fun t ht => Bool.eq_false_iff.mp (hafter t ht))
    rw [GroupOpen, List.filter_append, List.filter_cons_of_pos rfl, hnone, List.getLast?_concat]

/-- A token that may not stand behind the given ones offends there. -/
theorem exists_offends {unit : Ticks} {octave : Int} {before : List Token} {t : Token}
    (h : ¬ t.Allowed unit octave before) : ∃ cause, t.Offends unit octave before cause := by
  -- apart from parentheses, only an octave can be wrong
  have hplain : t.isParenthesis = false → ¬ t.OctaveFits (octaveAfter octave before) :=
    fun hparen hfits => h (allowed_of_not_isParenthesis hparen hfits)
  match t with
  | .pitch p none => exact absurd trivial (hplain rfl)
  | .pitch p (some own) => exact ⟨_, .pitch (hplain rfl)⟩
  | .octave number => exact ⟨_, .octave (hplain rfl)⟩
  | .raise => exact ⟨_, .raise (hplain rfl)⟩
  | .lower => exact ⟨_, .lower (hplain rfl)⟩
  | .tie => exact absurd trivial (hplain rfl)
  | .rest => exact absurd trivial (hplain rfl)
  | .opening =>
      by_cases hopen : GroupOpen before
      · exact ⟨_, .nested hopen⟩
      · exact absurd ⟨trivial, fun _ => hopen, fun beats hbeats => (by cases hbeats)⟩ h
  | .closing beats =>
      by_cases hopen : GroupOpen before
      · by_cases hnote : ∃ t ∈ sinceParenthesis before, t.isNote = true
        · refine ⟨_, .beats hopen hnote (fun hshort => h ⟨trivial, fun hc => (by cases hc), ?_⟩)⟩
          rintro _ ⟨⟩
          exact ⟨⟨hopen, hnote⟩, hshort⟩
        · exact ⟨_, .empty hopen hnote⟩
      · exact ⟨_, .unopened hopen⟩

end Token

theorem signed?_eq_none {n : Int} : signed? n = none ↔ ¬ InOctaves n := by
  simp [signed?, InOctaves]

namespace Voice

variable {unit : Ticks} {line : Nat} {octave : Int} {before : List Token} {x : Lexeme}
  {xs earlier later : List Lexeme} {cause : Option Misplacement} {v v' : Voice}
  {now ns : List Note} {f : Fault}

/-! ## Steps that fail -/

theorem setOctave_error {number : Int} (h : ¬ InOctaves number) (fault : Fault) (v : Voice) :
    setOctave number fault v = .error fault v := by
  rw [setOctave, signed?_eq_none.mpr h]

/-- The fault of a token that offends. The voice stays as it was. -/
theorem Behind.step_of_offends (hv : Behind octave before v)
    (h : x.token.Offends unit octave before cause) (line : Nat) :
    step unit line x v = .error (.ofToken line x.column x.quote cause) v := by
  have hoctave := hv.octave_eq
  generalize htoken : x.token = token at h
  cases h with
  | pitch hown =>
      simp only [step, htoken, signed?_eq_none.mpr hown]
      rfl
  | octave hnumber =>
      simp only [step, htoken, setOctave_error hnumber]
      rfl
  | raise habove =>
      rw [← hoctave] at habove
      simp only [step, htoken, setOctave_error habove]
      rfl
  | lower hbelow =>
      rw [← hoctave] at hbelow
      simp only [step, htoken, setOctave_error hbelow]
      rfl
  | nested hopen =>
      obtain ⟨g, hgroup⟩ := hv.exists_group hopen
      simp only [step, htoken, hgroup]
      rfl
  | unopened hopen =>
      simp only [step, htoken, hv.group_eq_none hopen]
      rfl
  | empty hopen hempty =>
      obtain ⟨g, hgroup⟩ := hv.exists_group hopen
      have hmembers : g.members.isEmpty = true := by
        rw [← Bool.not_eq_false, hv.members_iff hgroup]
        exact hempty
      simp only [step, htoken, hgroup, hmembers, if_true]
      rfl
  | beats hopen hnote hlong =>
      obtain ⟨g, hgroup⟩ := hv.exists_group hopen
      have hmembers : g.members.isEmpty = false := (hv.members_iff hgroup).mpr hnote
      have htime : time? unit _ = none := Option.eq_none_iff_forall_ne_some.mpr
        (fun time htime => hlong ⟨(time?_eq_some.mp htime).1, (time?_eq_some.mp htime).2.1⟩)
      simp only [step, htoken, hgroup, hmembers, htime]
      rfl

/-- **A step fails** exactly if the token offends behind those that were taken before. -/
theorem Behind.step_error_iff (hv : Behind octave before v) :
    step unit line x v = .error f v' ↔ v' = v ∧ ∃ cause,
      x.token.Offends unit octave before cause ∧ f = .ofToken line x.column x.quote cause := by
  constructor
  · intro h
    -- there is no result, so the token offends, and the fault of one that does is known
    have hnot : ¬ x.token.Allowed unit octave before := by
      rw [← hv.exists_step_iff line, h]
      rintro ⟨now, v₁, hok⟩
      cases hok
    obtain ⟨cause, hoffends⟩ := Token.exists_offends hnot
    rw [hv.step_of_offends hoffends line] at h
    cases h
    exact ⟨rfl, cause, hoffends, rfl⟩
  · rintro ⟨rfl, cause, hoffends, rfl⟩
    exact hv.step_of_offends hoffends line

/-! ## Runs that fail -/

theorem run_cons_error :
    run unit line (x :: xs) v = .error f v' ↔ step unit line x v = .error f v' ∨
      ∃ now v₁, step unit line x v = .ok now v₁ ∧ run unit line xs v₁ = .error f v' := by
  rw [run, bind_error]
  refine or_congr_right (exists_congr fun now => exists_congr fun v₁ => and_congr_right fun _ => ?_)
  -- the notes are put together only if both steps succeed
  rw [bind_error]
  constructor
  · rintro (hrun | ⟨later, v₂, -, hpure⟩)
    · exact hrun
    · cases hpure
  · exact Or.inl

/-- A run fails at its first step that does. -/
theorem run_error :
    run unit line xs v = .error f v' ↔ ∃ earlier x later ns v₁, xs = earlier ++ x :: later ∧
      run unit line earlier v = .ok ns v₁ ∧ step unit line x v₁ = .error f v' := by
  constructor
  · intro h
    induction xs generalizing v with
    | nil => cases h
    | cons x xs ih =>
        rcases run_cons_error.mp h with hx | ⟨now, v₁, hx, hrun⟩
        · exact ⟨[], x, xs, [], v, rfl, rfl, hx⟩
        · obtain ⟨earlier, y, later, ns, v₂, rfl, hearlier, hy⟩ := ih hrun
          have hbefore := run_cons_ok.mpr ⟨now, v₁, ns, hx, hearlier, rfl⟩
          exact ⟨x :: earlier, y, later, _, v₂, rfl, hbefore, hy⟩
  · rintro ⟨earlier, x, later, ns, v₁, rfl, hearlier, hx⟩
    induction earlier generalizing v ns with
    | nil =>
        cases hearlier
        exact run_cons_error.mpr (Or.inl hx)
    | cons y earlier ih =>
        obtain ⟨now, v₂, ns', hy, hrest, -⟩ := run_cons_ok.mp hearlier
        exact run_cons_error.mpr (Or.inr ⟨now, v₂, hy, ih ns' hrest⟩)

/-! ## The group that is open -/

/-- A token that is no parenthesis leaves the group open that is. -/
theorem Takes.opening_eq (h : Takes unit x v now v') (hx : x.token.isParenthesis = false) :
    v'.group.map (·.opening) = v.group.map (·.opening) := by
  cases h with
  | note => rfl
  | member _ _ hgroup => rw [hgroup]; rfl
  | shift => rfl
  | opening htoken => rw [htoken] at hx; cases hx
  | closing htoken => rw [htoken] at hx; cases hx

theorem run_opening_eq (h : run unit line xs v = .ok ns v')
    (hxs : ∀ x ∈ xs, x.token.isParenthesis = false) :
    v'.group.map (·.opening) = v.group.map (·.opening) := by
  induction xs generalizing v ns with
  | nil =>
      cases h
      rfl
  | cons x xs ih =>
      obtain ⟨hx, hlater⟩ := List.forall_mem_cons.mp hxs
      obtain ⟨now, v₁, later, hstep, hrun, -⟩ := run_cons_ok.mp h
      rw [ih hrun hlater, (step_ok.mp hstep).opening_eq hx]

/-- The group that is open at the end was opened by the last parenthesis. -/
theorem opening_of_run (h : run unit line (earlier ++ x :: later) v = .ok ns v')
    (hx : x.token = .opening) (hlater : ∀ y ∈ later, y.token.isParenthesis = false) :
    v'.group.map (·.opening) = some x := by
  obtain ⟨_, v₁, _, -, hrest, -⟩ := run_append_ok.mp h
  obtain ⟨_, v₂, _, hstep, hrun, -⟩ := run_cons_ok.mp hrest
  have hgroup : v₂.group.map (·.opening) = some x := by
    cases step_ok.mp hstep with
    | opening => rfl
    | note hkind => rw [hx] at hkind; cases hkind
    | member hkind => rw [hx] at hkind; cases hkind
    | shift hshift => rw [hx] at hshift; cases hshift
    | closing htoken => rw [hx] at htoken; cases htoken
  rw [run_opening_eq hrun hlater, hgroup]

theorem opening_iff_of_run (h : run unit line xs { octave } = .ok ns v) :
    v.group.map (·.opening) = some x ↔ ∃ earlier later, xs = earlier ++ x :: later ∧
      x.token = .opening ∧ ∀ y ∈ later, y.token.isParenthesis = false := by
  constructor
  · intro hx
    have hopen : Token.GroupOpen (xs.map (·.token)) := by
      rw [← List.nil_append (xs.map _), ((behind_nil octave).run h).groupOpen_iff,
        ← Option.isSome_map, hx]
      rfl
    obtain ⟨_, _, htokens, hnone⟩ := Token.groupOpen_iff.mp hopen
    obtain ⟨earlier, rest, rfl, -, hrest⟩ := List.map_eq_append_iff.mp htokens
    obtain ⟨y, later, rfl, hy, rfl⟩ := List.map_eq_cons_iff.mp hrest
    have hlater : ∀ z ∈ later, z.token.isParenthesis = false :=
      fun z hz => hnone _ (List.mem_map_of_mem hz)
    -- no other token can be the one of the open group
    obtain rfl : y = x := by rw [← Option.some_inj, ← hx, opening_of_run h hy hlater]
    exact ⟨earlier, later, rfl, hy, hlater⟩
  · rintro ⟨earlier, later, rfl, hx, hlater⟩
    exact opening_of_run h hx hlater

end Voice

/-! ## The token at fault -/

/-- The token where the tokens of a melody line go wrong, with the cause that is reported and the
octave in effect there. -/
inductive Lexeme.Wrong (unit : Ticks) (octave : Int) (xs : List Lexeme) (x : Lexeme) :
    Option Misplacement → Int → Prop
  /-- The first one that may not stand where it stands. -/
  | offends {earlier later : List Lexeme} {cause : Option Misplacement}
      (hxs : xs = earlier ++ x :: later)
      (hearlier : Token.EachAllowed unit octave (earlier.map (·.token)))
      (hx : x.token.Offends unit octave (earlier.map (·.token)) cause) :
      Wrong unit octave xs x cause (Token.octaveAfter octave (earlier.map (·.token)))
  /-- If there is none, the parenthesis of the group that is left open. -/
  | unclosed {earlier later : List Lexeme} (hxs : xs = earlier ++ x :: later)
      (hall : Token.EachAllowed unit octave (xs.map (·.token))) (hx : x.token = .opening)
      (hlater : ∀ y ∈ later, y.token.isParenthesis = false) :
      Wrong unit octave xs x (some .unclosedGroup) (Token.octaveAfter octave (xs.map (·.token)))

namespace Melody

variable {unit : Ticks} {line : Nat} {text : Text} {octave octave' : Int} {f : Fault}

theorem read_error : read unit line text octave = .error f octave' ↔
    (∃ v, Voice.run unit line (Lexeme.scan text) { octave } = .error f v ∧ octave' = v.octave) ∨
      ∃ ns v x, Voice.run unit line (Lexeme.scan text) { octave } = .ok ns v ∧
        v.group.map (·.opening) = some x ∧
        f = .ofToken line x.column x.quote (some .unclosedGroup) ∧ octave' = v.octave := by
  rw [read_eq]
  cases Voice.run unit line (Lexeme.scan text) { octave } with
  | error e v => simp [ended, eq_comm]
  | ok notes v =>
      obtain ⟨o, group⟩ := v
      cases group <;> simp [ended, eq_comm, Fault.ofToken, Lexeme.misplaced]

/-- **A line cannot be read** exactly if its tokens go wrong, and the fault is the one of the token
where they do. -/
theorem read_error_iff : read unit line text octave = .error f octave' ↔
    ∃ x cause, Lexeme.Wrong unit octave (Lexeme.scan text) x cause octave' ∧
      f = .ofToken line x.column x.quote cause := by
  have hnil := Voice.behind_nil octave
  rw [read_error]
  constructor
  · rintro (⟨v, hrun, rfl⟩ | ⟨ns, v, x, hrun, hopening, rfl, rfl⟩)
    · obtain ⟨earlier, x, later, ns, v₁, hxs, hearlier, hx⟩ := Voice.run_error.mp hrun
      have hbehind := hnil.run hearlier
      obtain ⟨rfl, cause, hoffends, rfl⟩ := hbehind.step_error_iff.mp hx
      rw [hbehind.octave_eq]
      exact ⟨x, cause, .offends hxs ((Voice.exists_run_iff line).mp ⟨ns, _, hearlier⟩) hoffends, rfl⟩
    · obtain ⟨earlier, later, hxs, hx, hlater⟩ := (Voice.opening_iff_of_run hrun).mp hopening
      rw [(hnil.run hrun).octave_eq]
      exact ⟨x, _, .unclosed hxs ((Voice.exists_run_iff line).mp ⟨ns, v, hrun⟩) hx hlater, rfl⟩
  · rintro ⟨x, cause, hwrong, rfl⟩
    cases hwrong with
    | offends hxs hearlier hx =>
        obtain ⟨ns, v, hrun⟩ := (Voice.exists_run_iff line).mpr hearlier
        have hbehind := hnil.run hrun
        have hstep := hbehind.step_of_offends hx line
        exact Or.inl ⟨v, Voice.run_error.mpr ⟨_, x, _, ns, v, hxs, hrun, hstep⟩,
          hbehind.octave_eq.symm⟩
    | unclosed hxs hall hx hlater =>
        obtain ⟨ns, v, hrun⟩ := (Voice.exists_run_iff line).mpr hall
        have hopening := (Voice.opening_iff_of_run hrun).mpr ⟨_, _, hxs, hx, hlater⟩
        exact Or.inr ⟨ns, v, x, hrun, hopening, rfl, (hnil.run hrun).octave_eq.symm⟩

end Melody

/-! ## The line that is quoted -/

/-- A text quotes a line from a column on, without the blanks at its end. -/
structure Text.QuotedAt (line : Text) (column : Nat) (quote : Text) : Prop where
  one_le : 1 ≤ column
  le_length : column ≤ line.length
  exists_blanks : ∃ blanks : Text, line.drop (column - 1) = quote ++ blanks ∧ blanks.allBlank = true
  last : ∀ c ∈ quote.getLast?, isBlank c = false

namespace Lexeme

/-- A token of a line is the longest one at its column, and what it quotes begins there. -/
theorem Cut.exists_of_mem {column : Nat} {text : Text} {xs : List Lexeme} {x : Lexeme}
    (h : Cut column text xs) (hx : x ∈ xs) :
    ∃ front w back, text = front ++ (w ++ back) ∧ x.column = column + front.length ∧
      x.source = w ++ back ∧ x.token.Longest w (w ++ back) := by
  induction h with
  | nil => cases hx
  | @blank column c s xs hc _ ih =>
      obtain ⟨front, w, back, rfl, hcolumn, hsource, hlongest⟩ := ih hx
      refine ⟨c :: front, w, back, rfl, ?_, hsource, hlongest⟩
      rw [hcolumn, List.length_cons]
      omega
  | @token column t u s xs ht _ ih =>
      rcases List.mem_cons.mp hx with rfl | hx
      · exact ⟨[], u, s, rfl, rfl, rfl, ht⟩
      · obtain ⟨front, w, back, rfl, hcolumn, hsource, hlongest⟩ := ih hx
        refine ⟨u ++ front, w, back, (List.append_assoc _ _ _).symm, ?_, hsource, hlongest⟩
        rw [hcolumn, List.length_append]
        omega

variable {text : Text} {x : Lexeme}

theorem source_of_mem_scan (hx : x ∈ scan text) :
    x.source = text.drop (x.column - 1) ∧ ∃ w, x.token.Longest w x.source := by
  obtain ⟨front, w, back, htext, hcolumn, hsource, hlongest⟩ :=
    (cut_iff.mpr rfl : Cut 1 text (scan text)).exists_of_mem hx
  have hfront : x.column - 1 = front.length := by omega
  rw [← hsource] at htext hlongest
  refine ⟨?_, w, hlongest⟩
  rw [hfront, htext, List.drop_left]

/-- What a token of a line quotes. -/
theorem quotedAt_quote (hx : x ∈ scan text) : text.QuotedAt x.column x.quote := by
  obtain ⟨hfirst, hlast⟩ := column_of_mem_scan hx
  obtain ⟨blanks, hsource, hblanks, hquote⟩ := Text.exists_dropEnd Text.isBlank x.source
  refine ⟨hfirst, hlast, ⟨blanks, ?_, List.all_eq_true.mpr hblanks⟩, hquote⟩
  rw [← (source_of_mem_scan hx).1]
  exact hsource

/-- The character in the column of a token is the first one of its spelling. -/
theorem head?_of_longest {w : Text} (hx : x ∈ scan text) (hw : x.token.Longest w x.source) :
    ∃ c, w.head? = some c ∧ text[x.column - 1]? = some c := by
  obtain ⟨c, u, rfl, -⟩ := hw.spelled.exists_cons
  obtain ⟨back, hback⟩ := hw.begins
  refine ⟨c, rfl, ?_⟩
  rw [← List.head?_drop, ← (source_of_mem_scan hx).1, ← hback]
  rfl

variable {unit : Ticks} {octave octave' : Int} {xs : List Lexeme} {cause : Option Misplacement}

theorem Wrong.mem (h : Wrong unit octave xs x cause octave') : x ∈ xs := by
  cases h with
  | offends hxs => rw [hxs]; simp
  | unclosed hxs => rw [hxs]; simp

/-- A group is reported to be left open at a parenthesis that opens it. -/
theorem Wrong.token_eq (h : Wrong unit octave xs x (some .unclosedGroup) octave') :
    x.token = .opening := by
  cases h with
  | offends _ _ hx => generalize x.token = token at hx; cases hx
  | unclosed _ _ hx => exact hx

end Lexeme

/-- **The fault of a melody line quotes the token at fault.** The tokens of a line that cannot be read
go wrong at one of them. Its column is the one that is reported, within the line, and the character
there is the first one of the token: of a group that is left open, its parenthesis. What is quoted is the
line from there on, without the blanks at its end. Of all the settings, only the octave can have
changed. -/
theorem Melody.fault_quotes_token (σ : Settings) (line : Nat) (text : Text) (f : Fault)
    (octave' : Int) (h : read σ.tickUnit line text σ.octave = .error f octave') :
    ∃ xs x w cause quote, Lexeme.Cut 1 text xs ∧
      Lexeme.Wrong σ.tickUnit σ.octave xs x cause octave' ∧
      f = .ofToken line x.column quote cause ∧ text.QuotedAt x.column quote ∧
      x.token.Longest w (text.drop (x.column - 1)) ∧
      (∃ c, w.head? = some c ∧ text[x.column - 1]? = some c) ∧
      (cause = some .unclosedGroup → text[x.column - 1]? = some '(') ∧
      ∀ (s : Score) (lyrics : List Syllable), s.settings = σ → s.line = line →
        s.feedMelody lyrics text
          = .error f { s with settings := { σ with octave := octave' } } := by
  obtain ⟨x, cause, hwrong, hf⟩ := read_error_iff.mp h
  have hmem := hwrong.mem
  obtain ⟨hsource, w, hw⟩ := Lexeme.source_of_mem_scan hmem
  obtain ⟨c, hc, hat⟩ := Lexeme.head?_of_longest hmem hw
  refine ⟨Lexeme.scan text, x, w, cause, x.quote, Lexeme.cut_iff.mpr rfl, hwrong, hf,
    Lexeme.quotedAt_quote hmem, hsource ▸ hw, ⟨c, hc, hat⟩, ?_, ?_⟩
  · rintro rfl
    -- there is only one way to spell a token that opens a group
    have hspelled := hw.spelled
    rw [hwrong.token_eq] at hspelled
    cases hspelled
    rw [hat, ← hc]
    rfl
  · rintro s lyrics rfl rfl
    rw [Score.feedMelody, h]

/-- A group that is left open. The characters in front of it and behind it are not in one byte, and the
wide blank at the end is not quoted. -/
theorem Melody.fault_quotes_token_open_group :
    let text : Text := "\u00e9 o3 (d\u3000".toList
    read 220 7 text 4 = .error (.misplaced 7 6 "(d".toList .unclosedGroup) 3 ∧
      (∃ xs x, Lexeme.Cut 1 text xs ∧ Lexeme.Wrong 220 4 xs x (some .unclosedGroup) 3 ∧
        x.column = 6) ∧
      text.QuotedAt 6 "(d".toList ∧ text[5]? = some '(' := by
  intro text
  have h : read 220 7 text 4 = .error (.misplaced 7 6 "(d".toList .unclosedGroup) 3 :=
    failure?_eq_some.mp (by decide +kernel)
  obtain ⟨xs, x, w, cause, quote, hcut, hwrong, hf, hquoted, -, -, hopen, -⟩ :=
    fault_quotes_token {} 7 text _ 3 h
  cases cause with
  | none => cases hf
  | some cause =>
      obtain ⟨-, hcolumn, rfl, rfl⟩ := Fault.misplaced.inj hf
      rw [← hcolumn] at hquoted hopen
      exact ⟨h, ⟨xs, x, hcut, hwrong, hcolumn.symm⟩, hquoted, hopen rfl⟩

end SungScore
