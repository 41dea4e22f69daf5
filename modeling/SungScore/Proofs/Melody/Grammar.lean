import Mathlib.Data.List.TakeWhile
import SungScore.Proofs.Melody.Token
import SungScore.Proofs.Text.Decimal

set_option autoImplicit false

/-!
# The grammar of a melody line

A melody line is cut into blanks and tokens, and at every place the longest token is taken that can
be spelled there. `Token.Spelled` says how tokens are spelled, `Token.Longest` which spelling is the
longest, and `Lexeme.Cut` how a line is cut. A line can be cut in exactly one way, which is the one in
which it is scanned (`Lexeme.cut_iff`).
-/

namespace SungScore

/-! ## Spellings -/

/-- The spellings of the pitches without an octave of their own. -/
def Pitch.spellings : List (Text × Pitch) :=
  [("c".toList, ⟨.c, .natural⟩), ("cis".toList, ⟨.c, .sharp⟩), ("ces".toList, ⟨.c, .flat⟩),
    ("d".toList, ⟨.d, .natural⟩), ("dis".toList, ⟨.d, .sharp⟩), ("des".toList, ⟨.d, .flat⟩),
    ("e".toList, ⟨.e, .natural⟩), ("eis".toList, ⟨.e, .sharp⟩), ("es".toList, ⟨.e, .flat⟩),
    ("f".toList, ⟨.f, .natural⟩), ("fis".toList, ⟨.f, .sharp⟩), ("fes".toList, ⟨.f, .flat⟩),
    ("g".toList, ⟨.g, .natural⟩), ("gis".toList, ⟨.g, .sharp⟩), ("ges".toList, ⟨.g, .flat⟩),
    ("a".toList, ⟨.a, .natural⟩), ("ais".toList, ⟨.a, .sharp⟩), ("as".toList, ⟨.a, .flat⟩),
    ("h".toList, ⟨.h, .natural⟩), ("his".toList, ⟨.h, .sharp⟩), ("b".toList, ⟨.h, .flat⟩)]

/-- How a token is spelled. -/
inductive Token.Spelled : Token → Text → Prop
  | pitch {w : Text} {p : Pitch} (h : (w, p) ∈ Pitch.spellings) : Spelled (.pitch p none) w
  /-- Only the pitch that is written `b` can be followed by an octave. -/
  | pitchIn {digits : Text} {n : Nat} (h : Decimal.nat? digits = some n) :
      Spelled (.pitch ⟨.h, .flat⟩ (some n)) ('b' :: digits)
  | octave {digits : Text} {n : Nat} (h : Decimal.nat? digits = some n) :
      Spelled (.octave n) ('o' :: digits)
  | raise : Spelled .raise ['<']
  | lower : Spelled .lower ['>']
  | tie : Spelled .tie ['-']
  | opening : Spelled .opening ['(']
  | closing : Spelled (.closing none) [')']
  | closingWith {digits : Text} {n : Nat} (h : Decimal.nat? digits = some n) :
      Spelled (.closing (some n)) (')' :: digits)
  /-- Any other character. -/
  | rest {c : Char} (hblank : Text.isBlank c = false) (hother : c ∉ "cdefgahb<>-()".toList) :
      Spelled .rest [c]

/-- A text begins with a spelling of the token, and with no longer spelling of any token. -/
structure Token.Longest (t : Token) (w s : Text) : Prop where
  spelled : t.Spelled w
  begins : w <+: s
  longest : ∀ {t' : Token} {w' : Text}, t'.Spelled w' → w' <+: s → w'.length ≤ w.length

/-- How a text is cut whose first character stands in the given column: every token is the longest
one at its place. -/
inductive Lexeme.Cut : Nat → Text → List Lexeme → Prop
  | nil {column : Nat} : Cut column [] []
  | blank {column : Nat} {c : Char} {s : Text} {xs : List Lexeme} (hc : Text.isBlank c = true)
      (h : Cut (column + 1) s xs) : Cut column (c :: s) xs
  | token {column : Nat} {t : Token} {w s : Text} {xs : List Lexeme} (ht : t.Longest w (w ++ s))
      (h : Cut (column + w.length) s xs) : Cut column (w ++ s) (⟨t, column, w ++ s⟩ :: xs)

/-! ## Digits -/

namespace Decimal

theorem nat?_eq_none_iff {s : Text} (hs : ∀ c ∈ s, c.isDigit = true) :
    nat? s = none ↔ s = [] := by
  rw [nat?, List.all_eq_true.mpr hs]
  cases s <;> simp

end Decimal

/-! ## Endings of letters -/

namespace Letter

/-- What is written behind a letter for an accidental. -/
def ending? (l : Letter) : Accidental → Option Text
  | .natural => some []
  | .sharp => some ['i', 's']
  | .flat => l.flatEnding?

variable {l : Letter} {a : Accidental} {e s : Text}

theorem flatEnding?_ne_nil (h : l.flatEnding? = some e) : e ≠ [] := by
  rintro rfl
  cases l <;> cases h

/-- What lowers a letter does not begin like what sharpens it. -/
theorem not_sharp_of_flat (h : l.flatEnding? = some e) (he : e <+: s) : ¬ ['i', 's'] <+: s := by
  obtain ⟨r, rfl⟩ := he
  cases l <;> cases h <;> simp

theorem ending_of_sharp (h : ['i', 's'] <+: s) : l.ending s = (.sharp, 2) := by
  rw [ending, if_pos (List.isPrefixOf_iff_prefix.mpr h)]

theorem ending_of_flat (hflat : l.flatEnding? = some e) (h : e <+: s) :
    l.ending s = (.flat, e.length) := by
  rw [ending, if_neg (fun hc => not_sharp_of_flat hflat h (List.isPrefixOf_iff_prefix.mp hc)), hflat]
  exact if_pos (List.isPrefixOf_iff_prefix.mpr h)

theorem ending_of_natural (hsharp : ¬ ['i', 's'] <+: s)
    (hflat : ∀ e, l.flatEnding? = some e → ¬ e <+: s) : l.ending s = (.natural, 0) := by
  rw [ending, if_neg (fun hc => hsharp (List.isPrefixOf_iff_prefix.mp hc))]
  cases he : l.flatEnding? with
  | none => rfl
  | some e => exact if_neg (fun hc => hflat e he (List.isPrefixOf_iff_prefix.mp hc))

/-- What is read behind a letter is what is written there for the accidental. -/
theorem ending?_ending (l : Letter) (s : Text) :
    l.ending? (l.ending s).1 = some (s.take (l.ending s).2) := by
  by_cases hsharp : ['i', 's'] <+: s
  · have htake : ['i', 's'] = s.take 2 := List.prefix_iff_eq_take.mp hsharp
    rw [ending_of_sharp hsharp, ← htake]
    rfl
  by_cases hflat : ∃ e, l.flatEnding? = some e ∧ e <+: s
  · obtain ⟨e, he, hes⟩ := hflat
    rw [ending_of_flat he hes, ← List.prefix_iff_eq_take.mp hes]
    exact he
  · rw [ending_of_natural hsharp (fun e he hes => hflat ⟨e, he, hes⟩)]
    rfl

/-- Nothing longer is written there for any accidental. -/
theorem length_le_ending (h : l.ending? a = some e) (hs : e <+: s) :
    e.length ≤ (l.ending s).2 ∧ (e.length = (l.ending s).2 → a = (l.ending s).1) := by
  cases a with
  | sharp =>
      cases h
      simp [ending_of_sharp hs]
  | flat => simp [ending_of_flat h hs]
  | natural =>
      cases h
      refine ⟨Nat.zero_le _, fun hzero => ?_⟩
      -- only the natural letter has nothing behind it
      have hend := l.ending?_ending s
      rw [← hzero, List.length_nil, List.take_zero] at hend
      generalize (l.ending s).1 = a at hend
      cases a with
      | natural => rfl
      | sharp => cases hend
      | flat => exact absurd rfl (flatEnding?_ne_nil hend)

theorem mem_spellings {c : Char} (hc : ofChar? c = some l) (he : l.ending? a = some e) :
    (c :: e, (⟨l, a⟩ : Pitch)) ∈ Pitch.spellings := by
  unfold ofChar? at hc
  split at hc <;> cases hc <;> cases a <;> cases he <;> decide

end Letter

/-- A spelling of a pitch is a letter and what is written behind it, or else `b`. -/
theorem Pitch.spelling_cases :
    ∀ x ∈ spellings, x = (['b'], ⟨.h, .flat⟩) ∨ x.1.head?.bind Letter.ofChar? = some x.2.letter ∧
      x.2.letter.ending? x.2.accidental = some x.1.tail := by
  decide

/-! ## The longest token -/

namespace Token

variable {t : Token} {c : Char} {n : Nat} {u s w : Text}

/-- The digits that a text begins with. -/
def digits (s : Text) : Text := s.takeWhile Char.isDigit

theorem take_digits (s : Text) : s.take (digits s).length = digits s :=
  (List.prefix_iff_eq_take.mp (List.takeWhile_prefix _)).symm

theorem nat?_digits_eq_none_iff : Decimal.nat? (digits s) = none ↔ digits s = [] :=
  Decimal.nat?_eq_none_iff (fun _ hc => List.mem_takeWhile_imp hc)

/-- A number at the beginning of a text has no more digits than there are, and if it has all of them
it is the number that is read. -/
theorem le_digits (hn : Decimal.nat? u = some n) (hu : u <+: s) :
    u.length ≤ (digits s).length ∧
      (u.length = (digits s).length → Decimal.nat? (digits s) = some n) := by
  have hdigits : u <+: digits s := prefix_takeWhile_of_forall hu (Decimal.nat?_eq_some_iff.mp hn).1.isDigit
  refine ⟨hdigits.length_le, fun hlength => ?_⟩
  rw [← hdigits.eq_of_length hlength]
  exact hn

/-! What is read at each character: -/

theorem read_letter {l : Letter} (hc : Letter.ofChar? c = some l) (s : Text) :
    read c s = (.pitch ⟨l, (l.ending s).1⟩ none, (l.ending s).2) := by
  rw [read, hc]

theorem read_b (s : Text) :
    read 'b' s = (.pitch ⟨.h, .flat⟩ (Decimal.nat? (digits s)), (digits s).length) := rfl

theorem read_o (s : Text) :
    read 'o' s = match Decimal.nat? (digits s) with
      | some n => (.octave n, (digits s).length)
      | none => (.rest, 0) := rfl

theorem read_closing (s : Text) :
    read ')' s = (.closing (Decimal.nat? (digits s)), (digits s).length) := rfl

/-- The characters at which something else may be read than a rest. -/
theorem initial_cases : ∀ c ∈ "cdefgahbo<>-()".toList,
    (Letter.ofChar? c).isSome ∨ c = 'b' ∨ c = 'o' ∨ c = '<' ∨ c = '>' ∨ c = '-' ∨ c = '(' ∨
      c = ')' :=
  List.forall_iff_forall_mem.mp (by decide)

theorem read_rest (hc : c ∉ "cdefgahbo<>-()".toList) (s : Text) : read c s = (.rest, 0) := by
  have hletter : Letter.ofChar? c = none := by
    unfold Letter.ofChar?
    split <;> first | rfl | exact absurd (by decide) hc
  rw [read, hletter]
  dsimp only
  split
  case h_8 => rfl
  all_goals exact absurd (by decide) hc

/-- What is read is a spelling of the token. -/
theorem spelled_read (hc : Text.isBlank c = false) (s : Text) :
    (read c s).1.Spelled (c :: s.take (read c s).2) := by
  by_cases hmem : c ∈ "cdefgahbo<>-()".toList
  · rcases initial_cases c hmem with hletter | rfl | rfl | rfl | rfl | rfl | rfl | rfl
    · obtain ⟨l, hl⟩ := Option.isSome_iff_exists.mp hletter
      rw [read_letter hl]
      exact .pitch (Letter.mem_spellings hl (l.ending?_ending s))
    · rw [read_b, take_digits]
      cases hn : Decimal.nat? (digits s) with
      | none =>
          rw [nat?_digits_eq_none_iff.mp hn]
          exact .pitch (by decide)
      | some n => exact .pitchIn hn
    · rw [read_o]
      cases hn : Decimal.nat? (digits s) with
      | none => exact .rest hc (by decide)
      | some n =>
          dsimp only
          rw [take_digits]
          exact .octave hn
    · exact .raise
    · exact .lower
    · exact .tie
    · exact .opening
    · rw [read_closing, take_digits]
      cases hn : Decimal.nat? (digits s) with
      | none =>
          rw [nat?_digits_eq_none_iff.mp hn]
          exact .closing
      | some n => exact .closingWith hn
  · have hsubset : ∀ d ∈ "cdefgahb<>-()".toList, d ∈ "cdefgahbo<>-()".toList :=
      List.forall_iff_forall_mem.mp (by decide)
    rw [read_rest hmem]
    exact .rest hc (fun hother => hmem (hsubset c hother))

/-- No token has a longer spelling there, and no other token has one that is as long. -/
theorem Spelled.le_read (h : t.Spelled (c :: u)) (hu : u <+: s) :
    u.length ≤ (read c s).2 ∧ (u.length = (read c s).2 → t = (read c s).1) := by
  generalize hw : c :: u = w at h
  cases h with
  | pitch hp =>
      rcases Pitch.spelling_cases _ hp with hb | ⟨hletter, hend⟩
      · obtain ⟨rfl, rfl⟩ := Prod.mk.inj hb
        obtain ⟨rfl, rfl⟩ := List.cons.inj hw
        rw [read_b]
        refine ⟨Nat.zero_le _, fun hzero => ?_⟩
        rw [nat?_digits_eq_none_iff.mpr (List.eq_nil_of_length_eq_zero hzero.symm)]
      · subst hw
        rw [read_letter hletter]
        obtain ⟨hle, heq⟩ := Letter.length_le_ending hend hu
        refine ⟨hle, fun hlength => ?_⟩
        rw [← heq hlength]
  | pitchIn hn =>
      obtain ⟨rfl, rfl⟩ := List.cons.inj hw
      obtain ⟨hle, hall⟩ := le_digits hn hu
      rw [read_b]
      refine ⟨hle, fun hlength => ?_⟩
      rw [hall hlength]
  | octave hn =>
      obtain ⟨rfl, rfl⟩ := List.cons.inj hw
      obtain ⟨hle, hall⟩ := le_digits hn hu
      rw [read_o]
      cases hm : Decimal.nat? (digits s) with
      | none =>
          -- there is a digit
          rw [nat?_digits_eq_none_iff.mp hm] at hle
          have hne := (Decimal.nat?_eq_some_iff.mp hn).1.ne_nil
          exact absurd (List.eq_nil_of_length_eq_zero (Nat.le_zero.mp hle)) hne
      | some m =>
          refine ⟨hle, fun hlength => ?_⟩
          rw [hall hlength] at hm
          cases hm
          rfl
  | raise =>
      obtain ⟨rfl, rfl⟩ := List.cons.inj hw
      exact ⟨le_rfl, fun _ => rfl⟩
  | lower =>
      obtain ⟨rfl, rfl⟩ := List.cons.inj hw
      exact ⟨le_rfl, fun _ => rfl⟩
  | tie =>
      obtain ⟨rfl, rfl⟩ := List.cons.inj hw
      exact ⟨le_rfl, fun _ => rfl⟩
  | opening =>
      obtain ⟨rfl, rfl⟩ := List.cons.inj hw
      exact ⟨le_rfl, fun _ => rfl⟩
  | closing =>
      obtain ⟨rfl, rfl⟩ := List.cons.inj hw
      rw [read_closing]
      refine ⟨Nat.zero_le _, fun hzero => ?_⟩
      rw [nat?_digits_eq_none_iff.mpr (List.eq_nil_of_length_eq_zero hzero.symm)]
  | closingWith hn =>
      obtain ⟨rfl, rfl⟩ := List.cons.inj hw
      obtain ⟨hle, hall⟩ := le_digits hn hu
      rw [read_closing]
      refine ⟨hle, fun hlength => ?_⟩
      rw [hall hlength]
  | rest hblank hother =>
      obtain ⟨rfl, rfl⟩ := List.cons.inj hw
      refine ⟨Nat.zero_le _, fun hzero => ?_⟩
      by_cases ho : c = 'o'
      · subst ho
        rw [read_o] at hzero ⊢
        cases hm : Decimal.nat? (digits s) with
        | none => rfl
        | some m =>
            rw [hm] at hzero
            have hne := (Decimal.nat?_eq_some_iff.mp hm).1.ne_nil
            exact absurd (List.eq_nil_of_length_eq_zero hzero.symm) hne
      · rw [read_rest]
        simp only [String.reduceToList, List.mem_cons, List.not_mem_nil, or_false] at hother ⊢
        tauto

/-- Every spelling begins with a character that is not blank. -/
theorem Spelled.exists_cons (h : t.Spelled w) : ∃ c u, w = c :: u ∧ Text.isBlank c = false := by
  cases h with
  | pitch hp =>
      have hhead : ∀ x ∈ Pitch.spellings, (x.1.head?.any fun c => !Text.isBlank c) = true := by
        decide
      obtain ⟨c, hc, hblank⟩ := (Option.any_eq_true _ _).mp (hhead _ hp)
      exact ⟨c, w.tail, List.eq_cons_of_mem_head? hc, (Bool.not_eq_true' _).mp hblank⟩
  | pitchIn => exact ⟨_, _, rfl, by decide⟩
  | octave => exact ⟨_, _, rfl, by decide⟩
  | raise => exact ⟨_, _, rfl, by decide⟩
  | lower => exact ⟨_, _, rfl, by decide⟩
  | tie => exact ⟨_, _, rfl, by decide⟩
  | opening => exact ⟨_, _, rfl, by decide⟩
  | closing => exact ⟨_, _, rfl, by decide⟩
  | closingWith => exact ⟨_, _, rfl, by decide⟩
  | rest hblank => exact ⟨_, _, rfl, hblank⟩

/-- **The token that is read is the longest one**, and the only one that is as long. -/
theorem longest_iff (hc : Text.isBlank c = false) :
    t.Longest w (c :: s) ↔ t = (read c s).1 ∧ w = c :: s.take (read c s).2 := by
  have hspelled := spelled_read hc s
  constructor
  · intro h
    obtain ⟨d, u, rfl, -⟩ := h.spelled.exists_cons
    obtain ⟨rfl, hu⟩ := List.cons_prefix_cons.mp h.begins
    obtain ⟨hle, hsame⟩ := h.spelled.le_read hu
    have hge := h.longest hspelled (List.cons_prefix_cons.mpr ⟨rfl, List.take_prefix _ _⟩)
    rw [List.length_cons, List.length_cons, List.length_take_of_le (read_le _ s)] at hge
    have hlength : u.length = (read d s).2 := by omega
    refine ⟨hsame hlength, ?_⟩
    rw [← hlength, ← List.prefix_iff_eq_take.mp hu]
  · rintro ⟨rfl, rfl⟩
    refine ⟨hspelled, List.cons_prefix_cons.mpr ⟨rfl, List.take_prefix _ _⟩, ?_⟩
    intro t' w' ht' hw'
    obtain ⟨d, u, rfl, -⟩ := ht'.exists_cons
    obtain ⟨rfl, hu⟩ := List.cons_prefix_cons.mp hw'
    rw [List.length_cons, List.length_cons, List.length_take_of_le (read_le _ s)]
    exact Nat.succ_le_succ (ht'.le_read hu).1

end Token

/-! ## The tokens of a line -/

namespace Lexeme

theorem scanFrom_eq_drop (taken column : Nat) (s : Text) :
    scanFrom taken column s = scanFrom 0 (column + taken) (s.drop taken) := by
  induction s generalizing taken column with
  | nil => simp [scanFrom]
  | cons c s ih =>
      cases taken with
      | zero => rfl
      | succ taken =>
          rw [scanFrom, ih, List.drop_succ_cons]
          congr 1
          omega

theorem scanFrom_blank {c : Char} (hc : Text.isBlank c = true) (column : Nat) (s : Text) :
    scanFrom 0 column (c :: s) = scanFrom 0 (column + 1) s := by
  rw [scanFrom, if_pos hc]

theorem scanFrom_token {t : Token} {w s : Text} (ht : t.Longest w (w ++ s)) (column : Nat) :
    scanFrom 0 column (w ++ s) = ⟨t, column, w ++ s⟩ :: scanFrom 0 (column + w.length) s := by
  obtain ⟨c, u, rfl, hc⟩ := ht.spelled.exists_cons
  rw [List.cons_append] at ht ⊢
  obtain ⟨rfl, hu⟩ := (Token.longest_iff hc).mp ht
  have hlength : (Token.read c (u ++ s)).2 = u.length := by
    have hcount := congrArg List.length (List.cons.inj hu).2
    rw [List.length_take_of_le (Token.read_le c (u ++ s))] at hcount
    exact hcount.symm
  rw [scanFrom, if_neg (by simp [hc])]
  dsimp only
  rw [hlength, scanFrom_eq_drop, List.drop_left, List.length_cons, Nat.add_right_comm, Nat.add_assoc]

theorem cut_scanFrom (column : Nat) (s : Text) : Cut column s (scanFrom 0 column s) := by
  induction hn : s.length using Nat.strongRecOn generalizing column s with
  | ind n ih =>
      cases s with
      | nil => exact .nil
      | cons c s =>
          rw [List.length_cons] at hn
          cases hc : Text.isBlank c with
          | true =>
              rw [scanFrom_blank hc]
              exact .blank hc (ih s.length (by omega) _ s rfl)
          | false =>
              -- the longest token, and what is left behind it
              obtain ⟨t, w, ht⟩ : ∃ t w, Token.Longest t w (c :: s) :=
                ⟨_, _, (Token.longest_iff hc).mpr ⟨rfl, rfl⟩⟩
              obtain ⟨r, hr⟩ := ht.begins
              obtain ⟨d, u, hw, -⟩ := ht.spelled.exists_cons
              rw [← hr] at ht ⊢
              rw [scanFrom_token ht]
              refine .token ht (ih _ ?_ _ _ rfl)
              have hlength := congrArg List.length hr
              rw [hw, List.length_append, List.length_cons, List.length_cons] at hlength
              omega

theorem Cut.eq_scanFrom {column : Nat} {s : Text} {xs : List Lexeme} (h : Cut column s xs) :
    xs = scanFrom 0 column s := by
  induction h with
  | nil => rfl
  | blank hc _ ih => rw [scanFrom_blank hc, ih]
  | token ht _ ih => rw [scanFrom_token ht, ih]

/-- **A line can be cut in exactly one way**, and so it is scanned. -/
theorem cut_iff {s : Text} {xs : List Lexeme} : Cut 1 s xs ↔ xs = scan s := by
  constructor
  · exact Cut.eq_scanFrom
  · rintro rfl
    exact cut_scanFrom 1 s

end Lexeme

end SungScore
