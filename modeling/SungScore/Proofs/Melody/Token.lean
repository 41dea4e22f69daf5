import SungScore.Melody.Token
import SungScore.Proofs.Text.Cut

set_option autoImplicit false

/-!
# Places of melody tokens

No token of a melody line reaches over a blank: the digits of a number end there, and so does the
spelling of a pitch. So the tokens stand at ascending columns, and a line that is written behind
another one, with a blank in between, has its tokens behind those of the other one
(`Lexeme.scan_append`). The tokens in front are the same but for the source that they quote, which
goes on now.
-/

namespace SungScore

/-! ## One token -/

theorem isPrefixOf_append_of_forall_ne {c : Char} {p : Text} (hp : ∀ x ∈ p, x ≠ c) (s b : Text) :
    p.isPrefixOf (s ++ c :: b) = p.isPrefixOf s := by
  induction p generalizing s with
  | nil => simp
  | cons x p ih =>
      have hx : x ≠ c := hp x (by simp)
      cases s with
      | nil => simp [List.isPrefixOf, hx]
      | cons d s =>
          rw [List.cons_append, List.isPrefixOf, List.isPrefixOf,
            ih (fun y hy => hp y (List.mem_cons_of_mem _ hy))]

namespace Letter

variable {c : Char} (hc : Text.isBlank c = true) (l : Letter) (s b : Text)

theorem not_isBlank_of_any {flat : Text} (h : flat.any Text.isBlank = false) :
    ∀ x ∈ flat, Text.isBlank x = false :=
  fun x hx => Bool.eq_false_iff.mpr (List.any_eq_false.mp h x hx)

theorem not_isBlank_of_flatEnding {l : Letter} {flat : Text} (h : l.flatEnding? = some flat) :
    ∀ x ∈ flat, Text.isBlank x = false := by
  apply not_isBlank_of_any
  cases l <;> cases h <;> rfl

include hc in
theorem ending_append : l.ending (s ++ c :: b) = l.ending s := by
  have hsharp : ∀ x ∈ ['i', 's'], Text.isBlank x = false := not_isBlank_of_any rfl
  rw [ending, ending,
    isPrefixOf_append_of_forall_ne (fun x hx => Text.ne_of_isBlank hc (hsharp x hx))]
  cases hflat : l.flatEnding? with
  | none => rfl
  | some flat =>
      have hnot := not_isBlank_of_flatEnding hflat
      dsimp only
      rw [isPrefixOf_append_of_forall_ne (fun x hx => Text.ne_of_isBlank hc (hnot x hx))]

theorem ending_le : (l.ending s).2 ≤ s.length := by
  rw [ending]
  split
  · rename_i h
    exact (List.isPrefixOf_iff_prefix.mp h).length_le
  · cases l.flatEnding? with
    | none => exact Nat.zero_le _
    | some flat =>
        dsimp only
        split
        · rename_i h
          exact (List.isPrefixOf_iff_prefix.mp h).length_le
        · exact Nat.zero_le _

end Letter

/-- No token reaches over a blank. -/
theorem Token.read_append {c : Char} (hc : Text.isBlank c = true) (d : Char) (s b : Text) :
    Token.read d (s ++ c :: b) = Token.read d s := by
  rw [read, read, takeWhile_append_of_neg (Text.not_isDigit_of_isBlank hc)]
  cases Letter.ofChar? d with
  | none => rfl
  | some l =>
      dsimp only
      rw [Letter.ending_append hc]

/-- A token takes no more characters than there are. -/
theorem Token.read_le (d : Char) (s : Text) : (Token.read d s).2 ≤ s.length := by
  have hdigits : (s.takeWhile Char.isDigit).length ≤ s.length :=
    (List.takeWhile_sublist _).length_le
  unfold read
  split
  · exact Letter.ending_le _ s
  · dsimp only
    split
    case h_1 => exact hdigits
    case h_2 =>
      split
      · exact hdigits
      · exact Nat.zero_le _
    case h_7 => exact hdigits
    all_goals exact Nat.zero_le _

/-! ## The tokens of a line -/

namespace Lexeme

/-- The token with more of the line behind it. -/
def followed (more : Text) (x : Lexeme) : Lexeme := { x with source := x.source ++ more }

/-- The token in another column. -/
def moved (g : Nat → Nat) (x : Lexeme) : Lexeme := { x with column := g x.column }

/-- Reading a token together with the source that it quotes. -/
def readToken (c : Char) (s : Text) : (Token × Text) × Nat :=
  (((Token.read c s).1, c :: s), (Token.read c s).2)

theorem scanFrom_eq_cut (taken column : Nat) (s : Text) :
    scanFrom taken column s
      = (Text.cutFrom readToken taken column s).map (fun x => ⟨x.2.1, x.1, x.2.2⟩) := by
  fun_induction scanFrom taken column s with
  | case1 => simp [Text.cutFrom]
  | case2 column taken c s ih => rw [Text.cutFrom, ih]
  | case3 column c s hc ih => rw [Text.cutFrom, if_pos hc, ih]
  | case4 column c s hc token count hread ih =>
      have htoken : token = (Token.read c s).1 := by rw [hread]
      have hcount : count = (Token.read c s).2 := by rw [hread]
      rw [Text.cutFrom, if_neg hc, List.map_cons, ih, htoken, hcount]
      rfl

theorem ascending_scan (s : Text) : Ascending ((scan s).map (·.column)) := by
  rw [scan, scanFrom_eq_cut, List.map_map]
  exact Text.ascending_cutFrom 0 1 s

theorem column_of_mem_scan {s : Text} {x : Lexeme} (h : x ∈ scan s) :
    1 ≤ x.column ∧ x.column ≤ s.length := by
  rw [scan, scanFrom_eq_cut] at h
  obtain ⟨y, hy, rfl⟩ := List.mem_map.mp h
  have hcolumn := Text.column_of_mem_cutFrom _ _ _ y hy
  dsimp only
  omega

/-- **A line behind another one**, with blanks in between, has its tokens behind those of the
other. -/
theorem scan_append {gap : Text} (hgap : gap.allBlank = true) (hne : gap ≠ []) (a b : Text) :
    scan (a ++ (gap ++ b))
      = (scan a).map (followed (gap ++ b)) ++ (scan b).map (moved (· + (a ++ gap).length)) := by
  have hread : ∀ d s, readToken d (s ++ (gap ++ b))
      = (((readToken d s).1.1, (readToken d s).1.2 ++ (gap ++ b)), (readToken d s).2) := by
    obtain ⟨c, gap', rfl, hc⟩ := Text.exists_blank_cons hgap hne
    intro d s
    rw [readToken, readToken, List.cons_append, Token.read_append hc]
    rfl
  rw [scan, scan, scan, scanFrom_eq_cut, scanFrom_eq_cut, scanFrom_eq_cut,
    Text.cutFrom_gap (φ := fun x => (x.1, x.2 ++ (gap ++ b))) hgap hread Token.read_le,
    List.map_append, List.map_map, List.map_map, List.map_map, List.map_map]
  rfl

end Lexeme

end SungScore
