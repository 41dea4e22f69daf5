import SungScore.Fault
import Mathlib.Tactic

set_option autoImplicit false

/-!
# Cutting a line

The words of a lyric line and the tokens of a melody line are cut out of it in the same way: blanks
are passed over, and at every other character something is read that takes some of the characters
behind it. `Text.cutFrom` is this way of reading, for any `read`. What is cut out stands at ascending
columns (`ascending_cutFrom`). If nothing that is read reaches over a blank, then a line that is
written behind another one, with a blank in between, is cut behind it (`cutFrom_gap`).
-/

namespace SungScore

/-- Columns that ascend strictly. -/
abbrev Ascending (columns : List Nat) : Prop := columns.Pairwise (· < ·)

/-- A line that ascends has one token in a column. -/
theorem eq_of_column_eq {α : Type} {f : α → Nat} {xs : List α} (h : Ascending (xs.map f)) {x y : α}
    (hx : x ∈ xs) (hy : y ∈ xs) (hxy : f x = f y) : x = y :=
  List.inj_on_of_nodup_map (h.imp Nat.ne_of_lt) hx hy hxy

/-- The fault at another place: the line and the column where it is reported are mapped. -/
def Fault.moved (f g : Nat → Nat) : Fault → Fault
  | unrecognizable line column text => .unrecognizable (f line) (g column) text
  | misplaced line column text cause => .misplaced (f line) (g column) text cause
  | pragma line text cause => .pragma (f line) text cause
  | config cause => .config cause

/-- A run at the beginning of a list is within the longest such run. -/
theorem prefix_takeWhile_of_forall {α : Type} {p : α → Bool} {u s : List α} (h : u <+: s)
    (hp : ∀ x ∈ u, p x = true) : u <+: s.takeWhile p := by
  obtain ⟨t, rfl⟩ := h
  rw [List.takeWhile_append_of_pos hp]
  exact List.prefix_append _ _

/-- A run goes no further than an entry of another kind. -/
theorem takeWhile_append_of_neg {α : Type} {p : α → Bool} {c : α} (hc : p c = false)
    (xs ys : List α) : (xs ++ c :: ys).takeWhile p = xs.takeWhile p := by
  induction xs with
  | nil => simp [hc]
  | cons x xs ih => simp only [List.cons_append, List.takeWhile_cons, ih]

theorem dropWhile_append_of_neg {α : Type} {p : α → Bool} {c : α} (hc : p c = false)
    (xs ys : List α) : (xs ++ c :: ys).dropWhile p = xs.dropWhile p ++ c :: ys := by
  induction xs with
  | nil => simp [hc]
  | cons x xs ih =>
      simp only [List.cons_append, List.dropWhile_cons, ih]
      split <;> rfl

namespace Text

theorem ne_of_isBlank {c x : Char} (hc : isBlank c = true) (hx : isBlank x = false) :
    x ≠ c := by
  rintro rfl
  rw [hc] at hx
  cases hx

theorem not_isDigit_of_isBlank {c : Char} (hc : isBlank c = true) : c.isDigit = false := by
  have hval : c.toNat < 48 ∨ 57 < c.toNat := by
    simp only [isBlank, Bool.or_eq_true, Bool.and_eq_true, beq_iff_eq, decide_eq_true_eq] at hc
    omega
  have hge : c.val ≥ '0'.val ↔ 48 ≤ c.toNat := UInt32.le_iff_toNat_le
  have hle : c.val ≤ '9'.val ↔ c.toNat ≤ 57 := UInt32.le_iff_toNat_le
  rw [Char.isDigit, Bool.and_eq_false_iff, decide_eq_false_iff_not, decide_eq_false_iff_not, hge,
    hle]
  omega

variable {α : Type} {read : Char → Text → α × Nat}

/-- What is read of a text whose first character stands in the given column, each with its column.
A number of characters in front were taken before. -/
def cutFrom (read : Char → Text → α × Nat) : (taken column : Nat) → Text → List (Nat × α)
  | _, _, [] => []
  | taken + 1, column, _ :: s => cutFrom read taken (column + 1) s
  | 0, column, c :: s =>
      if isBlank c then cutFrom read 0 (column + 1) s
      else (column, (read c s).1) :: cutFrom read (read c s).2 (column + 1) s

/-! ## Columns -/

theorem column_of_mem_cutFrom (taken column : Nat) (s : Text) :
    ∀ x ∈ cutFrom read taken column s, column ≤ x.1 ∧ x.1 < column + s.length := by
  fun_induction cutFrom read taken column s with
  | case1 => simp
  | case2 column taken c s ih =>
      intro x hx
      have h := ih x hx
      rw [List.length_cons]
      omega
  | case3 column c s hc ih =>
      intro x hx
      have h := ih x hx
      rw [List.length_cons]
      omega
  | case4 column c s hc ih =>
      intro x hx
      rw [List.length_cons]
      rcases List.mem_cons.mp hx with rfl | hx
      · dsimp only
        omega
      · have h := ih x hx
        omega

theorem ascending_cutFrom (taken column : Nat) (s : Text) :
    Ascending ((cutFrom read taken column s).map Prod.fst) := by
  fun_induction cutFrom read taken column s with
  | case1 => exact List.Pairwise.nil
  | case2 column taken c s ih => exact ih
  | case3 column c s hc ih => exact ih
  | case4 column c s hc ih =>
      rw [List.map_cons, Ascending, List.pairwise_cons, List.forall_mem_map]
      refine ⟨fun x hx => ?_, ih⟩
      have h := column_of_mem_cutFrom _ _ _ x hx
      dsimp only
      omega

/-! ## Longer lines -/

theorem cutFrom_add (taken column k : Nat) (s : Text) :
    cutFrom read taken (column + k) s
      = (cutFrom read taken column s).map (fun x => (x.1 + k, x.2)) := by
  fun_induction cutFrom read taken column s with
  | case1 => simp [cutFrom]
  | case2 column taken c s ih => rw [cutFrom, ← ih, Nat.add_right_comm]
  | case3 column c s hc ih => rw [cutFrom, if_pos hc, ← ih, Nat.add_right_comm]
  | case4 column c s hc ih => rw [cutFrom, if_neg hc, List.map_cons, ← ih, Nat.add_right_comm]

theorem cutFrom_allBlank {gap : Text} (h : gap.allBlank = true) (column : Nat) (s : Text) :
    cutFrom read 0 column (gap ++ s) = cutFrom read 0 (column + gap.length) s := by
  induction gap generalizing column with
  | nil => rfl
  | cons c gap ih =>
      rw [allBlank, List.all_cons, Bool.and_eq_true] at h
      rw [List.cons_append, cutFrom, if_pos h.1, ih h.2, List.length_cons]
      congr 1
      omega

theorem exists_blank_cons {gap : Text} (hgap : gap.allBlank = true) (hne : gap ≠ []) :
    ∃ c gap', gap = c :: gap' ∧ isBlank c = true := by
  obtain ⟨c, gap', rfl⟩ := List.exists_cons_of_ne_nil hne
  rw [allBlank, List.all_cons, Bool.and_eq_true] at hgap
  exact ⟨c, gap', rfl, hgap.1⟩

variable {b : Text} {φ : α → α}

/-- Where nothing that is read reaches into `b`, it is read as if the line ended before `b`, up to a
change `φ`. -/
theorem cutFrom_append (hread : ∀ d s, read d (s ++ b) = (φ (read d s).1, (read d s).2))
    (hle : ∀ d s, (read d s).2 ≤ s.length) (taken column : Nat) (a : Text)
    (htaken : taken ≤ a.length) :
    cutFrom read taken column (a ++ b)
      = (cutFrom read taken column a).map (fun x => (x.1, φ x.2))
        ++ cutFrom read 0 (column + a.length) b := by
  induction a generalizing taken column with
  | nil =>
      obtain rfl : taken = 0 := Nat.le_zero.mp htaken
      simp [cutFrom]
  | cons d a ih =>
      have hcolumn : column + 1 + a.length = column + (d :: a).length := by
        rw [List.length_cons]
        omega
      cases taken with
      | succ taken =>
          rw [List.cons_append, cutFrom, cutFrom, ih _ _ (by simpa using htaken), hcolumn]
      | zero =>
          by_cases hd : isBlank d = true
          · rw [List.cons_append, cutFrom, cutFrom, if_pos hd, if_pos hd, ih _ _ (Nat.zero_le _),
              hcolumn]
          · rw [List.cons_append, cutFrom, cutFrom, if_neg hd, if_neg hd, hread,
              ih _ _ (hle d a), hcolumn]
            rfl

/-- **A line behind another one**, with blanks in between, is cut behind it. -/
theorem cutFrom_gap {gap : Text} (hgap : gap.allBlank = true)
    (hread : ∀ d s, read d (s ++ (gap ++ b)) = (φ (read d s).1, (read d s).2))
    (hle : ∀ d s, (read d s).2 ≤ s.length) (a : Text) :
    cutFrom read 0 1 (a ++ (gap ++ b))
      = (cutFrom read 0 1 a).map (fun x => (x.1, φ x.2))
        ++ (cutFrom read 0 1 b).map (fun x => (x.1 + (a ++ gap).length, x.2)) := by
  have hadd : 1 + a.length + gap.length = 1 + (a ++ gap).length := by
    rw [List.length_append]
    omega
  rw [cutFrom_append hread hle _ _ _ (Nat.zero_le _), cutFrom_allBlank hgap, hadd, cutFrom_add]

end Text

end SungScore
