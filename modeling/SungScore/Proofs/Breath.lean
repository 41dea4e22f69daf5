import Mathlib.Data.Nat.Dist
import SungScore.Syllable
import SungScore.Proofs.Text.Decimal

set_option autoImplicit false

/-!
# Levels of breath

Where levels ascend, a number chooses between two of them at their midpoint (`Chosen`). So it takes the
nearest level, and the upper one of two that are equally near (`Nearest`).

A midpoint that is not a whole number is rounded down, and there the upper level is taken by a number that
is nearer to the lower one, if only by one. Of the levels of breath, two pairs of neighbours have such a
midpoint: 46 and 51, which are divided at 48, and 57 and 60, which are divided at 58. All other numbers
take the nearest level (`tag_of_digits`).
-/

namespace SungScore.Breath

/-- The level is one of those given. The number is not below the midpoint with any lower one, and below
the midpoint with any higher one. A midpoint is rounded down. -/
structure Chosen (levels : List Nat) (n level : Nat) : Prop where
  mem : level ∈ levels
  lower : ∀ l ∈ levels, l < level → (l + level) / 2 ≤ n
  higher : ∀ l ∈ levels, level < l → n < (level + l) / 2

/-- The level is the nearest one of those given, and the upper one of two that are equally near. -/
structure Nearest (levels : List Nat) (n level : Nat) : Prop where
  mem : level ∈ levels
  nearest : ∀ l ∈ levels, Nat.dist n level ≤ Nat.dist n l
  upper : ∀ l ∈ levels, Nat.dist n l = Nat.dist n level → l ≤ level

variable {levels above : List Nat} {n level : Nat}

/-! ## The nearest level -/

/-- There is only one nearest level. -/
theorem Nearest.unique {level' : Nat} (h : Nearest levels n level) (h' : Nearest levels n level') :
    level = level' := by
  have hdist : Nat.dist n level = Nat.dist n level' :=
    Nat.le_antisymm (h.nearest level' h'.mem) (h'.nearest level h.mem)
  exact Nat.le_antisymm (h'.upper level h.mem hdist) (h.upper level' h'.mem hdist.symm)

/-- A number that is not in the middle of two levels, rounded down, chooses the nearest one. -/
theorem Chosen.nearest (h : Chosen levels n level)
    (hwhole : ∀ l ∈ levels, l < level → l + level ≠ 2 * n + 1) : Nearest levels n level := by
  have hlower : ∀ l ∈ levels, l < level → l + level ≤ 2 * n := by
    intro l hl hlt
    have hmid := h.lower l hl hlt
    have hne := hwhole l hl hlt
    omega
  refine ⟨h.mem, ?_, ?_⟩
  · intro l hl
    unfold Nat.dist
    rcases Nat.lt_trichotomy l level with hlt | rfl | hgt
    · have hmid := hlower l hl hlt
      omega
    · exact le_rfl
    · have hmid := h.higher l hl hgt
      omega
  · intro l hl
    unfold Nat.dist
    intro htie
    by_contra hgt
    have hmid := h.higher l hl (by omega)
    omega

/-! ## Choosing a level -/

/-- **What is chosen** from a level and the ones above it, if they ascend. -/
theorem chosen_snapFrom (h : (level :: above).Pairwise (· < ·)) :
    Chosen (level :: above) n (snapFrom n level above) := by
  induction above generalizing level with
  | nil =>
      rw [snapFrom]
      constructor
      · exact List.mem_cons_self
      · intro l hl hlt
        have heq := List.mem_singleton.mp hl
        omega
      · intro l hl hlt
        have heq := List.mem_singleton.mp hl
        omega
  | cons next above ih =>
      obtain ⟨hlevel, habove⟩ := List.pairwise_cons.mp h
      obtain ⟨hnext, -⟩ := List.pairwise_cons.mp habove
      have hlt : level < next := hlevel next List.mem_cons_self
      have hge : ∀ l ∈ next :: above, next ≤ l := by
        intro l hl
        rcases List.mem_cons.mp hl with rfl | hl
        · exact le_rfl
        · exact Nat.le_of_lt (hnext l hl)
      rw [snapFrom]
      split_ifs with hbelow
      · -- the midpoint with the next level is the lowest one
        constructor
        · exact List.mem_cons_self
        · intro l hl hlow
          rcases List.mem_cons.mp hl with rfl | hl
          · omega
          · have hle := hge l hl
            omega
        · intro l hl hhigh
          rcases List.mem_cons.mp hl with rfl | hl
          · omega
          · have hle := hge l hl
            omega
      · have hchosen := ih habove
        have hle := hge _ hchosen.mem
        constructor
        · exact List.mem_cons_of_mem level hchosen.mem
        · intro l hl hlow
          rcases List.mem_cons.mp hl with rfl | hl
          · -- the midpoint with the next level is at least as high
            rcases Nat.eq_or_lt_of_le hle with heq | hlow'
            · rw [← heq]
              omega
            · have hmid := hchosen.lower next List.mem_cons_self hlow'
              omega
          · exact hchosen.lower l hl hlow
        · intro l hl hhigh
          rcases List.mem_cons.mp hl with rfl | hl
          · omega
          · exact hchosen.higher l hl hhigh

theorem chosen_snap (n : Nat) : Chosen Breath.levels n (snap n) := by
  show Chosen (0 :: Breath.levels.tail) n (snapFrom n 0 Breath.levels.tail)
  exact chosen_snapFrom (by decide)

/-- Only two midpoints of neighbours are not whole numbers. -/
theorem odd_midpoint : ∀ level ∈ Breath.levels, ∀ l ∈ Breath.levels, l < level →
    (∀ m ∈ Breath.levels, m < level → m ≤ l) → (l + level) % 2 = 1 →
      l + level = 46 + 51 ∨ l + level = 57 + 60 := by
  decide

/-- All numbers but two choose the nearest level. -/
theorem nearest_snap (h : n ≠ 48) (h' : n ≠ 58) : Nearest Breath.levels n (snap n) := by
  have hchosen := chosen_snap n
  apply hchosen.nearest
  intro l hl hlt heq
  have hneighbour : ∀ m ∈ Breath.levels, m < snap n → m ≤ l := by
    intro m hm hlow
    have hmid := hchosen.lower m hm hlow
    omega
  have hodd := odd_midpoint (snap n) hchosen.mem l hl hlt hneighbour (by omega)
  omega

/-- From 70 on it is the highest one. -/
theorem snap_of_le (h : 70 ≤ n) : snap n = 80 := by
  have hchosen := chosen_snap n
  have hmax : ∀ l ∈ Breath.levels, l ≤ 80 ∧ (l < 80 → l ≤ 60) := by decide
  have hle := hmax (snap n) hchosen.mem
  by_contra hne
  have hmid := hchosen.higher 80 (by decide) (by omega)
  omega

/-! ## Breath texts -/

/-- The number of sixty-four bits that is counted for a text: the largest one if the text denotes a
larger number, or none. -/
def counted (s : Text) : Nat := ((Decimal.plusNat? s).filter (· < 2 ^ 64)).getD (2 ^ 64 - 1)

/-- A number that is not counted is as good as the largest one. -/
theorem snap_counted (s : Text) : snap (counted s) = (Decimal.plusNat? s).elim 80 snap := by
  unfold counted
  cases Decimal.plusNat? s with
  | none => rfl
  | some n =>
      rw [Option.filter_some]
      by_cases hn : n < 2 ^ 64
      · rw [if_pos (decide_eq_true hn)]
        rfl
      · rw [if_neg (by simpa using hn)]
        calc snap (2 ^ 64 - 1) = 80 := snap_of_le (by decide)
          _ = snap n := (snap_of_le (by omega)).symm

/-- A breath text that is not empty has the level of the number that is counted for it. -/
theorem tag_eq_counted {s : Text} (hs : s ≠ []) :
    tag s = "breath".toList ++ Decimal.ofNat (snap (counted s)) := by
  rw [tag, List.isEmpty_eq_false_iff.mpr hs, if_neg Bool.false_ne_true, snap_counted]
  rfl

/-- **Breath digits take the nearest level.** Digits are counted in sixty-four bits, but however many there
are, their level is the nearest one to the number that they denote, and the upper one where two are
equally near. This holds of all numbers but two, which stand half a unit below the middle of two levels
and take the upper one. -/
theorem tag_of_digits {digits : Text} (h : Decimal.Digits digits) :
    ∃ level, tag digits = "breath".toList ++ Decimal.ofNat level ∧
      (Decimal.value digits ≠ 48 → Decimal.value digits ≠ 58 →
        Nearest [0, 34, 46, 51, 57, 60, 80] (Decimal.value digits) level) ∧
      (Decimal.value digits = 48 → level = 51) ∧ (Decimal.value digits = 58 → level = 60) := by
  have hread : Decimal.plusNat? digits = some (Decimal.value digits) :=
    Decimal.plusNat?_eq_some_iff.mpr (Or.inl ⟨h, rfl⟩)
  have hlevel : snap (counted digits) = snap (Decimal.value digits) := by
    rw [snap_counted, hread]
    rfl
  refine ⟨snap (counted digits), tag_eq_counted h.ne_nil, ?_⟩
  rw [hlevel]
  refine ⟨nearest_snap, ?_, ?_⟩
  · intro h48
    rw [h48]
    decide
  · intro h58
    rw [h58]
    decide

/-- Leading zeros do not matter, and forty digits are not too many. -/
theorem tag_of_digits_leading_zeros :
    let padded : Text := "00049".toList
    let many : Text := List.replicate 40 '9'
    Decimal.value padded = 49 ∧ tag padded = "breath51".toList ∧
      Decimal.value many = 10 ^ 40 - 1 ∧ tag many = "breath80".toList := by
  intro padded many
  have hpadded : Decimal.Digits padded := ⟨by decide, List.all_eq_true.mp (by decide)⟩
  have hmany : Decimal.Digits many := ⟨by decide, List.all_eq_true.mp (by decide)⟩
  have hvalue : Decimal.value padded = 49 := by decide +kernel
  have hlarge : Decimal.value many = 10 ^ 40 - 1 := by decide +kernel
  obtain ⟨level, htag, hnear, -⟩ := tag_of_digits hpadded
  obtain ⟨level', htag', hnear', -⟩ := tag_of_digits hmany
  rw [hvalue] at hnear
  rw [hlarge] at hnear'
  have h51 : Nearest [0, 34, 46, 51, 57, 60, 80] 49 51 := ⟨by decide, by decide, by decide⟩
  have h80 : Nearest [0, 34, 46, 51, 57, 60, 80] (10 ^ 40 - 1) 80 :=
    ⟨by decide, by decide +kernel, by decide +kernel⟩
  obtain rfl := (hnear (by decide) (by decide)).unique h51
  obtain rfl := (hnear' (by decide) (by decide)).unique h80
  exact ⟨hvalue, htag.trans (by decide +kernel), hlarge, htag'.trans (by decide +kernel)⟩

/-- The digits `48` take the level 51, although 46 is nearer. -/
theorem not_nearest_of_48 :
    let digits : Text := "48".toList
    Decimal.Digits digits ∧ Decimal.value digits = 48 ∧ tag digits = "breath51".toList ∧
      Nearest [0, 34, 46, 51, 57, 60, 80] 48 46 ∧ ¬ Nearest [0, 34, 46, 51, 57, 60, 80] 48 51 := by
  intro digits
  have hdigits : Decimal.Digits digits := ⟨by decide, List.all_eq_true.mp (by decide)⟩
  have hnear : Nearest [0, 34, 46, 51, 57, 60, 80] 48 46 := ⟨by decide, by decide, by decide⟩
  refine ⟨hdigits, by decide +kernel, by decide +kernel, hnear, fun h => ?_⟩
  exact absurd (hnear.unique h) (by decide)

end SungScore.Breath
