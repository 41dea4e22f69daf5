import SungScore.Mora
import SungScore.Note
import Mathlib.Tactic

set_option autoImplicit false

/-!
# Counting ticks

Durations are kept in thirty-two bits. Here they are read as natural numbers: what the guarded
sum, the predecessor, the half and the minimum of durations count, and the ticks that a list
of notes or of morae lasts.
-/

namespace SungScore

namespace Ticks

theorem add?_eq_some {a b c : Ticks} :
    add? a b = some c ↔ a.toNat + b.toNat < 4294967296 ∧ a + b = c := by
  unfold add?
  split_ifs with h
  · simp [h]
  · simp [h]

theorem add?_eq_none {a b : Ticks} : add? a b = none ↔ 4294967296 ≤ a.toNat + b.toNat := by
  unfold add?
  split_ifs with h
  · simp [h]
  · simp only [true_iff]
    omega

theorem toNat_add {a b : Ticks} (h : a.toNat + b.toNat < 4294967296) :
    (a + b).toNat = a.toNat + b.toNat := by
  rw [UInt32.toNat_add]
  exact Nat.mod_eq_of_lt h

/-- What the guarded sum gives is the sum. -/
theorem toNat_of_add? {a b c : Ticks} (h : add? a b = some c) :
    c.toNat = a.toNat + b.toNat := by
  obtain ⟨hlt, rfl⟩ := add?_eq_some.mp h
  exact toNat_add hlt

theorem pos_iff {a : Ticks} : 0 < a ↔ 0 < a.toNat := by
  rw [UInt32.lt_iff_toNat_lt]
  rfl

theorem eq_zero_iff {a : Ticks} : a = 0 ↔ a.toNat = 0 := by
  rw [← UInt32.toNat_inj]
  rfl

theorem toNat_pred (a : Ticks) : a.pred.toNat = a.toNat - 1 := by
  unfold pred
  split_ifs with h
  · rw [h]; rfl
  · have hpos : a.toNat ≠ 0 := fun hc => h (eq_zero_iff.mpr hc)
    have hle : (1 : Ticks) ≤ a := by
      rw [UInt32.le_iff_toNat_le]
      show 1 ≤ a.toNat
      omega
    rw [UInt32.toNat_sub_of_le _ _ hle]
    rfl

theorem toNat_half (a : Ticks) : (a / 2).toNat = a.toNat / 2 := UInt32.toNat_div a 2

theorem toNat_min (a b : Ticks) : (min a b).toNat = min a.toNat b.toNat := by
  show (if a ≤ b then a else b).toNat = _
  rw [Nat.min_def]
  by_cases h : a ≤ b
  · rw [if_pos h, if_pos (UInt32.le_iff_toNat_le.mp h)]
  · rw [if_neg h, if_neg (fun hc => h (UInt32.le_iff_toNat_le.mpr hc))]

theorem toNat_sub {a b : Ticks} (h : b.toNat ≤ a.toNat) :
    (a - b).toNat = a.toNat - b.toNat :=
  UInt32.toNat_sub_of_le _ _ (UInt32.le_iff_toNat_le.mpr h)

theorem toNat_ofNat {n : Nat} (h : n < 4294967296) : (UInt32.ofNat n).toNat = n :=
  UInt32.toNat_ofNat_of_lt' h

theorem eq_ofNat {a : Ticks} {n : Nat} (h : a.toNat = n) : a = .ofNat n := by
  rw [← h, UInt32.ofNat_toNat]

end Ticks

/-! ## Lists -/

/-- The ticks that notes last together. -/
def Note.total (ns : List Note) : Nat := (ns.map (fun n => n.length.toNat)).sum

/-- The ticks that morae last together. -/
def Mora.total (ms : List Mora) : Nat := (ms.map (fun m => m.tick.toNat)).sum

@[simp] theorem Note.total_nil : Note.total [] = 0 := rfl

@[simp] theorem Note.total_cons (n : Note) (ns : List Note) :
    Note.total (n :: ns) = n.length.toNat + Note.total ns := by
  simp [Note.total]

@[simp] theorem Note.total_append (ns ns' : List Note) :
    Note.total (ns ++ ns') = Note.total ns + Note.total ns' := by
  simp [Note.total]

@[simp] theorem Mora.total_nil : Mora.total [] = 0 := rfl

@[simp] theorem Mora.total_cons (m : Mora) (ms : List Mora) :
    Mora.total (m :: ms) = m.tick.toNat + Mora.total ms := by
  simp [Mora.total]

@[simp] theorem Mora.total_append (ms ms' : List Mora) :
    Mora.total (ms ++ ms') = Mora.total ms + Mora.total ms' := by
  simp [Mora.total]

end SungScore
