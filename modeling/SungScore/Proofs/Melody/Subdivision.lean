import SungScore.Melody.Voice
import SungScore.Proofs.Runs

set_option autoImplicit false

/-!
# Shares of a group

A share is the number that is nearest to an exact quotient (`NearestEven`), and no more than the time
that remains (`exists_shareAmong_cons`). So what remains is counted exactly, however many members have
taken their shares, and the shares add up to the time of the group (`total_subdivide`). What remains
also stays between equally many of two neighbouring numbers (`NearestEven.between`), so that rounding
again and again never takes two members further apart than one tick (`subdivide_fair`).
-/

namespace SungScore

/-! ## Rounding -/

/-- The number that is nearest to a quotient; of two that are equally near, the even one. -/
structure NearestEven (q : ℚ) (n : Nat) : Prop where
  near : |q - n| ≤ 1 / 2
  even_of_tie : |q - n| = 1 / 2 → Even n

section

variable {a b n : Nat}

/-- The distance from a quotient, by halves of its denominator. -/
theorem abs_div_sub (hb : 0 < b) (n : Nat) :
    |(a : ℚ) / b - n| = ((|2 * (a : ℤ) - 2 * (b * n)| : ℤ) : ℚ) / b / 2 := by
  have hb' : (0 : ℚ) < b := Nat.cast_pos.mpr hb
  have hdiff : (a : ℚ) / b - n = (2 * a - 2 * (b * n)) / b / 2 := by field_simp
  rw [hdiff, abs_div, abs_div, abs_of_pos hb', abs_two]
  push_cast
  rfl

/-- Nearness to a quotient, without division. -/
theorem nearestEven_iff (hb : 0 < b) :
    NearestEven (a / b) n ↔
      (2 * (b * n) ≤ 2 * a + b ∧ 2 * a ≤ 2 * (b * n) + b) ∧
        (2 * (b * n) = 2 * a + b ∨ 2 * a = 2 * (b * n) + b → Even n) := by
  have hb' : (0 : ℚ) < b := Nat.cast_pos.mpr hb
  have hle : |(a : ℚ) / b - n| ≤ 1 / 2 ↔
      2 * (b * n) ≤ 2 * a + b ∧ 2 * a ≤ 2 * (b * n) + b := by
    rw [abs_div_sub hb, div_le_div_iff_of_pos_right two_pos, div_le_one hb',
      ← Int.cast_natCast (R := ℚ), Int.cast_le, abs_le]
    omega
  have heq : |(a : ℚ) / b - n| = 1 / 2 ↔
      2 * (b * n) = 2 * a + b ∨ 2 * a = 2 * (b * n) + b := by
    rw [abs_div_sub hb, div_left_inj' two_ne_zero, div_eq_one_iff_eq hb'.ne',
      ← Int.cast_natCast (R := ℚ), Int.cast_inj, abs_eq (by omega)]
    omega
  rw [← hle, ← heq]
  exact ⟨fun h => ⟨h.near, h.even_of_tie⟩, fun h => ⟨h.1, h.2⟩⟩

/-- No number above one that is nearest is nearest too. -/
theorem NearestEven.le {m : Nat} (hb : 0 < b) (hn : NearestEven (a / b) n)
    (hm : NearestEven (a / b) m) : m ≤ n := by
  by_contra hlt
  obtain ⟨⟨-, hle⟩, hevenn⟩ := (nearestEven_iff hb).mp hn
  obtain ⟨⟨hge, -⟩, hevenm⟩ := (nearestEven_iff hb).mp hm
  have hmul : b * (n + 1) ≤ b * m := Nat.mul_le_mul_left b (by omega)
  have hsucc : b * (n + 1) = b * n + b := Nat.mul_succ b n
  -- they are neighbours and equally near, but only one of two neighbours is even
  have hnext : m = n + 1 := Nat.eq_of_mul_eq_mul_left hb (by omega)
  have htie := Nat.even_iff.mp (hevenn (Or.inr (by omega)))
  have htie' := Nat.even_iff.mp (hevenm (Or.inl (by omega)))
  omega

theorem nearestEven_roundHalfEven (hb : 0 < b) : NearestEven (a / b) (roundHalfEven a b) := by
  have hdiv : b * (a / b) + a % b = a := Nat.div_add_mod a b
  have hmod : a % b < b := Nat.mod_lt a hb
  have hsucc : b * (a / b + 1) = b * (a / b) + b := Nat.mul_succ b (a / b)
  rw [nearestEven_iff hb, Nat.even_iff]
  unfold roundHalfEven
  dsimp only
  split_ifs <;> omega

/-- **What rounding gives** is the one nearest number. -/
theorem nearestEven_iff_eq (hb : 0 < b) : NearestEven (a / b) n ↔ n = roundHalfEven a b := by
  have hround : NearestEven (a / b) (roundHalfEven a b) := nearestEven_roundHalfEven hb
  constructor
  · intro h
    exact Nat.le_antisymm (hround.le hb h) (h.le hb hround)
  · rintro rfl
    exact hround

end

/-- A rounded quotient by two or more does not exceed what is divided. -/
theorem roundHalfEven_le {numerator denominator : Nat} (h : 2 ≤ denominator) :
    roundHalfEven numerator denominator ≤ numerator := by
  have hdiv : denominator * (numerator / denominator) + numerator % denominator = numerator :=
    Nat.div_add_mod numerator denominator
  have hmul : 2 * (numerator / denominator) ≤ denominator * (numerator / denominator) :=
    Nat.mul_le_mul_right _ h
  unfold roundHalfEven
  dsimp only
  -- what is rounded up has a remainder
  split_ifs <;> omega

/-- The share of a time that lies between equally many of two neighbouring numbers is one of the two,
and what remains lies between them for the members that are left. -/
theorem NearestEven.between {time left q n : Nat} (h : NearestEven (time / (left + 1 : Nat)) n)
    (hlo : (left + 1) * q ≤ time) (hhi : time ≤ (left + 1) * (q + 1)) :
    (n = q ∨ n = q + 1) ∧ left * q + n ≤ time ∧ time ≤ left * (q + 1) + n := by
  obtain ⟨⟨hge, hle⟩, -⟩ := (nearestEven_iff (Nat.add_one_pos left)).mp h
  have hq : (left + 1) * q = left * q + q := Nat.succ_mul left q
  have hq' : (left + 1) * (q + 1) = left * (q + 1) + (q + 1) := Nat.succ_mul left (q + 1)
  have hstep : left * (q + 1) = left * q + left := Nat.mul_succ left q
  have hqn : q ≤ n := by
    by_contra hlt
    have hmul : (left + 1) * (n + 1) ≤ (left + 1) * q := Nat.mul_le_mul_left _ (by omega)
    have hsucc : (left + 1) * (n + 1) = (left + 1) * n + (left + 1) := Nat.mul_succ _ n
    omega
  have hnq : n ≤ q + 1 := by
    by_contra hlt
    have hmul : (left + 1) * (q + 2) ≤ (left + 1) * n := Nat.mul_le_mul_left _ (by omega)
    have hsucc : (left + 1) * (q + 2) = (left + 1) * (q + 1) + (left + 1) :=
      Nat.mul_succ _ (q + 1)
    omega
  obtain rfl | rfl : n = q ∨ n = q + 1 := by omega
  · exact ⟨Or.inl rfl, by omega, by omega⟩
  · exact ⟨Or.inr rfl, by omega, by omega⟩

/-! ## Shares -/

/-- Members keep their kinds and columns. -/
theorem marks_shareAmong (time : Ticks) (count : Nat) (ns : List Note) :
    (shareAmong time count ns).map Note.mark = ns.map Note.mark := by
  fun_induction shareAmong time count ns with
  | case1 => rfl
  | case2 => rfl
  | case3 time count n ns hne length ih => rw [List.map_cons, ih, List.map_cons]; rfl

theorem length_shareAmong (time : Ticks) (count : Nat) (ns : List Note) :
    (shareAmong time count ns).length = ns.length := by
  have hmarks := congrArg List.length (marks_shareAmong time count ns)
  rwa [List.length_map, List.length_map] at hmarks

/-- **One share** of a time, and what remains: the share is nearest to the quotient of the time by the
notes that are left, and within it. -/
theorem exists_shareAmong_cons {ns : List Note} (hne : ns ≠ []) (time : Ticks) (n : Note) :
    ∃ length rest : Ticks,
      shareAmong time (ns.length + 1) (n :: ns)
          = { n with length } :: shareAmong rest ns.length ns ∧
        length.toNat + rest.toNat = time.toNat ∧
        NearestEven (time.toNat / (ns.length + 1 : Nat)) length.toNat := by
  have hpos : 0 < ns.length := List.length_pos_iff.mpr hne
  have hle : roundHalfEven time.toNat (ns.length + 1) ≤ time.toNat := roundHalfEven_le (by omega)
  have hlength : (UInt32.ofNat (roundHalfEven time.toNat (ns.length + 1))).toNat
      = roundHalfEven time.toNat (ns.length + 1) := Ticks.toNat_ofNat (hle.trans_lt time.toNat_lt)
  refine ⟨_, _, shareAmong.eq_3 _ _ _ _ hne, ?_, ?_⟩
  · rw [Ticks.toNat_sub (by omega)]
    omega
  · rw [hlength]
    exact nearestEven_roundHalfEven (Nat.add_one_pos _)

variable {time : Ticks} {ns : List Note}

theorem total_shareAmong (hne : ns ≠ []) :
    Note.total (shareAmong time ns.length ns) = time.toNat := by
  induction ns generalizing time with
  | nil => exact absurd rfl hne
  | cons n ns ih =>
      rcases eq_or_ne ns [] with rfl | hne
      · simp [shareAmong]
      · obtain ⟨length, rest, hshare, hrest, -⟩ := exists_shareAmong_cons hne time n
        rw [List.length_cons, hshare, Note.total_cons, ih hne]
        exact hrest

/-- **The members of a group** last as long as the group. -/
theorem total_subdivide {time : Ticks} {members : List Note} (hne : members ≠ []) :
    Note.total (subdivide time members) = time.toNat := total_shareAmong hne

/-- All shares of a time that lies between equally many of two neighbouring numbers are among the
two. -/
theorem between_shareAmong {q : Nat} (hlo : ns.length * q ≤ time.toNat)
    (hhi : time.toNat ≤ ns.length * (q + 1)) :
    ∀ m ∈ shareAmong time ns.length ns, m.length.toNat = q ∨ m.length.toNat = q + 1 := by
  induction ns generalizing time with
  | nil => simp [shareAmong]
  | cons n ns ih =>
      rw [List.length_cons] at hlo hhi ⊢
      rcases eq_or_ne ns [] with rfl | hne
      · -- the last one takes what remains
        rw [List.length_nil] at hlo hhi
        rw [shareAmong, List.forall_mem_singleton]
        dsimp only
        omega
      · obtain ⟨length, rest, hshare, hrest, hnear⟩ := exists_shareAmong_cons hne time n
        obtain ⟨hq, hlo', hhi'⟩ := hnear.between hlo hhi
        rw [hshare, List.forall_mem_cons]
        exact ⟨hq, ih (by omega) (by omega)⟩

/-- The first of all shares. -/
theorem first_shareAmong {n : Note} {back : List Note}
    (h : shareAmong time ns.length ns = n :: back) :
    n.length.toNat ≤ time.toNat ∧
      (back ≠ [] → NearestEven (time.toNat / (back.length + 1 : Nat)) n.length.toNat) := by
  cases ns with
  | nil => cases h
  | cons m ms =>
      rcases eq_or_ne ms [] with rfl | hne
      · obtain ⟨rfl, rfl⟩ := List.cons.inj h
        exact ⟨le_rfl, fun hne => absurd rfl hne⟩
      · obtain ⟨length, rest, hshare, hrest, hnear⟩ := exists_shareAmong_cons hne time m
        rw [List.length_cons, hshare] at h
        obtain ⟨rfl, rfl⟩ := List.cons.inj h
        rw [length_shareAmong]
        exact ⟨by dsimp only; omega, fun _ => hnear⟩

/-- **What remains** when some notes have taken their shares: it is counted exactly, and the other notes
share it. -/
theorem exists_rest_of_shareAmong {front back : List Note} {n : Note}
    (h : shareAmong time ns.length ns = front ++ n :: back) :
    ∃ rest : Ticks, shareAmong rest (back.length + 1) (ns.drop front.length) = n :: back ∧
      Note.total front + rest.toNat = time.toNat ∧ n.length.toNat ≤ rest.toNat ∧
      (back ≠ [] → NearestEven (rest.toNat / (back.length + 1 : Nat)) n.length.toNat) := by
  induction front generalizing time ns with
  | nil =>
      have hlength := congrArg List.length h
      rw [length_shareAmong, List.nil_append, List.length_cons] at hlength
      obtain ⟨hle, hnear⟩ := first_shareAmong h
      exact ⟨time, by rw [← hlength]; exact h, by simp, hle, hnear⟩
  | cons f front ih =>
      cases ns with
      | nil => cases h
      | cons m ms =>
          rcases eq_or_ne ms [] with rfl | hne
          · -- a note alone has none behind it
            have hlength := congrArg List.length h
            simp [length_shareAmong] at hlength
          · obtain ⟨length, rest, hshare, hrest, -⟩ := exists_shareAmong_cons hne time m
            rw [List.length_cons, hshare, List.cons_append] at h
            obtain ⟨rfl, htail⟩ := List.cons.inj h
            obtain ⟨rest', hback, hrest', hle, hnear⟩ := ih htail
            refine ⟨rest', hback, ?_, hle, hnear⟩
            rw [Note.total_cons]
            dsimp only
            omega

/-- **Subdivision is fair.** The members of a group keep their order and all but their lengths, which add
up to the time of the group. Each of them is the exact share rounded down, or one tick more. What remains
of the time before a member is counted exactly and covers it; every member but the last takes the number
that is nearest to the quotient of what remains by the members that are left. -/
theorem subdivide_fair {members : List Note} (hne : members ≠ []) (time : Ticks) :
    (subdivide time members).map Note.mark = members.map Note.mark ∧
      Note.total (subdivide time members) = time.toNat ∧
      (∀ n ∈ subdivide time members, n.length.toNat = time.toNat / members.length ∨
        n.length.toNat = time.toNat / members.length + 1) ∧
      ∀ front n back, subdivide time members = front ++ n :: back →
        ∃ rest : Ticks, shareAmong rest (back.length + 1) (members.drop front.length) = n :: back ∧
          Note.total front + rest.toNat = time.toNat ∧ n.length.toNat ≤ rest.toNat ∧
          (back ≠ [] → NearestEven (rest.toNat / (back.length + 1 : Nat)) n.length.toNat) := by
  have hpos : 0 < members.length := List.length_pos_iff.mpr hne
  refine ⟨marks_shareAmong time _ members, total_subdivide hne, ?_,
    fun front n back h => exists_rest_of_shareAmong h⟩
  exact between_shareAmong (Nat.mul_div_le _ _) (Nat.lt_mul_div_succ _ hpos).le

/-- Ten ticks among four members: the first takes two and a half, rounded to the even number, and the
second a third of eight. -/
theorem subdivide_fair_quadruplet :
    let members : List Note := [⟨.pitched ⟨.c, .natural⟩ 4, 220, 2⟩, ⟨.tie, 220, 4⟩,
      ⟨.rest, 220, 6⟩, ⟨.pitched ⟨.e, .flat⟩ 4, 220, 8⟩]
    members ≠ [] ∧ (subdivide 10 members).map (·.length) = [2, 3, 2, 3] ∧
      Note.total (subdivide 10 members) = 10 ∧ NearestEven (10 / 4) 2 ∧ NearestEven (8 / 3) 3 := by
  intro members
  have hne : members ≠ [] := List.cons_ne_nil _ _
  have hread : subdivide 10 members = [⟨.pitched ⟨.c, .natural⟩ 4, 2, 2⟩, ⟨.tie, 3, 4⟩,
      ⟨.rest, 2, 6⟩, ⟨.pitched ⟨.e, .flat⟩ 4, 3, 8⟩] := by decide
  obtain ⟨-, htotal, -, hshares⟩ := subdivide_fair hne 10
  obtain ⟨ten, -, hten, -, hfirst⟩ := hshares [] _ [_, _, _] hread
  obtain ⟨eight, -, height, -, hsecond⟩ := hshares [_] _ [_, _] hread
  have hten' : ten.toNat = 10 := by simpa using hten
  have height' : 2 + eight.toNat = 2 + 8 := by simpa using height
  obtain rfl : ten = 10 := Ticks.eq_ofNat hten'
  obtain rfl : eight = 8 := Ticks.eq_ofNat (Nat.add_left_cancel height')
  refine ⟨hne, by rw [hread]; rfl, htotal, ?_, ?_⟩
  · simpa using hfirst
  · simpa using hsecond

end SungScore
