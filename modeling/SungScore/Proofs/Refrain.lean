import SungScore.Proofs.Ticks

set_option autoImplicit false

/-!
# The balance of the refrain

The refrain shortens a mora before another key by one tick and marks it with bends. A mora
without any ticks is neither shortened nor marked, so the ticks that a list of morae loses are
exactly the marks that it gets (`total_refrain`). No key is changed (`map_key_refrain`).

Whether a mora is refrained depends on nothing but the mora after it (`Mora.followedBy`,
`getElem?_refrain`), and so it can be told from the keys alone, before or after
(`keyChangesAfter_refrain`). This settles every mora of the refrain (`refrain_exact`).
-/

namespace SungScore

namespace Mora

/-- The number of morae with bends. -/
def bent (ms : List Mora) : Nat := ms.countP (fun m => !m.bends.isEmpty)

theorem bent_cons (m : Mora) (ms : List Mora) :
    bent (m :: ms) = (if m.bends.isEmpty then 0 else 1) + bent ms := by
  rw [bent, List.countP_cons, bent]
  cases m.bends.isEmpty <;> simp [Nat.add_comm]

theorem toNat_refrained_tick (m : Mora) : m.refrained.tick.toNat = m.tick.toNat - 1 :=
  Ticks.toNat_pred m.tick

/-- Only a mora without ticks is refrained without bends. -/
theorem isEmpty_refrained_bends (m : Mora) :
    m.refrained.bends.isEmpty = true ↔ m.tick.toNat = 0 := by
  show (List.replicate (bendCount m.tick) (0 : Int)).isEmpty = true ↔ _
  rw [List.isEmpty_replicate, decide_eq_true_eq, bendCount]
  omega

/-- A mora loses a tick exactly when it gets bends. -/
theorem tick_refrained (m : Mora) :
    m.refrained.tick.toNat + (if m.refrained.bends.isEmpty then 0 else 1) = m.tick.toNat := by
  have ht := toNat_refrained_tick m
  by_cases h : m.tick.toNat = 0
  · rw [if_pos ((isEmpty_refrained_bends m).mpr h)]
    omega
  · rw [if_neg (fun hb => h ((isEmpty_refrained_bends m).mp hb))]
    omega

/-- The bends are as few as cover the mora. -/
theorem bendCount_eq_ceil (tick : Ticks) : bendCount tick = ⌈(tick.toNat : ℚ) / 44⌉₊ := by
  refine eq_of_forall_ge_iff fun n => ?_
  calc bendCount tick ≤ n ↔ tick.toNat ≤ n * 44 := by rw [bendCount]; omega
    _ ↔ (tick.toNat : ℚ) ≤ n * 44 := by norm_cast
    _ ↔ (tick.toNat : ℚ) / 44 ≤ n := (div_le_iff₀ (by norm_num)).symm
    _ ↔ ⌈(tick.toNat : ℚ) / 44⌉₊ ≤ n := Nat.ceil_le.symm

theorem refrained_eq (m : Mora) :
    m.refrained = { m with
      tick := .ofNat (m.tick.toNat - 1)
      bends := List.replicate ⌈(m.tick.toNat : ℚ) / 44⌉₊ 0 } := by
  rw [refrained, bendCount_eq_ceil, Ticks.eq_ofNat (Ticks.toNat_pred m.tick)]

/-- The mora with the given one after it, if there is one: it is refrained before another key. -/
def followedBy (next : Option Mora) (m : Mora) : Mora :=
  match next with
  | none => m
  | some n => if n.key = m.key then m else m.refrained

theorem followedBy_eq (next : Option Mora) (m : Mora) :
    m.followedBy next = m ∨ m.followedBy next = m.refrained := by
  cases next with
  | none => exact Or.inl rfl
  | some n =>
      rw [followedBy]
      by_cases hk : n.key = m.key
      · exact Or.inl (if_pos hk)
      · exact Or.inr (if_neg hk)

@[simp] theorem followedBy_key (next : Option Mora) (m : Mora) :
    (m.followedBy next).key = m.key := by
  rcases followedBy_eq next m with h | h
  · rw [h]
  · rw [h]
    rfl

@[simp] theorem followedBy_onTick (next : Option Mora) (m : Mora) :
    (m.followedBy next).onTick = m.onTick := by
  rcases followedBy_eq next m with h | h
  · rw [h]
  · rw [h]
    rfl

@[simp] theorem followedBy_offTick (next : Option Mora) (m : Mora) :
    (m.followedBy next).offTick = m.offTick := by
  rcases followedBy_eq next m with h | h
  · rw [h]
  · rw [h]
    rfl

/-- A mora loses one tick at most. -/
theorem pred_le_tick_followedBy (next : Option Mora) (m : Mora) :
    m.tick.toNat - 1 ≤ (m.followedBy next).tick.toNat := by
  rcases followedBy_eq next m with h | h
  · rw [h]
    omega
  · rw [h, toNat_refrained_tick]

/-- A mora without bends loses a tick exactly when it gets some. -/
theorem tick_followedBy (next : Option Mora) {m : Mora} (h : m.bends = []) :
    (m.followedBy next).tick.toNat + (if (m.followedBy next).bends.isEmpty then 0 else 1)
      = m.tick.toNat := by
  rcases followedBy_eq next m with hm | hm
  · rw [hm, h]
    simp
  · rw [hm]
    exact tick_refrained m

end Mora

/-! ## The whole list -/

theorem refrain_cons (m : Mora) (ms : List Mora) :
    refrain (m :: ms) = m.followedBy ms.head? :: refrain ms := by
  cases ms with
  | nil => rfl
  | cons next later => rfl

/-- Every mora is refrained or not by what comes next. -/
theorem getElem?_refrain (ms : List Mora) (i : Nat) :
    (refrain ms)[i]? = ms[i]?.map (Mora.followedBy ms[i + 1]?) := by
  induction ms generalizing i with
  | nil => rfl
  | cons m ms ih =>
      rw [refrain_cons]
      cases i with
      | zero =>
          show some (m.followedBy ms.head?) = some (m.followedBy ms[0]?)
          rw [List.head?_eq_getElem?]
      | succ i => exact ih i

theorem mem_refrain {ms : List Mora} {x : Mora} (h : x ∈ refrain ms) :
    ∃ m ∈ ms, ∃ next, x = m.followedBy next := by
  obtain ⟨i, hi⟩ := List.getElem?_of_mem h
  rw [getElem?_refrain] at hi
  obtain ⟨m, hm, rfl⟩ := Option.map_eq_some_iff.mp hi
  exact ⟨m, List.mem_of_getElem? hm, _, rfl⟩

/-- Morae that have a property whatever comes next do not matter for it. -/
theorem forall_mem_refrain_append {P : Mora → Prop} {xs : List Mora} (ys : List Mora)
    (h : ∀ x ∈ xs, ∀ next, P (x.followedBy next)) :
    (∀ x ∈ refrain (xs ++ ys), P x) ↔ ∀ x ∈ refrain ys, P x := by
  induction xs with
  | nil => rfl
  | cons x xs ih =>
      rw [List.cons_append, refrain_cons, List.forall_mem_cons,
        ih (fun y hy => h y (List.mem_cons_of_mem _ hy))]
      exact and_iff_right (h x (by simp) _)

@[simp] theorem map_key_refrain (ms : List Mora) :
    (refrain ms).map (·.key) = ms.map (·.key) := by
  induction ms with
  | nil => rfl
  | cons m ms ih => rw [refrain_cons, List.map_cons, ih, List.map_cons, Mora.followedBy_key]

/-- **The balance of the refrain**, for morae that were not refrained before. -/
theorem total_refrain {ms : List Mora} (h : ∀ m ∈ ms, m.bends = []) :
    Mora.total (refrain ms) + Mora.bent (refrain ms) = Mora.total ms := by
  induction ms with
  | nil => rfl
  | cons m ms ih =>
      have hm := Mora.tick_followedBy ms.head? (h m (by simp))
      have hl := ih (fun x hx => h x (List.mem_cons_of_mem _ hx))
      rw [refrain_cons, Mora.total_cons, Mora.bent_cons, Mora.total_cons]
      omega

/-! ## Changes of the key -/

/-- There is a mora after the one at the given place, and it has another key. -/
def KeyChangesAfter (ms : List Mora) (i : Nat) : Prop :=
  ∃ m next, ms[i]? = some m ∧ ms[i + 1]? = some next ∧ next.key ≠ m.key

theorem keyChangesAfter_iff {ms : List Mora} {i : Nat} :
    KeyChangesAfter ms i ↔
      ∃ key next, (ms.map (·.key))[i]? = some key ∧ (ms.map (·.key))[i + 1]? = some next ∧
        next ≠ key := by
  simp only [KeyChangesAfter, List.getElem?_map, Option.map_eq_some_iff]
  constructor
  · rintro ⟨m, next, hm, hnext, hne⟩
    exact ⟨_, _, ⟨m, hm, rfl⟩, ⟨next, hnext, rfl⟩, hne⟩
  · rintro ⟨_, _, ⟨m, hm, rfl⟩, ⟨next, hnext, rfl⟩, hne⟩
    exact ⟨m, next, hm, hnext, hne⟩

/-- The refrain leaves the changes of the key where they are. -/
theorem keyChangesAfter_refrain {ms : List Mora} {i : Nat} :
    KeyChangesAfter (refrain ms) i ↔ KeyChangesAfter ms i := by
  rw [keyChangesAfter_iff, map_key_refrain, ← keyChangesAfter_iff]

variable {ms : List Mora} {m : Mora} {i : Nat}

theorem getElem?_refrain_of_not_keyChanges (hm : ms[i]? = some m) (h : ¬ KeyChangesAfter ms i) :
    (refrain ms)[i]? = some m := by
  rw [getElem?_refrain, hm, Option.map_some]
  cases hnext : ms[i + 1]? with
  | none => rfl
  | some next =>
      have hkey : next.key = m.key := by
        by_contra hne
        exact h ⟨m, next, hm, hnext, hne⟩
      rw [Mora.followedBy, if_pos hkey]

theorem getElem?_refrain_of_keyChanges (hm : ms[i]? = some m) (h : KeyChangesAfter ms i) :
    (refrain ms)[i]? = some m.refrained := by
  obtain ⟨m', next, hm', hnext, hne⟩ := h
  rw [hm] at hm'
  cases hm'
  rw [getElem?_refrain, hm, hnext, Option.map_some, Mora.followedBy, if_neg hne]

/-- **The refrain is exact.** It rewrites the morae before a change of the key and no other ones; a
mora that it rewrites is one tick shorter, if it has any, and gets as many bends as cover it. The
keys stay, so the changes of the key can be read off either list, and the ticks that are lost are as
many as the morae with bends. -/
theorem refrain_exact (ms : List Mora) :
    (refrain ms).length = ms.length ∧
    (∀ i m, ms[i]? = some m →
      (¬ KeyChangesAfter ms i → (refrain ms)[i]? = some m) ∧
      (KeyChangesAfter ms i → (refrain ms)[i]? = some { m with
        tick := .ofNat (m.tick.toNat - 1)
        bends := List.replicate ⌈(m.tick.toNat : ℚ) / 44⌉₊ 0 })) ∧
    (refrain ms).map (·.key) = ms.map (·.key) ∧
    (∀ i, KeyChangesAfter (refrain ms) i ↔ KeyChangesAfter ms i) ∧
    ((∀ m ∈ ms, m.bends = []) →
      Mora.total ms = Mora.total (refrain ms) + Mora.bent (refrain ms)) := by
  refine ⟨?_, fun i m hm => ⟨getElem?_refrain_of_not_keyChanges hm, fun h => ?_⟩,
    map_key_refrain ms, fun i => keyChangesAfter_refrain, fun h => (total_refrain h).symm⟩
  · rw [← List.length_map (·.key), map_key_refrain, List.length_map]
  · rw [← Mora.refrained_eq]
    exact getElem?_refrain_of_keyChanges hm h

/-- A mora without ticks and one with ninety before changes of the key, and one before none. -/
theorem refrain_exact_three_bends :
    let ms : List Mora := [{ key := 48 }, { key := 50, tick := 90 }, { key := 52, tick := 10 },
      { key := 52, tick := 10 }]
    (refrain ms)[0]? = some { key := 48 } ∧
      (refrain ms)[1]? = some { key := 50, tick := 89, bends := [0, 0, 0] } ∧
      (refrain ms)[2]? = some { key := 52, tick := 10 } ∧
      Mora.total ms = Mora.total (refrain ms) + Mora.bent (refrain ms) := by
  intro ms
  obtain ⟨-, hat, -, -, htotal⟩ := refrain_exact ms
  have hceil : ⌈((90 : Ticks).toNat : ℚ) / 44⌉₊ = 3 := (Mora.bendCount_eq_ceil 90).symm
  have hsame : ¬ KeyChangesAfter ms 2 := by
    rintro ⟨m, next, hm, hnext, hne⟩
    cases hm
    cases hnext
    exact hne rfl
  refine ⟨?_, ?_, (hat 2 _ rfl).1 hsame, htotal (by decide)⟩
  · simpa using (hat 0 _ rfl).2 ⟨_, _, rfl, rfl, by decide⟩
  · have hbent := (hat 1 _ rfl).2 ⟨_, _, rfl, rfl, by decide⟩
    rw [hceil] at hbent
    exact hbent

end SungScore
