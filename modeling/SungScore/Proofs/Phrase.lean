import SungScore.Proofs.Runs

set_option autoImplicit false

/-!
# The time of a phrase

A phrase lasts as long as the notes that it is made of (`Phrase.total_ofNotes`). When it is
sung, its time goes into its morae and into what it carries, and nothing is lost on the way:

    first mora + later morae + carried = first note + later notes + silence

This is `Phrase.total_sung`. What was carried into the phrase is found again in its opening
(`Phrase.total_openWith`), of which `Phrase.Opens` lists the cases.
-/

namespace SungScore

/-- The ticks of what is carried, and none if nothing is. -/
def Carry.total : Option Carry → Nat
  | none => 0
  | some c => c.ticks.toNat

namespace Phrase

/-! ## Making a phrase -/

theorem splitRest_concat (rs : List Note) (n : Note) :
    splitRest (rs ++ [n]) = if n.isRest then (rs, n.length) else (rs ++ [n], 0) := by
  simp [splitRest]

theorem total_splitRest (rs : List Note) :
    Note.total (splitRest rs).1 + (splitRest rs).2.toNat = Note.total rs := by
  rcases List.eq_nil_or_concat rs with rfl | ⟨init, n, rfl⟩
  · rfl
  · rw [List.concat_eq_append, splitRest_concat]
    split <;> simp

/-- The notes of a phrase are runs, of which the rest at the end has been taken away. -/
theorem ofNotes_ok {line : Nat} {s : Syllable} {ns : List Note} {p : Phrase}
    (h : ofNotes line s ns = .ok p) :
    p.syllable = s ∧ ∃ rs, Note.runs line ns = .ok rs ∧
      splitRest rs = (p.first :: p.more, p.silence) := by
  unfold ofNotes at h
  split at h
  · cases h
  · rename_i rs hrs
    split at h
    · rename_i first more silence hsplit
      cases h
      exact ⟨rfl, rs, hrs, hsplit⟩
    · cases h

/-- A phrase cannot be made where the notes cannot be joined or there is nothing to sing. -/
theorem ofNotes_error {line : Nat} {s : Syllable} {ns : List Note} {f : Fault}
    (h : ofNotes line s ns = .error f) :
    Note.runs line ns = .error f ∨ f = s.fault .noNote ∨ f = s.fault .onlyRests := by
  unfold ofNotes at h
  split at h
  · rename_i e he
    cases h
    exact Or.inl he
  · split at h
    · cases h
    · cases h
      split
      · exact Or.inr (Or.inl rfl)
      · exact Or.inr (Or.inr rfl)

/-- Where no sound follows a rest, the rest is what comes after the sounding runs. -/
theorem splitRest_runs {line : Nat} {ns rs : List Note} (h : Note.runs line ns = .ok rs)
    (hl : Note.RestsLast ns) :
    (splitRest rs).1 = rs.filter (fun n => !n.isRest)
      ∧ (splitRest rs).2.toNat = Note.total (rs.filter Note.isRest) := by
  have hdrop := Note.isRest_of_mem_dropLast_runs h hl
  rcases List.eq_nil_or_concat rs with rfl | ⟨init, n, rfl⟩
  · exact ⟨rfl, rfl⟩
  · rw [List.concat_eq_append] at hdrop ⊢
    rw [List.dropLast_concat] at hdrop
    have hsound : init.filter (fun n => !n.isRest) = init := by
      rw [List.filter_eq_self]
      intro r hr
      simp [hdrop r hr]
    have hrest : init.filter Note.isRest = [] := by
      rw [List.filter_eq_nil_iff]
      intro r hr
      simp [hdrop r hr]
    rw [splitRest_concat, List.filter_append, List.filter_append, hsound, hrest]
    cases hn : n.isRest <;> simp [hn]

/-- Where no sound follows a rest, a phrase begins with a pitch. -/
theorem isPitched_first {line : Nat} {s : Syllable} {ns : List Note} {p : Phrase}
    (h : ofNotes line s ns = .ok p) (hl : Note.RestsLast ns) : p.first.isPitched = true := by
  obtain ⟨-, rs, hrs, hsplit⟩ := ofNotes_ok h
  have hsounds := (splitRest_runs hrs hl).1
  rw [hsplit] at hsounds
  have hmem : p.first ∈ rs.filter (fun n => !n.isRest) := by
    rw [← hsounds]
    exact List.mem_cons_self
  rw [List.mem_filter] at hmem
  rw [Note.isPitched, hmem.2, Note.not_isTie_of_mem_runs hrs _ hmem.1]
  rfl

/-- The ticks of all notes of a phrase and of the silence after them. -/
def total (p : Phrase) : Nat :=
  p.first.length.toNat + Note.total p.more + p.silence.toNat

theorem total_ofNotes {line : Nat} {s : Syllable} {ns : List Note} {p : Phrase}
    (h : ofNotes line s ns = .ok p) : p.total = Note.total ns := by
  obtain ⟨-, rs, hrs, hsplit⟩ := ofNotes_ok h
  have ht := total_splitRest rs
  rw [hsplit, Note.total_runs hrs, Note.total_cons] at ht
  exact ht

/-! ## The ticks kept for the coda -/

variable (σ : Settings) (p : Phrase)

/-- At most half of the last note is kept for the coda. -/
theorem toNat_codaTicks_le : (p.codaTicks σ).toNat ≤ p.last.length.toNat / 2 := by
  unfold codaTicks
  split
  · exact Nat.zero_le _
  · rw [Ticks.toNat_min, Ticks.toNat_half]
    exact Nat.min_le_right _ _

theorem toNat_keptTicks_last :
    (p.keptTicks σ p.last []).toNat + (p.codaTicks σ).toNat = p.last.length.toNat := by
  have hle := toNat_codaTicks_le σ p
  show (p.last.length - p.codaTicks σ).toNat + _ = _
  rw [Ticks.toNat_sub (by omega)]
  omega

theorem keptTicks_of_ne_nil (n : Note) {after : List Note} (h : after ≠ []) :
    p.keptTicks σ n after = n.length := by
  rw [keptTicks, if_neg (by simpa using h)]

/-- What is carried has ticks, and a coda that is carried has letters. -/
theorem carry_eq_some {c : Carry} (h : p.carry σ = some c) :
    0 < c.ticks ∧ ∀ text t, c = .coda text t → text ≠ [] := by
  unfold carry at h
  split at h
  · rename_i hs
    cases h
    exact ⟨hs, fun text t hc => by cases hc⟩
  · split at h
    · rename_i hpos
      cases h
      refine ⟨hpos, fun text t hc => ?_⟩
      cases hc
      -- without a coda no ticks are kept for it
      intro hnil
      rw [codaTicks, hnil, if_pos (by simp)] at hpos
      exact absurd hpos (by decide)
    · cases h

/-! ## Singing -/

/-- The coda is carried or sung at once, and the silence is carried. -/
theorem total_closing (key : Int) :
    Mora.total (p.closing σ key) + Carry.total (p.carry σ)
      = (p.codaTicks σ).toNat + p.silence.toNat := by
  unfold closing carry
  by_cases hs : 0 < p.silence
  · by_cases hc : 0 < p.codaTicks σ
    · rw [if_pos ⟨hs, hc⟩, if_pos hs]
      simp [Mora.loneConsonant, Carry.total, Carry.ticks]
    · have hc0 : (p.codaTicks σ).toNat = 0 := by
        rw [Ticks.pos_iff] at hc
        omega
      rw [if_neg (fun h => hc h.2), if_pos hs]
      simp [Carry.total, Carry.ticks, hc0]
  · have hs0 : p.silence.toNat = 0 := by
      rw [Ticks.pos_iff] at hs
      omega
    rw [if_neg (fun h => hs h.1), if_neg hs, hs0]
    by_cases hc : 0 < p.codaTicks σ
    · rw [if_pos hc]
      simp [Carry.total, Carry.ticks]
    · have hc0 : (p.codaTicks σ).toNat = 0 := by
        rw [Ticks.pos_iff] at hc
        omega
      rw [if_neg hc]
      simp [Carry.total, hc0]

/-- The later morae take the time of their notes. The last of them gives up the ticks of the
coda, which `total_closing` finds again. -/
theorem total_laterMorae (key : Int) (ns : List Note) (hne : ns ≠ [])
    (hlast : ns.getLast? = some p.last) :
    Mora.total (p.laterMorae σ key ns) + Carry.total (p.carry σ)
      = Note.total ns + p.silence.toNat := by
  induction ns generalizing key with
  | nil => exact absurd rfl hne
  | cons n after ih =>
      rw [laterMorae, Mora.total_cons, Note.total_cons]
      -- only the last note gives up ticks, and only after it the coda is sung or carried
      by_cases ha : after = []
      · subst ha
        have hn : n = p.last := by simpa using hlast
        have hk := toNat_keptTicks_last σ p
        have hc := total_closing σ p ((n.key? σ).getD key)
        rw [← hn] at hk
        rw [laterMorae, Note.total_nil]
        dsimp only
        omega
      · have hl : after.getLast? = some p.last := by
          rw [← hlast, List.getLast?_cons]
          cases hg : after.getLast? with
          | none => exact absurd (List.getLast?_eq_none_iff.mp hg) ha
          | some x => rfl
        have h := ih ((n.key? σ).getD key) ha hl
        rw [keptTicks_of_ne_nil σ p n ha]
        dsimp only
        omega

/-- **The time of a phrase**: all of it is in the morae or is carried. -/
theorem total_sung (key : Int) :
    (p.firstMora σ key).tick.toNat + Mora.total (p.laterMorae σ key p.more)
      + Carry.total (p.carry σ) = p.total := by
  show (p.keptTicks σ p.first p.more).toNat + _ + _ = _
  by_cases hm : p.more = []
  · have hlast : p.last = p.first := by simp [last, hm]
    have hk := toNat_keptTicks_last σ p
    have hc := total_closing σ p key
    rw [hlast] at hk
    rw [hm, laterMorae, total, hm, Note.total_nil]
    omega
  · have hl : p.more.getLast? = some p.last := by
      rw [last]
      cases hg : p.more.getLast? with
      | none => exact absurd (List.getLast?_eq_none_iff.mp hg) hm
      | some x => rfl
    have h := total_laterMorae σ p key p.more hm hl
    rw [keptTicks_of_ne_nil σ p p.first hm, total]
    omega

/-! ## The opening -/

variable {line : Nat} {before : Option Int} {m : Mora} {carried : Option Carry}
  {opening : List Mora}

/-- A first mora opens the phrase: alone, with the silence or the consonant that it takes in, or after a
coda that it cannot take in. -/
inductive Opens (p : Phrase) (before : Option Int) (m : Mora) : Option Carry → List Mora → Prop
  | nothing : Opens p before m none [m]
  | silence {t tick : Ticks} (hadd : Ticks.add? m.tick t = some tick) :
      Opens p before m (some (.silence t)) [{ m with tick, onTick := m.onTick + t }]
  | consonant {t tick : Ticks} (hadd : Ticks.add? m.tick t = some tick) :
      Opens p before m (some (.coda p.syllable.onset t)) [{ m with tick, offTick := m.offTick + t }]
  | coda {text : Text} {t : Ticks} {key : Int} (htext : text ≠ p.syllable.onset)
      (hbefore : before = some key) :
      Opens p before m (some (.coda text t)) [Mora.loneConsonant text key t, m]

theorem opens_of_openWith (h : p.openWith line before m carried = .ok opening) :
    p.Opens before m carried opening := by
  unfold openWith at h
  split at h
  · cases h
    exact .nothing
  · split at h
    · rename_i hadd
      cases h
      exact .silence hadd
    · cases h
  · split at h
    · rename_i htext
      subst htext
      split at h
      · rename_i hadd
        cases h
        exact .consonant hadd
      · cases h
    · rename_i htext
      split at h
      · cases h
        exact .coda htext rfl
      · cases h

theorem openWith_ne_nil (h : p.openWith line before m carried = .ok opening) : opening ≠ [] := by
  cases p.opens_of_openWith h <;> simp

/-- A phrase cannot begin where it would last too long, or has to sing a coda before any key. -/
theorem openWith_error {f : Fault} (h : p.openWith line before m carried = .error f) :
    (∃ t, (carried = some (.silence t) ∨ carried = some (.coda p.syllable.onset t)) ∧
        Ticks.add? m.tick t = none ∧ f = p.syllable.fault .ticksOverflow) ∨
      before = none ∧ ∃ text t, carried = some (.coda text t) ∧
        f = .misplaced line 1 text .noPrecedingNote := by
  unfold openWith at h
  split at h
  · cases h
  · rename_i t
    split at h
    · cases h
    · rename_i hadd
      cases h
      exact Or.inl ⟨t, Or.inl rfl, hadd, rfl⟩
  · rename_i text t
    split at h
    · rename_i htext
      subst htext
      split at h
      · cases h
      · rename_i hadd
        cases h
        exact Or.inl ⟨t, Or.inr rfl, hadd, rfl⟩
    · split at h
      · cases h
      · cases h
        exact Or.inr ⟨rfl, text, t, rfl, rfl⟩

/-- What was carried is added to the first mora or stands before it. -/
theorem total_openWith (h : p.openWith line before m carried = .ok opening) :
    Mora.total opening = m.tick.toNat + Carry.total carried := by
  cases p.opens_of_openWith h with
  | nothing => simp [Carry.total]
  | silence hadd => simp [Carry.total, Carry.ticks, Ticks.toNat_of_add? hadd]
  | consonant hadd => simp [Carry.total, Carry.ticks, Ticks.toNat_of_add? hadd]
  | coda =>
      simp [Carry.total, Carry.ticks, Mora.loneConsonant]
      omega

end Phrase

end SungScore
