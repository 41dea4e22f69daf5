import SungScore.Proofs.Exact.Basic
import SungScore.Proofs.Plain

set_option autoImplicit false

/-!
# Phrases counted in integers

What a phrase does in thirty-two bits is what it does in integers, unless a run or the first mora is
overlong. Runs are lengthened by guarded sums, so that they are exact where they exist
(`Note.runs_exact`); where they do not, there is a first note that makes one overlong
(`Note.runs_error_at`). Half of a note covers its coda, so that the difference of the two is exact
(`Phrase.keptTicks_exact`). Of what is taken in, only the whole duration is guarded; the silence and
the consonant are within it and cannot overflow where it does not (`Phrase.openWith_exact`).
-/

namespace SungScore

/-- The cause of a fault in the arrangement of notes. -/
def Fault.cause? : Fault → Option Misplacement
  | misplaced _ _ _ cause => some cause
  | _ => none

/-! ## Runs -/

namespace Note

variable {line : Nat} {run n longer : Note} {ns rs : List Note}

theorem exact_continues (n run : Note) : n.exact.continues run.exact = n.continues run := rfl

theorem exact_isTie (n : Note) : n.exact.isTie = n.isTie := rfl

theorem exact_isRest (n : Note) : n.exact.isRest = n.isRest := rfl

theorem exact_extend (h : run.extend line n = .ok longer) :
    longer.exact = run.exact.extend n.exact := by
  have hlength := length_of_extend h
  obtain ⟨hkind, hcolumn⟩ := Prod.mk.inj (mark_of_extend h)
  simp only [exact, Exact.Note.extend, Exact.Note.mk.injEq]
  exact ⟨hkind, by omega, hcolumn⟩

/-- A run that cannot be lengthened is overlong. -/
theorem overlong_of_extend {f : Fault} (h : run.extend line n = .error f) :
    f = n.fault line .ticksOverflow ∧ Exact.longest < (run.exact.extend n.exact).length := by
  unfold extend at h
  split at h
  · cases h
  · rename_i hadd
    cases h
    have hlong := Ticks.add?_eq_none.mp hadd
    refine ⟨rfl, ?_⟩
    show (4294967295 : Int) < (run.length.toNat : Int) + n.length.toNat
    omega

/-- A note that goes on with a run lengthens it. -/
theorem exact_runsFrom_of_continues (hc : n.continues run = true)
    (hl : run.extend line n = .ok longer) :
    Exact.Note.runsFrom run.exact ((n :: ns).map exact)
      = Exact.Note.runsFrom longer.exact (ns.map exact) := by
  rw [List.map_cons, Exact.Note.runsFrom, exact_continues, if_pos hc, exact_extend hl]

/-- Any other note but a tie begins the next one. -/
theorem exact_runsFrom_of_not_continues (hc : ¬ n.continues run = true)
    (ht : ¬ n.isTie = true) :
    Exact.Note.runsFrom run.exact ((n :: ns).map exact)
      = (Exact.Note.runsFrom n.exact (ns.map exact)).map (run.exact :: ·) := by
  rw [List.map_cons, Exact.Note.runsFrom, exact_continues, if_neg hc, exact_isTie, if_neg ht]
  cases Exact.Note.runsFrom n.exact (ns.map exact) <;> rfl

/-- Runs that exist are exact. -/
theorem runsFrom_exact (h : runsFrom line run ns = .ok rs) :
    Exact.Note.runsFrom run.exact (ns.map exact) = .ok (rs.map exact) := by
  fun_induction runsFrom line run ns generalizing rs with
  | case1 => cases h; rfl
  | case2 run n ns hc longer hl ih =>
      rw [exact_runsFrom_of_continues hc hl]
      exact ih h
  | case3 => cases h
  | case4 => cases h
  | case5 run n ns hc ht others ho ih =>
      cases h
      rw [exact_runsFrom_of_not_continues hc ht, ih ho]
      rfl
  | case6 => cases h

/-- A run under way gets no shorter. -/
theorem exists_run_ge {run : Exact.Note} {rs : List Exact.Note}
    (h : Exact.Note.runsFrom run (ns.map exact) = .ok rs) : ∃ r ∈ rs, run.length ≤ r.length := by
  induction ns generalizing run rs with
  | nil =>
      cases h
      exact ⟨run, by simp, le_refl _⟩
  | cons n ns ih =>
      rw [List.map_cons, Exact.Note.runsFrom] at h
      split at h
      · obtain ⟨r, hr, hle⟩ := ih h
        have hn : (0 : Int) ≤ n.exact.length := Int.natCast_nonneg _
        simp only [Exact.Note.extend] at hle
        exact ⟨r, hr, by omega⟩
      · split at h
        · cases h
        · split at h
          · cases h
            exact ⟨run, by simp, le_refl _⟩
          · cases h

/-- The runs of more notes are no shorter. -/
theorem exists_run_ge_of_append {ms : List Note} {run : Exact.Note} {rs rs' : List Exact.Note}
    (h : Exact.Note.runsFrom run (ns.map exact) = .ok rs)
    (h' : Exact.Note.runsFrom run ((ns ++ ms).map exact) = .ok rs') :
    ∀ r ∈ rs, ∃ r' ∈ rs', r.length ≤ r'.length := by
  induction ns generalizing run rs rs' with
  | nil =>
      cases h
      rw [List.forall_mem_singleton]
      exact exists_run_ge h'
  | cons n ns ih =>
      rw [List.map_cons, Exact.Note.runsFrom] at h
      rw [List.cons_append, List.map_cons, Exact.Note.runsFrom] at h'
      split at h
      · rename_i hc
        rw [if_pos hc] at h'
        exact ih h h'
      · rename_i hc
        split at h
        · cases h
        · rename_i ht
          rw [if_neg hc, if_neg ht] at h'
          split at h
          · rename_i others ho
            cases h
            split at h'
            · rename_i others' ho'
              cases h'
              intro r hr
              rcases List.mem_cons.mp hr with rfl | hr
              · exact ⟨r, by simp, le_refl _⟩
              · obtain ⟨r', hr', hle⟩ := ih ho ho' r hr
                exact ⟨r', List.mem_cons_of_mem _ hr', hle⟩
            · cases h'
          · cases h

/-- Where notes cannot be joined, there is a tie of nothing also in integers, or else there is a first
note with which a run is overlong. -/
theorem runsFrom_exact_error {f : Fault} (h : runsFrom line run ns = .error f) :
    (f.cause? = some .tieWithoutNote ∧
        Exact.Note.runsFrom run.exact (ns.map exact) = .error .tieWithoutNote) ∨
      ∃ held n later, ns = held ++ n :: later ∧ f = n.fault line .ticksOverflow ∧
        (∃ rs, runsFrom line run held = .ok rs) ∧
        ∃ rs, Exact.Note.runsFrom run.exact ((held ++ [n]).map exact) = .ok rs ∧
          ∃ r ∈ rs, Exact.longest < r.length := by
  fun_induction runsFrom line run ns with
  | case1 => cases h
  | case2 run n ns hc longer hl ih =>
      rcases ih h with ⟨hcause, htie⟩ | ⟨held, m, later, rfl, hf, ⟨rs, hrs⟩, hlong⟩
      · exact Or.inl ⟨hcause, (exact_runsFrom_of_continues hc hl).trans htie⟩
      · refine Or.inr ⟨n :: held, m, later, rfl, hf, ⟨rs, ?_⟩, ?_⟩
        · rw [runsFrom, if_pos hc, hl]
          exact hrs
        · rw [List.cons_append, exact_runsFrom_of_continues hc hl]
          exact hlong
  | case3 run n ns hc e he =>
      cases h
      obtain ⟨rfl, hlong⟩ := overlong_of_extend he
      refine Or.inr ⟨[], n, ns, rfl, rfl, ⟨[run], rfl⟩, [run.exact.extend n.exact], ?_, ?_⟩
      · rw [List.nil_append, List.map_singleton, Exact.Note.runsFrom, exact_continues, if_pos hc]
        rfl
      · exact ⟨_, by simp, hlong⟩
  | case4 run n ns hc ht =>
      cases h
      refine Or.inl ⟨rfl, ?_⟩
      rw [List.map_cons, Exact.Note.runsFrom, exact_continues, if_neg hc, exact_isTie, if_pos ht]
  | case5 => cases h
  | case6 run n ns hc ht e he ih =>
      cases h
      rcases ih he with ⟨hcause, htie⟩ |
        ⟨held, m, later, rfl, hf, ⟨rs, hrs⟩, rs', hrs', r, hr, hlong⟩
      · refine Or.inl ⟨hcause, ?_⟩
        rw [exact_runsFrom_of_not_continues hc ht, htie]
        rfl
      · refine Or.inr ⟨n :: held, m, later, rfl, hf, ⟨run :: rs, ?_⟩, run.exact :: rs', ?_, r, ?_,
          hlong⟩
        · rw [runsFrom, if_neg hc, if_neg ht, hrs]
        · rw [List.cons_append, exact_runsFrom_of_not_continues hc ht, hrs']
          rfl
        · exact List.mem_cons_of_mem _ hr

/-- Where no sound follows a rest, a tie goes on with a run. -/
theorem exists_exact_runsFrom {run : Exact.Note} (hl : RestsLast ns)
    (hrun : run.isRest = true → ∀ n ∈ ns, n.isRest = true) :
    ∃ rs, Exact.Note.runsFrom run (ns.map exact) = .ok rs := by
  induction ns generalizing run with
  | nil => exact ⟨[run], rfl⟩
  | cons n ns ih =>
      obtain ⟨hn, hns⟩ := List.pairwise_cons.mp hl
      rw [List.map_cons, Exact.Note.runsFrom]
      split
      · exact ih hns (fun hr m hm => hrun hr m (List.mem_cons_of_mem _ hm))
      · rename_i hc
        split
        · -- only a rest lets a tie go on with nothing, and no tie follows a rest
          rename_i ht
          cases hr : run.isRest with
          | true =>
              have hrest : n.exact.isRest = true := hrun hr n (by simp)
              exact absurd (by simp [Exact.Note.continues, hr, hrest]) hc
          | false => exact absurd (by simp [Exact.Note.continues, hr, ht]) hc
        · have hrests : n.exact.isRest = true → ∀ m ∈ ns, m.isRest = true :=
            fun hr m hm => hn m hm hr
          obtain ⟨rs, hrs⟩ := ih hns hrests
          exact ⟨run :: rs, by rw [hrs]⟩

theorem exists_exact_runsFrom_cons {tail : List Note} (hl : RestsLast (n :: tail)) :
    ∃ rs, Exact.Note.runsFrom n.exact (tail.map exact) = .ok rs := by
  obtain ⟨hn, htail⟩ := List.pairwise_cons.mp hl
  have hrests : n.exact.isRest = true → ∀ m ∈ tail, m.isRest = true := fun hr m hm => hn m hm hr
  exact exists_exact_runsFrom htail hrests

theorem runs_exact (h : runs line ns = .ok rs) :
    Exact.Note.runs (ns.map exact) = .ok (rs.map exact) := by
  rcases runs_ok h with ⟨rfl, rfl⟩ | ⟨n, tail, rfl, ht, hr⟩
  · rfl
  · rw [List.map_cons, Exact.Note.runs, exact_isTie, ht]
    exact runsFrom_exact hr

/-- A note of thirty-two bits is not overlong. -/
theorem length_exact_le (n : Note) : n.exact.length ≤ Exact.longest := by
  have hlt := n.length.toNat_lt
  show (n.length.toNat : Int) ≤ 4294967295
  omega

/-- Runs that exist are not overlong. -/
theorem not_someRunOverlong (h : runs line ns = .ok rs) :
    ¬ Exact.Note.SomeRunOverlong (ns.map exact) := by
  rintro ⟨rs', hrs', r, hr, hlong⟩
  obtain rfl : rs.map exact = rs' := Except.ok.inj ((runs_exact h).symm.trans hrs')
  obtain ⟨n, -, rfl⟩ := List.mem_map.mp hr
  exact absurd hlong (not_lt.mpr n.length_exact_le)

/-- Where no sound follows a rest, notes with an overlong run still have one if more notes come. -/
theorem someRunOverlong_append {ms : List Note} (hl : RestsLast (ns ++ ms))
    (h : Exact.Note.SomeRunOverlong (ns.map exact)) :
    Exact.Note.SomeRunOverlong ((ns ++ ms).map exact) := by
  obtain ⟨rs, hrs, r, hr, hlong⟩ := h
  cases ns with
  | nil =>
      cases hrs
      cases hr
  | cons n ns =>
      rw [List.map_cons, Exact.Note.runs, exact_isTie] at hrs
      split at hrs
      · cases hrs
      · rename_i ht
        obtain ⟨rs', hrs'⟩ := exists_exact_runsFrom_cons hl
        obtain ⟨r', hr', hle⟩ := exists_run_ge_of_append hrs hrs' r hr
        refine ⟨rs', ?_, r', hr', by omega⟩
        rw [List.cons_append, List.map_cons, Exact.Note.runs, exact_isTie, if_neg ht]
        exact hrs'

/-- Where no sound follows a rest, notes cannot be joined only because they begin with a tie, or at
the first note with which a run is overlong. -/
theorem runs_error_at {f : Fault} (h : runs line ns = .error f) (hl : RestsLast ns) :
    (∃ n tail, ns = n :: tail ∧ n.isTie = true ∧
        f = .misplaced line n.column ['-'] .tieWithoutNote) ∨
      ∃ held n later, ns = held ++ n :: later ∧ f = n.fault line .ticksOverflow ∧
        ¬ Exact.Note.SomeRunOverlong (held.map exact) ∧
        Exact.Note.SomeRunOverlong ((held ++ [n]).map exact) := by
  cases ns with
  | nil => cases h
  | cons n tail =>
      rw [runs] at h
      split at h
      · rename_i ht
        cases h
        exact Or.inl ⟨n, tail, rfl, ht, rfl⟩
      · rename_i ht
        rcases runsFrom_exact_error h with ⟨-, htie⟩ | ⟨held, m, later, rfl, hf, ⟨rs, hrs⟩, hlong⟩
        · -- no tie that comes later has nothing to lengthen
          obtain ⟨rs, hrs⟩ := exists_exact_runsFrom_cons hl
          rw [hrs] at htie
          cases htie
        · refine Or.inr ⟨n :: held, m, later, rfl, hf, ?_, ?_⟩
          · apply not_someRunOverlong
            rw [runs, if_neg ht]
            exact hrs
          · rw [List.cons_append, List.map_cons, Exact.Note.SomeRunOverlong, Exact.Note.runs,
              exact_isTie, if_neg ht]
            exact hlong

theorem runs_exact_error {f : Fault} (h : runs line ns = .error f) (hl : RestsLast ns) :
    (f.cause? = some .tieWithoutNote ∧
        Exact.Note.runs (ns.map exact) = .error .tieWithoutNote) ∨
      (f.cause? = some .ticksOverflow ∧ Exact.Note.SomeRunOverlong (ns.map exact)) := by
  rcases runs_error_at h hl with ⟨n, tail, rfl, ht, rfl⟩ | ⟨held, n, later, rfl, rfl, -, hlong⟩
  · refine Or.inl ⟨rfl, ?_⟩
    rw [List.map_cons, Exact.Note.runs, exact_isTie, if_pos ht]
  · have happend : held ++ n :: later = (held ++ [n]) ++ later := by simp
    rw [happend] at hl ⊢
    exact Or.inr ⟨rfl, someRunOverlong_append hl hlong⟩

end Note

namespace Phrase

/-! ## Making a phrase -/

theorem splitRest_exact (rs : List Note) :
    Exact.Phrase.splitRest (rs.map Note.exact)
      = ((splitRest rs).1.map Note.exact, ((splitRest rs).2.toNat : Int)) := by
  rcases List.eq_nil_or_concat rs with rfl | ⟨init, n, rfl⟩
  · rfl
  · rw [List.concat_eq_append, splitRest_concat, List.map_append, List.map_singleton]
    simp only [Exact.Phrase.splitRest, List.getLast?_concat, List.dropLast_concat,
      Note.exact_isRest]
    split
    · rfl
    · simp

variable {line : Nat} {s : Syllable} {ns : List Note}

theorem ofNotes_exact {p : Phrase} (h : ofNotes line s ns = .ok p) :
    Exact.Phrase.ofNotes s (ns.map Note.exact) = .ok p.exact := by
  obtain ⟨rfl, rs, hrs, hsplit⟩ := ofNotes_ok h
  simp only [Exact.Phrase.ofNotes, Note.runs_exact hrs, splitRest_exact, hsplit, List.map_cons]
  rfl

/-- A phrase that cannot be made cannot be made of the same notes in integers, or a run of them is
overlong. -/
theorem ofNotes_exact_error {f : Fault} (h : ofNotes line s ns = .error f)
    (hl : Note.RestsLast ns) :
    (∃ cause, f.cause? = some cause ∧ cause ∈ [.tieWithoutNote, .noNote, .onlyRests] ∧
        Exact.Phrase.ofNotes s (ns.map Note.exact) = .error cause) ∨
      (f.cause? = some .ticksOverflow ∧ Exact.Note.SomeRunOverlong (ns.map Note.exact)) := by
  unfold ofNotes at h
  split at h
  · rename_i e hruns
    cases h
    rcases Note.runs_exact_error hruns hl with ⟨hcause, htie⟩ | hlong
    · refine Or.inl ⟨_, hcause, by simp, ?_⟩
      simp only [Exact.Phrase.ofNotes, htie]
    · exact Or.inr hlong
  · rename_i rs hruns
    split at h
    · cases h
    · rename_i silence hsplit
      cases h
      refine Or.inl ⟨if ns.isEmpty then .noNote else .onlyRests, rfl, ?_, ?_⟩
      · split <;> simp
      · simp only [Exact.Phrase.ofNotes, Note.runs_exact hruns, splitRest_exact, hsplit,
          List.map_nil, List.isEmpty_map]

/-! ## Allotting the ticks -/

variable (σ : Settings) (p : Phrase)

@[simp] theorem syllable_exact : p.exact.syllable = p.syllable := rfl

@[simp] theorem silence_exact : p.exact.silence = p.silence.toNat := rfl

theorem last_exact : p.exact.last = p.last.exact := by
  show (p.more.map Note.exact).getLast?.getD p.first.exact = _
  rw [List.getLast?_map, last]
  cases p.more.getLast? <;> rfl

theorem codaTicks_exact : p.exact.codaTicks σ = (p.codaTicks σ).toNat := by
  have hshort : p.exact.last.length < 15 ↔ p.last.length < codaRoom := by
    rw [last_exact, UInt32.lt_iff_toNat_lt]
    show (p.last.length.toNat : Int) < 15 ↔ p.last.length.toNat < 15
    omega
  unfold Exact.Phrase.codaTicks codaTicks
  simp only [hshort, syllable_exact]
  split
  · rfl
  · rw [Ticks.toNat_min, Ticks.toNat_half, last_exact]
    push_cast
    rfl

/-- Only the last note gives up ticks, and it has as many as it gives up. -/
theorem keptTicks_exact (n : Note) (after : List Note) (hlast : after = [] → n = p.last) :
    p.exact.keptTicks σ n.exact (after.map Note.exact) = (p.keptTicks σ n after).toNat := by
  unfold Exact.Phrase.keptTicks keptTicks
  rw [List.isEmpty_map]
  split
  · rename_i ha
    have hle := toNat_codaTicks_le σ p
    rw [hlast (by simpa using ha), codaTicks_exact, Ticks.toNat_sub (by omega)]
    show (p.last.length.toNat : Int) - _ = _
    omega
  · rfl

theorem keptTicks_exact_first :
    p.exact.keptTicks σ p.exact.first p.exact.more
      = (p.keptTicks σ p.first p.more).toNat := by
  refine keptTicks_exact σ p p.first p.more (fun hm => ?_)
  simp [last, hm]

theorem pos_exact (t : Ticks) : 0 < (t.toNat : Int) ↔ 0 < t := by
  rw [Ticks.pos_iff]
  omega

theorem carry_exact : p.exact.carry σ = (p.carry σ).map Carry.exact := by
  unfold Exact.Phrase.carry carry
  simp only [codaTicks_exact, silence_exact, pos_exact]
  split_ifs <;> rfl

/-! ## Singing -/

theorem loneConsonant_exact (text : Text) (key : Int) (t : Ticks) :
    Exact.Mora.loneConsonant text key t.toNat = (Mora.loneConsonant text key t).exact := by
  have hpred : max ((t.toNat : Int) - 1) 0 = t.pred.toNat := by
    rw [Ticks.toNat_pred]
    omega
  simp only [Exact.Mora.loneConsonant, hpred]
  rfl

theorem firstMora_exact (key : Int) : p.exact.firstMora σ key = (p.firstMora σ key).exact := by
  have hoff := toNat_offTick_firstMora σ p key
  simp only [Exact.Phrase.firstMora, Mora.exact, keptTicks_exact_first, hoff]
  push_cast
  rfl

theorem closing_exact (key : Int) :
    p.exact.closing σ key = (p.closing σ key).map Mora.exact := by
  unfold Exact.Phrase.closing closing
  simp only [codaTicks_exact, silence_exact, syllable_exact, pos_exact, loneConsonant_exact]
  split <;> rfl

theorem laterMorae_exact (key : Int) (ns : List Note)
    (hlast : ∀ n, ns.getLast? = some n → n = p.last) :
    p.exact.laterMorae σ key (ns.map Note.exact) = (p.laterMorae σ key ns).map Mora.exact := by
  induction ns generalizing key with
  | nil => exact closing_exact σ p key
  | cons n after ih =>
      have hn : after = [] → n = p.last := fun ha => hlast n (by simp [ha])
      have hafter : ∀ m, after.getLast? = some m → m = p.last := fun m hm =>
        hlast m (by rw [List.getLast?_cons, hm]; rfl)
      rw [List.map_cons, Exact.Phrase.laterMorae, laterMorae, List.map_cons,
        keptTicks_exact σ p n after hn]
      exact congrArg (_ :: ·) (ih _ hafter)

theorem laterMorae_exact_more (key : Int) :
    p.exact.laterMorae σ key p.exact.more = (p.laterMorae σ key p.more).map Mora.exact := by
  refine laterMorae_exact σ p key p.more (fun n hn => ?_)
  rw [last, hn]
  rfl

/-! ## The opening -/

variable {before : Option Int} {m : Mora} {carried : Option Carry} {opening : List Mora}

/-- A first mora that can be counted with what it takes in. The silence and the consonant in it are no
longer than the whole, so that they are counted as well. -/
theorem openWith_exact (hm : m.Plain) (h : p.openWith line before m carried = .ok opening) :
    p.exact.openWith before m.exact (carried.map Carry.exact) = .ok (opening.map Mora.exact) ∧
      m.exact.tick + p.exact.takenIn (carried.map Carry.exact) ≤ Exact.longest := by
  have hlt := m.tick.toNat_lt
  cases p.opens_of_openWith h with
  | nothing =>
      refine ⟨rfl, ?_⟩
      show (m.tick.toNat : Int) + 0 ≤ 4294967295
      omega
  | @silence t tick hadd =>
      obtain ⟨hsum, -⟩ := Ticks.add?_eq_some.mp hadd
      constructor
      · simp only [List.map_singleton, Mora.exact, hm.toNat_onTick_add hadd,
          Ticks.toNat_of_add? hadd]
        push_cast
        rfl
      · show (m.tick.toNat : Int) + t.toNat ≤ 4294967295
        omega
  | @consonant t tick hadd =>
      obtain ⟨hsum, -⟩ := Ticks.add?_eq_some.mp hadd
      have htaken : p.exact.takenIn (some (.coda p.exact.syllable.onset t.toNat)) = t.toNat :=
        if_pos rfl
      constructor
      · have hopen : p.exact.openWith before m.exact (some (.coda p.exact.syllable.onset t.toNat))
            = .ok [{ m.exact with
                tick := m.exact.tick + t.toNat, offTick := m.exact.offTick + t.toNat }] :=
          if_pos rfl
        have hmora : ({ m with tick, offTick := m.offTick + t } : Mora).exact
            = { m.exact with
                tick := m.exact.tick + t.toNat, offTick := m.exact.offTick + t.toNat } := by
          simp only [Mora.exact, hm.toNat_offTick_add hadd, Ticks.toNat_of_add? hadd]
          push_cast
          rfl
        rw [List.map_singleton, hmora]
        exact hopen
      · show m.exact.tick + p.exact.takenIn (some (.coda p.exact.syllable.onset t.toNat)) ≤ _
        rw [htaken]
        show (m.tick.toNat : Int) + t.toNat ≤ 4294967295
        omega
  | @coda text t key htext hbefore =>
      have htaken : p.exact.takenIn (some (.coda text t.toNat)) = 0 := if_neg htext
      constructor
      · have hopen : p.exact.openWith before m.exact (some (.coda text t.toNat))
            = .ok [Exact.Mora.loneConsonant text key t.toNat, m.exact] := by
          rw [hbefore]
          exact if_neg htext
        rw [loneConsonant_exact] at hopen
        exact hopen
      · show m.exact.tick + p.exact.takenIn (some (.coda text t.toNat)) ≤ _
        rw [htaken]
        show (m.tick.toNat : Int) + 0 ≤ 4294967295
        omega

/-- A first mora that cannot be counted is overlong with what it takes in. -/
theorem overlong_of_add? {t : Ticks}
    (hcarried : carried = some (.silence t) ∨ carried = some (.coda p.syllable.onset t))
    (hadd : Ticks.add? m.tick t = none) :
    Exact.longest < m.exact.tick + p.exact.takenIn (carried.map Carry.exact) := by
  have hsum := Ticks.add?_eq_none.mp hadd
  have htaken : p.exact.takenIn (carried.map Carry.exact) = t.toNat := by
    rcases hcarried with rfl | rfl
    · rfl
    · exact if_pos rfl
  rw [htaken]
  show (4294967295 : Int) < (m.tick.toNat : Int) + t.toNat
  omega

end Phrase

end SungScore
