import SungScore.Proofs.Runs
import SungScore.Proofs.SideBySide

set_option autoImplicit false

/-!
# Joining is exact

What the runs of a list are is said here without joining any notes (`IsRun`, `CutInRuns`), and a
list is cut into them in at most one way (`CutInRuns.unique`). One note more lengthens the last of
the runs so far, begins another one, or cannot be joined (`Joins`); each time the cut changes
likewise (`Joined.step`, `Joined.fault`). From this follows what joining does to all notes
(`joining_exact`).
-/

namespace SungScore

/-- A chain with one entry more. -/
theorem isChain_concat {α : Type} {R : α → α → Prop} {xs : List α} {x : α} :
    (xs ++ [x]).IsChain R ↔ xs.IsChain R ∧ ∀ y ∈ xs.getLast?, R y x := by
  rw [List.isChain_append]
  constructor
  · exact fun h => ⟨h.1, fun y hy => h.2.2 y hy x rfl⟩
  · refine fun h => ⟨h.1, .singleton x, fun y hy z hz => ?_⟩
    cases hz
    exact h.2 y hy

namespace Note

/-! ## Runs as they are written -/

/-- Notes that are joined into one: a pitch with the ties after it, or a block of rests. -/
inductive IsRun : List Note → Prop
  | sound {n : Note} {ties : List Note} (hn : n.isPitched = true)
      (hties : ∀ t ∈ ties, t.isTie = true) : IsRun (n :: ties)
  | silence {n : Note} {rests : List Note} (hn : n.isRest = true)
      (hrests : ∀ r ∈ rests, r.isRest = true) : IsRun (n :: rests)

/-- The runs of notes, in order. They are as long as they can be: two neighbours are not one run. -/
structure CutInRuns (ns : List Note) (cut : List (List Note)) : Prop where
  flatten_eq : cut.flatten = ns
  isRun : ∀ run ∈ cut, IsRun run
  maximal : cut.IsChain (fun run next => ¬ IsRun (run ++ next))

/-- No tie is first or comes directly after a rest. -/
structure TiesHold (ns : List Note) : Prop where
  first : ∀ n ∈ ns.head?, n.isTie = false
  afterRest : ns.IsChain (fun m n => m.isRest = true → n.isTie = false)

/-- The ties hold and all runs can be counted. -/
def Joinable (ns : List Note) : Prop :=
  TiesHold ns ∧ ∀ cut, CutInRuns ns cut → ∀ run ∈ cut, total run < 2 ^ 32

/-- No rest comes directly after another. -/
def RestsApart (ns : List Note) : Prop :=
  ns.IsChain (fun m n => m.isRest = true → n.isRest = false)

/-- The note that a run is joined into: it begins where the run does and lasts as long. -/
structure StandsFor (run : List Note) (r : Note) : Prop where
  mark : run.head?.map Note.mark = some r.mark
  length : r.length.toNat = total run

variable {line : Nat} {n m r : Note} {ns rs run next : List Note} {cut : List (List Note)}

theorem isTie_of_isRest (h : n.isRest = true) : n.isTie = false := by
  obtain ⟨kind, length, column⟩ := n
  cases kind <;> first | rfl | cases h

theorem isRest_of_isTie (h : n.isTie = true) : n.isRest = false := by
  obtain ⟨kind, length, column⟩ := n
  cases kind <;> first | rfl | cases h

/-- A run is a note that is no tie, and others that go on with it. -/
theorem isRun_cons : IsRun (n :: ns) ↔ n.isTie = false ∧ ∀ m ∈ ns, m.continues n = true := by
  cases hr : n.isRest with
  | true =>
      simp only [continues, hr, if_true]
      constructor
      · intro h
        cases h with
        | sound hn => simp [isPitched, hr] at hn
        | silence _ hrests => exact ⟨isTie_of_isRest hr, hrests⟩
      · exact fun h => .silence hr h.2
  | false =>
      simp only [continues, hr, Bool.false_eq_true, if_false]
      constructor
      · intro h
        cases h with
        | sound hn hties => exact ⟨by simpa [isPitched, hr] using hn, hties⟩
        | silence hn => simp [hr] at hn
      · exact fun h => .sound (by simp [isPitched, hr, h.1]) h.2

theorem IsRun.exists_cons (h : IsRun run) :
    ∃ n more, run = n :: more ∧ n.isTie = false ∧ ∀ m ∈ more, m.continues n = true := by
  obtain ⟨n, more, rfl⟩ : ∃ n more, run = n :: more := by cases h <;> exact ⟨_, _, rfl⟩
  exact ⟨n, more, rfl, isRun_cons.mp h⟩

theorem IsRun.ne_nil (h : IsRun run) : run ≠ [] := by
  obtain ⟨n, more, rfl, -⟩ := h.exists_cons
  exact List.cons_ne_nil n more

theorem isRun_singleton (h : n.isTie = false) : IsRun [n] :=
  isRun_cons.mpr ⟨h, fun _ hm => (List.not_mem_nil hm).elim⟩

/-- What begins a run is one by itself. -/
theorem IsRun.of_append (h : IsRun (run ++ next)) (hne : run ≠ []) : IsRun run := by
  obtain ⟨n, more, rfl⟩ := List.exists_cons_of_ne_nil hne
  rw [List.cons_append, isRun_cons] at h
  exact isRun_cons.mpr ⟨h.1, fun m hm => h.2 m (List.mem_append_left next hm)⟩

/-- A note makes a run longer if it goes on with what the run begins with. -/
theorem IsRun.concat_iff (h : IsRun run) (hr : run.head?.map mark = some r.mark) :
    IsRun (run ++ [n]) ↔ n.continues r = true := by
  obtain ⟨first, more, rfl, hfirst, hmore⟩ := h.exists_cons
  have hrest := isRest_eq_of_mark_eq (Option.some.inj hr)
  rw [List.cons_append, isRun_cons, List.forall_mem_append, List.forall_mem_singleton, continues,
    continues, hrest]
  exact ⟨fun h => h.2.2, fun hn => ⟨hfirst, hmore, hn⟩⟩

theorem standsFor_singleton (n : Note) : StandsFor [n] n := ⟨rfl, by simp⟩

/-- The lengthened note stands for the longer run. -/
theorem StandsFor.extend {longer : Note} (h : StandsFor run r) (hrun : IsRun run)
    (hl : r.extend line n = .ok longer) : StandsFor (run ++ [n]) longer := by
  obtain ⟨first, more, rfl, -⟩ := hrun.exists_cons
  refine ⟨?_, ?_⟩
  · rw [mark_of_extend hl, ← h.mark]
    rfl
  · rw [length_of_extend hl, h.length, total_append, total_cons n, total_nil, Nat.add_zero]

/-- A run ends in a rest if it begins with one. -/
theorem IsRun.getLast?_isRest (h : IsRun run) (hr : run.head?.map mark = some r.mark) :
    run.getLast?.map isRest = some r.isRest := by
  obtain ⟨first, more, rfl, hfirst, hmore⟩ := h.exists_cons
  rw [← isRest_eq_of_mark_eq (Option.some.inj hr)]
  rcases List.eq_nil_or_concat more with rfl | ⟨init, last, rfl⟩
  · rfl
  · have hlast : last.continues first = true := hmore last (by simp)
    rw [List.concat_eq_append, ← List.cons_append, List.getLast?_concat, Option.map_some]
    unfold continues at hlast
    split at hlast
    · rename_i hrest
      rw [hlast, hrest]
    · rename_i hrest
      rw [isRest_of_isTie hlast, Bool.eq_false_iff.mpr hrest]

/-- A run that goes on where another one does. -/
theorem IsRun.glue (h : IsRun (run ++ next)) (h' : IsRun (next ++ ns)) (hrun : run ≠ [])
    (hnext : next ≠ []) : IsRun (run ++ (next ++ ns)) := by
  obtain ⟨n, more, rfl⟩ := List.exists_cons_of_ne_nil hrun
  obtain ⟨m, more', rfl⟩ := List.exists_cons_of_ne_nil hnext
  rw [List.cons_append, isRun_cons] at h h' ⊢
  obtain ⟨hn, hmore⟩ := h
  obtain ⟨hm, hns⟩ := h'
  have hmn : m.continues n = true := hmore m (by simp)
  -- only a rest goes on without being a tie
  have hboth : n.isRest = true ∧ m.isRest = true := by
    unfold continues at hmn
    split at hmn
    · rename_i hrest
      exact ⟨hrest, hmn⟩
    · rw [hm] at hmn
      cases hmn
  refine ⟨hn, fun x hx => ?_⟩
  rw [← List.append_assoc, List.mem_append] at hx
  rcases hx with hx | hx
  · exact hmore x hx
  · have hxm := hns x (List.mem_append_right _ hx)
    rw [continues, hboth.2] at hxm
    rw [continues, hboth.1]
    exact hxm

/-! ## Cuts -/

namespace CutInRuns

theorem nil : CutInRuns [] [] := ⟨rfl, by simp, .nil⟩

theorem eq_nil (h : CutInRuns [] cut) : cut = [] := by
  rw [List.eq_nil_iff_forall_not_mem]
  intro run hrun
  obtain ⟨n, more, rfl, -⟩ := (h.isRun run hrun).exists_cons
  have hmem : n ∈ cut.flatten := List.mem_flatten.mpr ⟨_, hrun, List.mem_cons_self⟩
  rw [h.flatten_eq] at hmem
  cases hmem

/-- The last run gets longer. -/
theorem lengthen (h : CutInRuns ns (cut ++ [run])) (hrun : IsRun (run ++ [n])) :
    CutInRuns (ns ++ [n]) (cut ++ [run ++ [n]]) := by
  obtain ⟨rfl, hall, hmax⟩ := h
  rw [List.forall_mem_append, List.forall_mem_singleton] at hall
  rw [isChain_concat] at hmax
  refine ⟨by simp, ?_, ?_⟩
  · rw [List.forall_mem_append, List.forall_mem_singleton]
    exact ⟨hall.1, hrun⟩
  · refine isChain_concat.mpr ⟨hmax.1, fun before hbefore hboth => ?_⟩
    have hne : before ++ run ≠ [] := List.append_ne_nil_of_right_ne_nil before hall.2.ne_nil
    rw [← List.append_assoc] at hboth
    exact hmax.2 before hbefore (hboth.of_append hne)

/-- Another run begins. -/
theorem begin_run (h : CutInRuns ns cut) (hn : n.isTie = false)
    (hmax : ∀ run ∈ cut.getLast?, ¬ IsRun (run ++ [n])) :
    CutInRuns (ns ++ [n]) (cut ++ [[n]]) := by
  obtain ⟨rfl, hall, hchain⟩ := h
  refine ⟨by simp, ?_, isChain_concat.mpr ⟨hchain, hmax⟩⟩
  rw [List.forall_mem_append, List.forall_mem_singleton]
  exact ⟨hall, isRun_singleton hn⟩

/-- A cut of longer notes ends in a run that has the last note at its end. -/
theorem exists_last (h : CutInRuns (ns ++ [n]) cut) :
    ∃ init run, cut = init ++ [run ++ [n]] ∧ init.flatten ++ run = ns := by
  rcases List.eq_nil_or_concat cut with rfl | ⟨init, last, rfl⟩
  · simpa using h.flatten_eq
  · rw [List.concat_eq_append] at h ⊢
    rcases List.eq_nil_or_concat last with rfl | ⟨run, m, rfl⟩
    · exact absurd rfl (h.isRun [] (by simp)).ne_nil
    · have hflatten := h.flatten_eq
      rw [List.concat_eq_append, List.flatten_concat, ← List.append_assoc] at hflatten
      obtain ⟨hns, hm⟩ := List.append_inj' hflatten rfl
      obtain rfl := (List.cons.inj hm).1
      exact ⟨init, run, by rw [List.concat_eq_append], hns⟩

/-- The last note of a cut list is the only one of its run, or makes it longer. -/
theorem of_concat (h : CutInRuns (ns ++ [n]) cut) :
    (∃ init run, cut = init ++ [run ++ [n]] ∧ IsRun (run ++ [n]) ∧ CutInRuns ns (init ++ [run])) ∨
      ∃ init, cut = init ++ [[n]] ∧ (∀ run ∈ init.getLast?, ¬ IsRun (run ++ [n])) ∧
        CutInRuns ns init := by
  obtain ⟨init, run, rfl, hns⟩ := h.exists_last
  obtain ⟨-, hall, hmax⟩ := h
  rw [List.forall_mem_append, List.forall_mem_singleton] at hall
  rw [isChain_concat] at hmax
  rcases eq_or_ne run [] with rfl | hne
  · rw [List.append_nil] at hns
    exact Or.inr ⟨init, rfl, hmax.2, hns, hall.1, hmax.1⟩
  · refine Or.inl ⟨init, run, rfl, hall.2, ?_, ?_, ?_⟩
    · rw [List.flatten_concat, hns]
    · rw [List.forall_mem_append, List.forall_mem_singleton]
      exact ⟨hall.1, hall.2.of_append hne⟩
    · -- two runs that are one without the last note are one with it
      refine isChain_concat.mpr ⟨hmax.1, fun before hbefore hboth => ?_⟩
      have hbefore' : IsRun before := hall.1 before (List.mem_of_getLast? hbefore)
      exact hmax.2 before hbefore (hboth.glue hall.2 hbefore'.ne_nil hne)

/-- Notes are cut in one way. -/
theorem unique {cut' : List (List Note)} (h : CutInRuns ns cut) (h' : CutInRuns ns cut') :
    cut = cut' := by
  -- in both cuts the last note makes the last run longer, or in both it begins one
  induction ns using List.reverseRecOn generalizing cut cut' with
  | nil => rw [h.eq_nil, h'.eq_nil]
  | append_singleton ns n ih =>
      rcases h.of_concat with ⟨init, run, rfl, hrun, hns⟩ | ⟨init, rfl, hmax, hns⟩
      · rcases h'.of_concat with ⟨init', run', rfl, -, hns'⟩ | ⟨init', rfl, hmax', hns'⟩
        · obtain ⟨rfl, hlast⟩ := List.append_inj' (ih hns hns') rfl
          rw [(List.cons.inj hlast).1]
        · obtain rfl := ih hns hns'
          exact absurd hrun (hmax' run (by simp))
      · rcases h'.of_concat with ⟨init', run', rfl, hrun', hns'⟩ | ⟨init', rfl, -, hns'⟩
        · obtain rfl := ih hns hns'
          exact absurd hrun' (hmax run' (by simp))
        · rw [ih hns hns']

/-- Notes end like the last of their runs begins: in a rest or in a sound. -/
theorem getLast?_isRest (h : CutInRuns ns (cut ++ [run])) (hr : run.head?.map mark = some r.mark) :
    ns.getLast?.map isRest = some r.isRest := by
  have hrun : IsRun run := h.isRun run (by simp)
  obtain ⟨first, more, rfl, -⟩ := hrun.exists_cons
  rw [← hrun.getLast?_isRest hr, ← h.flatten_eq, List.flatten_concat,
    List.getLast?_append_of_ne_nil _ (List.cons_ne_nil _ _)]

end CutInRuns

/-! ## Ties -/

theorem continues_of_isTie (h : n.isTie = true) : n.continues r = !r.isRest := by
  rw [continues, h, isRest_of_isTie h]
  cases r.isRest <;> rfl

/-- The ties hold with one note more if it is no tie, or one after a sound. -/
theorem tiesHold_concat :
    TiesHold (ns ++ [n]) ↔
      TiesHold ns ∧ (n.isTie = true → ns.getLast?.map isRest = some false) := by
  rcases List.eq_nil_or_concat ns with rfl | ⟨init, m, rfl⟩
  · constructor
    · intro h
      refine ⟨⟨by simp, .nil⟩, fun ht => ?_⟩
      rw [h.first n rfl] at ht
      cases ht
    · rintro ⟨-, h⟩
      refine ⟨fun x hx => ?_, .singleton _⟩
      cases hx
      simpa using h
  · rw [List.concat_eq_append]
    have hhead : (init ++ [m] ++ [n]).head? = (init ++ [m]).head? :=
      List.head?_append_of_ne_nil _ (by simp)
    -- a tie may not follow a rest, which is to say that a tie follows a sound
    have hlast : (∀ x ∈ (init ++ [m]).getLast?, x.isRest = true → n.isTie = false) ↔
        (n.isTie = true → (init ++ [m]).getLast?.map isRest = some false) := by
      rw [List.getLast?_concat]
      cases hm : m.isRest <;> cases n.isTie <;> simp [hm]
    constructor
    · rintro ⟨hfirst, hchain⟩
      rw [hhead] at hfirst
      rw [isChain_concat, hlast] at hchain
      exact ⟨⟨hfirst, hchain.1⟩, hchain.2⟩
    · rintro ⟨⟨hfirst, hchain⟩, hn⟩
      refine ⟨by rwa [hhead], ?_⟩
      rw [isChain_concat, hlast]
      exact ⟨hchain, hn⟩

namespace CutInRuns

/-- A tie that holds goes on with the last run, since only a block of rests has no ties. -/
theorem exists_run_of_isTie (h : CutInRuns ns cut) (ht : TiesHold (ns ++ [n]))
    (hn : n.isTie = true) : ∃ run ∈ cut.getLast?, IsRun (run ++ [n]) := by
  have hsound := (tiesHold_concat.mp ht).2 hn
  rcases List.eq_nil_or_concat cut with rfl | ⟨init, run, rfl⟩
  · rw [← h.flatten_eq] at hsound
    cases hsound
  · rw [List.concat_eq_append] at h ⊢
    have hrun : IsRun run := h.isRun run (by simp)
    obtain ⟨first, more, rfl, -⟩ := hrun.exists_cons
    rw [h.getLast?_isRest (r := first) rfl] at hsound
    refine ⟨_, List.getLast?_concat, (hrun.concat_iff (r := first) rfl).mpr ?_⟩
    rw [continues_of_isTie hn, Option.some.inj hsound]
    rfl

/-- The ties still hold if the last run gets longer. -/
theorem tiesHold_concat (h : CutInRuns ns (cut ++ [run])) (ht : TiesHold ns)
    (hrun : IsRun (run ++ [n])) : TiesHold (ns ++ [n]) := by
  refine Note.tiesHold_concat.mpr ⟨ht, fun hn => ?_⟩
  have hlast : IsRun run := h.isRun run (by simp)
  obtain ⟨first, more, rfl, -⟩ := hlast.exists_cons
  rw [hlast.concat_iff (r := first) rfl, continues_of_isTie hn] at hrun
  rw [h.getLast?_isRest (r := first) rfl]
  simpa using hrun

/-- What does not go on with the last note does not go on with the run that it stands for. -/
theorem not_isRun_concat (h : CutInRuns ns cut) (hall : List.Forall₂ StandsFor cut rs)
    (hc : ∀ r ∈ rs.getLast?, n.continues r = false) :
    ∀ run ∈ cut.getLast?, ¬ IsRun (run ++ [n]) := by
  intro run hrun hlong
  rcases getLast?_of_forall₂ hall with ⟨hnone, -⟩ | ⟨run', r, hlast, hlast', hr⟩
  · rw [hnone] at hrun
    cases hrun
  · obtain rfl := Option.some.inj (hlast.symm.trans hrun)
    rw [(h.isRun _ (List.mem_of_getLast? hlast)).concat_iff hr.mark, hc r hlast'] at hlong
    cases hlong

end CutInRuns

/-- The runs of notes whose ties hold, with one note more. -/
theorem CutInRuns.exists_concat (h : CutInRuns ns cut) (ht : TiesHold (ns ++ [n])) :
    ∃ cut', CutInRuns (ns ++ [n]) cut' ∧ ∀ run ∈ cut, ∃ run' ∈ cut', total run ≤ total run' := by
  by_cases hlong : ∃ run ∈ cut.getLast?, IsRun (run ++ [n])
  · obtain ⟨run, hlast, hrun⟩ := hlong
    obtain ⟨init, rfl⟩ := List.getLast?_eq_some_iff.mp hlast
    refine ⟨_, h.lengthen hrun, fun x hx => ?_⟩
    rw [List.mem_append, List.mem_singleton] at hx
    rcases hx with hx | rfl
    · exact ⟨x, List.mem_append_left _ hx, le_rfl⟩
    · refine ⟨x ++ [n], by simp, ?_⟩
      rw [total_append]
      exact Nat.le_add_right _ _
  · have hmax : ∀ run ∈ cut.getLast?, ¬ IsRun (run ++ [n]) :=
      fun run hlast hrun => hlong ⟨run, hlast, hrun⟩
    have hn : n.isTie = false := by
      by_contra hn
      exact hlong (h.exists_run_of_isTie ht (Bool.eq_true_of_not_eq_false hn))
    exact ⟨_, h.begin_run hn hmax, fun x hx => ⟨x, List.mem_append_left _ hx, le_rfl⟩⟩

theorem exists_cutInRuns (h : TiesHold ns) : ∃ cut, CutInRuns ns cut := by
  induction ns using List.reverseRecOn with
  | nil => exact ⟨[], .nil⟩
  | append_singleton ns n ih =>
      obtain ⟨cut, hcut⟩ := ih (tiesHold_concat.mp h).1
      obtain ⟨cut', hcut', -⟩ := hcut.exists_concat h
      exact ⟨cut', hcut'⟩

theorem Joinable.of_append {ms : List Note} (h : Joinable (ns ++ ms)) : Joinable ns := by
  induction ms using List.reverseRecOn with
  | nil => simpa using h
  | append_singleton ms n ih =>
      rw [← List.append_assoc] at h
      refine ih ⟨(tiesHold_concat.mp h.1).1, fun cut hcut run hrun => ?_⟩
      obtain ⟨cut', hcut', hle⟩ := hcut.exists_concat h.1
      obtain ⟨run', hrun', hle⟩ := hle run hrun
      exact hle.trans_lt (h.2 cut' hcut' run' hrun')

/-! ## One note more -/

/-- What becomes of the runs so far when one more note comes. -/
inductive Joins (line : Nat) : List Note → Note → Except Fault (List Note) → Prop
  | lengthens (rs : List Note) {run n longer : Note} (hc : n.continues run = true)
      (hl : run.extend line n = .ok longer) : Joins line (rs ++ [run]) n (.ok (rs ++ [longer]))
  | overlong (rs : List Note) {run n : Note} (hc : n.continues run = true)
      (hadd : Ticks.add? run.length n.length = none) :
      Joins line (rs ++ [run]) n (.error (n.fault line .ticksOverflow))
  | begins (rs : List Note) {n : Note} (hn : n.isTie = false)
      (hc : ∀ run ∈ rs.getLast?, n.continues run = false) : Joins line rs n (.ok (rs ++ [n]))
  | nothing (rs : List Note) {n : Note} (hn : n.isTie = true)
      (hc : ∀ run ∈ rs.getLast?, n.continues run = false) :
      Joins line rs n (.error (.misplaced line n.column ['-'] .tieWithoutNote))

/-- Runs in front do not matter. -/
theorem Joins.cons {result : Except Fault (List Note)} (h : Joins line rs n result) (hne : rs ≠ [])
    (r : Note) : Joins line (r :: rs) n (result.map (r :: ·)) := by
  cases h with
  | lengthens rs hc hl => exact .lengthens (r :: rs) hc hl
  | overlong rs hc hadd => exact .overlong (r :: rs) hc hadd
  | begins rs hn hc => exact .begins (r :: rs) hn (by rwa [List.getLast?_cons_of_ne_nil hne])
  | nothing rs hn hc => exact .nothing (r :: rs) hn (by rwa [List.getLast?_cons_of_ne_nil hne])

theorem joins_runsFrom {run : Note} (h : runsFrom line run ns = .ok rs) :
    Joins line rs n (runsFrom line run (ns ++ [n])) := by
  -- at the end of `ns` the run under way is the last one, and `n` comes to it
  fun_induction runsFrom line run ns generalizing rs with
  | case1 run =>
      cases h
      rw [List.nil_append, runsFrom]
      split_ifs with hc ht
      · cases hadd : Ticks.add? run.length n.length with
        | some length =>
            rw [extend, hadd]
            exact .lengthens [] hc (by rw [extend, hadd])
        | none =>
            rw [extend, hadd]
            exact .overlong [] hc hadd
      · exact .nothing _ ht (by simpa using hc)
      · exact .begins [run] (by simpa using ht) (by simpa using hc)
  | case2 run m ns hc longer hl ih =>
      rw [List.cons_append, runsFrom, if_pos hc, hl]
      exact ih h
  | case3 => cases h
  | case4 => cases h
  | case5 run m ns hc ht others ho ih =>
      cases h
      rw [List.cons_append, runsFrom, if_neg hc, if_neg ht]
      have hjoins := (ih ho).cons (runsFrom_ne_nil ho) run
      cases hrest : runsFrom line m (ns ++ [n]) <;> rw [hrest] at hjoins <;> exact hjoins
  | case6 => cases h

theorem runsFrom_append_error {run : Note} {f : Fault} (h : runsFrom line run ns = .error f)
    (ms : List Note) : runsFrom line run (ns ++ ms) = .error f := by
  fun_induction runsFrom line run ns with
  | case1 => cases h
  | case2 run m ns hc longer hl ih =>
      rw [List.cons_append, runsFrom, if_pos hc, hl]
      exact ih h
  | case3 run m ns hc e he =>
      rw [List.cons_append, runsFrom, if_pos hc, he]
      exact h
  | case4 run m ns hc ht =>
      rw [List.cons_append, runsFrom, if_neg hc, if_pos ht]
      exact h
  | case5 => cases h
  | case6 run m ns hc ht e he ih =>
      cases h
      rw [List.cons_append, runsFrom, if_neg hc, if_neg ht, ih he]

/-- **Joining one more note** to the runs of others; where these cannot be joined, nor can more. -/
theorem joins_runs (line : Nat) (ns : List Note) (n : Note) :
    (∃ rs, runs line ns = .ok rs ∧ Joins line rs n (runs line (ns ++ [n]))) ∨
      ∃ f, runs line ns = .error f ∧ runs line (ns ++ [n]) = .error f := by
  cases ns with
  | nil =>
      refine Or.inl ⟨[], rfl, ?_⟩
      rw [List.nil_append, runs]
      split_ifs with ht
      · exact .nothing _ ht (by simp)
      · exact .begins [] (by simpa using ht) (by simp)
  | cons m ns =>
      rw [List.cons_append, runs, runs]
      split_ifs with ht
      · exact Or.inr ⟨_, rfl, rfl⟩
      · cases h : runsFrom line m ns with
        | ok rs => exact Or.inl ⟨rs, rfl, joins_runsFrom h⟩
        | error f => exact Or.inr ⟨f, rfl, runsFrom_append_error h [n]⟩

/-! ## All notes -/

/-- The notes have been joined into these. -/
structure Joined (ns rs : List Note) : Prop where
  tiesHold : TiesHold ns
  cut : ∃ cut, CutInRuns ns cut ∧ List.Forall₂ StandsFor cut rs
  restsApart : RestsApart rs

namespace Joined

variable {rs' : List Note} {f : Fault}

/-- One note more is joined. -/
theorem step (h : Joined ns rs) (hj : Joins line rs n (.ok rs')) : Joined (ns ++ [n]) rs' := by
  obtain ⟨cut, hcut, hall⟩ := h.cut
  cases hj with
  | @lengthens rs r _ longer hc hl =>
      obtain ⟨init, run, rfl, hinit, hr⟩ := exists_concat_of_forall₂ hall
      have hrun : IsRun run := hcut.isRun run (by simp)
      have hlong : IsRun (run ++ [n]) := (hrun.concat_iff hr.mark).mpr hc
      have hrest : longer.isRest = r.isRest := isRest_eq_of_mark_eq (mark_of_extend hl)
      refine ⟨hcut.tiesHold_concat h.tiesHold hlong, ⟨_, hcut.lengthen hlong, ?_⟩, ?_⟩
      · exact List.rel_append hinit (.cons (hr.extend hrun hl) .nil)
      · obtain ⟨hinit, hlast⟩ := isChain_concat.mp h.restsApart
        exact isChain_concat.mpr ⟨hinit, by rwa [hrest]⟩
  | begins _ hn hc =>
      refine ⟨?_, ⟨_, hcut.begin_run hn (hcut.not_isRun_concat hall hc), ?_⟩, ?_⟩
      · refine Note.tiesHold_concat.mpr ⟨h.tiesHold, fun ht => ?_⟩
        rw [hn] at ht
        cases ht
      · exact List.rel_append hall (.cons (standsFor_singleton n) .nil)
      · refine isChain_concat.mpr ⟨h.restsApart, fun r hlast hr => ?_⟩
        have hnot := hc r hlast
        rwa [continues, hr] at hnot

/-- One note more cannot be joined: it is a tie that does not hold, or its run becomes overlong. -/
theorem fault (h : Joined ns rs) (hj : Joins line rs n (.error f)) :
    (¬ TiesHold (ns ++ [n]) ∧ f = .misplaced line n.column ['-'] .tieWithoutNote) ∨
      (TiesHold (ns ++ [n]) ∧ f = n.fault line .ticksOverflow ∧
        ∃ cut, CutInRuns (ns ++ [n]) cut ∧ ∃ run ∈ cut, 2 ^ 32 ≤ total run) := by
  obtain ⟨cut, hcut, hall⟩ := h.cut
  cases hj with
  | @overlong rs r _ hc hadd =>
      obtain ⟨init, run, rfl, -, hr⟩ := exists_concat_of_forall₂ hall
      have hrun : IsRun run := hcut.isRun run (by simp)
      have hlong : IsRun (run ++ [n]) := (hrun.concat_iff hr.mark).mpr hc
      refine Or.inr ⟨hcut.tiesHold_concat h.tiesHold hlong, rfl, _, hcut.lengthen hlong,
        run ++ [n], by simp, ?_⟩
      rw [total_append, total_cons, total_nil, ← hr.length]
      exact Ticks.add?_eq_none.mp hadd
  | nothing _ hn hc =>
      refine Or.inl ⟨fun ht => ?_, rfl⟩
      obtain ⟨run, hlast, hlong⟩ := hcut.exists_run_of_isTie ht hn
      exact hcut.not_isRun_concat hall hc run hlast hlong

end Joined

/-- **A run of the joining**: what holds of no notes and is kept with every note holds of all. -/
theorem joined_of_runs (h : runs line ns = .ok rs) : Joined ns rs := by
  induction ns using List.reverseRecOn generalizing rs with
  | nil =>
      cases h
      exact ⟨⟨by simp, .nil⟩, ⟨[], .nil, .nil⟩, .nil⟩
  | append_singleton ns n ih =>
      rcases joins_runs line ns n with ⟨before, hbefore, hj⟩ | ⟨f, -, hf⟩
      · rw [h] at hj
        exact (ih hbefore).step hj
      · rw [hf] at h
        cases h

/-- Notes that have been joined are joinable. -/
theorem Joined.joinable (h : Joined ns rs) : Joinable ns := by
  obtain ⟨cut, hcut, hall⟩ := h.cut
  have hlt : ∀ run ∈ cut, total run < 2 ^ 32 := by
    refine ((List.forall₂_and_left cut rs).mp (hall.imp fun run r hr => ⟨?_, hr⟩)).1
    rw [← hr.length]
    exact UInt32.toNat_lt _
  refine ⟨h.tiesHold, fun cut' hcut' => ?_⟩
  rwa [hcut'.unique hcut]

/-- Joining stops at the first note with which the notes are not joinable. -/
theorem exists_fault_of_runs {f : Fault} (h : runs line ns = .error f) :
    ∃ front n back, ns = front ++ n :: back ∧ Joinable front ∧ ¬ Joinable (front ++ [n]) ∧
      (¬ TiesHold (front ++ [n]) ∧ f = .misplaced line n.column ['-'] .tieWithoutNote ∨
        TiesHold (front ++ [n]) ∧ f = n.fault line .ticksOverflow) := by
  -- a fault of the notes in front stays, so the first one comes with a note behind joined ones
  induction ns using List.reverseRecOn with
  | nil => cases h
  | append_singleton ns n ih =>
      rcases joins_runs line ns n with ⟨rs, hrs, hj⟩ | ⟨g, hg, hf⟩
      · rw [h] at hj
        refine ⟨ns, n, [], rfl, (joined_of_runs hrs).joinable, ?_⟩
        rcases (joined_of_runs hrs).fault hj with
          ⟨hties, hf⟩ | ⟨hties, hf, cut, hcut, run, hrun, hle⟩
        · exact ⟨fun hjoin => hties hjoin.1, Or.inl ⟨hties, hf⟩⟩
        · refine ⟨fun hjoin => ?_, Or.inr ⟨hties, hf⟩⟩
          exact Nat.not_lt.mpr hle (hjoin.2 cut hcut run hrun)
      · obtain ⟨front, m, back, rfl, hfault⟩ := ih (by rw [hg, ← hf, h])
        exact ⟨front, m, back ++ [n], by simp, hfault⟩

theorem runsFrom_eq_self (h : RestsApart (n :: ns)) (hties : ∀ m ∈ ns, m.isTie = false) :
    runsFrom line n ns = .ok (n :: ns) := by
  induction ns generalizing n with
  | nil => rfl
  | cons m ns ih =>
      obtain ⟨hnm, hrest⟩ := List.isChain_cons_cons.mp h
      have htie : m.isTie = false := hties m List.mem_cons_self
      have hc : m.continues n = false := by
        unfold continues
        split
        · rename_i hn
          exact hnm hn
        · exact htie
      rw [runsFrom, hc, htie, ih hrest fun x hx => hties x (List.mem_cons_of_mem _ hx)]
      rfl

/-- Where no note goes on with another, there is nothing to join. -/
theorem runs_eq_self (h : RestsApart rs) (hties : ∀ r ∈ rs, r.isTie = false) :
    runs line rs = .ok rs := by
  cases rs with
  | nil => rfl
  | cons r rs =>
      rw [runs, hties r List.mem_cons_self]
      exact runsFrom_eq_self h fun m hm => hties m (List.mem_cons_of_mem _ hm)

/-- **Joining is exact.** Notes whose ties hold are cut into runs in one way. They are joined if
the ties hold and the runs can be counted, and then into one note for every run; these have no tie
and no rest after a rest, and joining them again changes nothing. Otherwise the first note with
which the notes up to it cannot be joined is at fault. -/
theorem joining_exact (line : Nat) (ns : List Note) :
    (TiesHold ns → ∃! cut, CutInRuns ns cut) ∧
    ((∃ rs, runs line ns = .ok rs) ↔ Joinable ns) ∧
    (∀ rs, runs line ns = .ok rs →
      (∃ cut, CutInRuns ns cut ∧ List.Forall₂ StandsFor cut rs) ∧
      (∀ r ∈ rs, r.isTie = false) ∧ RestsApart rs ∧ ∀ line', runs line' rs = .ok rs) ∧
    (∀ f, runs line ns = .error f → ∃ front n back, ns = front ++ n :: back ∧
      (∀ before, before <+: front → Joinable before) ∧ ¬ Joinable (front ++ [n]) ∧
      (¬ TiesHold (front ++ [n]) ∧ f = .misplaced line n.column ['-'] .tieWithoutNote ∨
        TiesHold (front ++ [n]) ∧ f = n.fault line .ticksOverflow)) := by
  refine ⟨fun h => ?_, ⟨?_, fun h => ?_⟩, fun rs h => ?_, fun f h => ?_⟩
  · obtain ⟨cut, hcut⟩ := exists_cutInRuns h
    exact ⟨cut, hcut, fun cut' hcut' => hcut'.unique hcut⟩
  · rintro ⟨rs, h⟩
    exact (joined_of_runs h).joinable
  · cases hruns : runs line ns with
    | ok rs => exact ⟨rs, rfl⟩
    | error f =>
        obtain ⟨front, n, back, rfl, -, hnot, -⟩ := exists_fault_of_runs hruns
        rw [List.append_cons] at h
        exact absurd h.of_append hnot
  · have hjoined := joined_of_runs h
    have hties := not_isTie_of_mem_runs h
    exact ⟨hjoined.cut, hties, hjoined.restsApart, fun _ => runs_eq_self hjoined.restsApart hties⟩
  · obtain ⟨front, n, back, hns, hfront, hfault⟩ := exists_fault_of_runs h
    refine ⟨front, n, back, hns, ?_, hfault⟩
    rintro before ⟨after, rfl⟩
    exact hfront.of_append

/-- A held pitch and a rest of two parts, and a tie after a rest. -/
theorem joining_exact_held_pitch :
    (∃ cut, CutInRuns [⟨.pitched ⟨.c, .natural⟩ 4, 220, 1⟩, ⟨.tie, 110, 2⟩, ⟨.rest, 100, 3⟩,
        ⟨.rest, 20, 4⟩] cut ∧
      List.Forall₂ StandsFor cut [⟨.pitched ⟨.c, .natural⟩ 4, 330, 1⟩, ⟨.rest, 120, 3⟩]) ∧
    ∃ front n back, [⟨.rest, 100, 1⟩, ⟨.tie, 20, 2⟩, ⟨.tie, 20, 3⟩] = front ++ n :: back ∧
      Joinable front ∧ ¬ Joinable (front ++ [n]) ∧ n.column = 2 := by
  refine ⟨((joining_exact 1 _).2.2.1 _ (by decide)).1, ?_⟩
  obtain ⟨front, n, back, hns, hfront, hnot, hfault⟩ := (joining_exact 1
    [⟨.rest, 100, 1⟩, ⟨.tie, 20, 2⟩, ⟨.tie, 20, 3⟩]).2.2.2 (.misplaced 1 2 ['-'] .tieWithoutNote)
      (by decide)
  refine ⟨front, n, back, hns, hfront front (List.prefix_refl front), hnot, ?_⟩
  rcases hfault with ⟨-, hf⟩ | ⟨-, hf⟩ <;> injection hf with _ hcolumn <;> exact hcolumn.symm

end Note

end SungScore
