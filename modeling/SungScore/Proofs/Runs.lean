import SungScore.Phrase
import SungScore.Proofs.Ticks

set_option autoImplicit false

/-!
# Runs keep what they join

Joining notes into runs changes neither the time that they take together (`total_runs`) nor the
pitches that are sung (`pitches_runs`), and leaves no tie (`not_isTie_of_mem_runs`). Where no
sound follows a rest, no run but the last one is a rest (`isRest_of_mem_dropLast_runs`). It fails
at a note that is too much for its run or is a tie of nothing (`runs_error`).
-/

namespace SungScore

namespace Note

/-- Whether the note has a pitch of its own. -/
def isPitched (n : Note) : Bool := !n.isRest && !n.isTie

/-- A pitched note has a key. -/
theorem key?_of_isPitched {n : Note} (σ : Settings) (h : n.isPitched = true) :
    ∃ key, n.key? σ = some key := by
  obtain ⟨kind, length, column⟩ := n
  cases kind with
  | pitched p octave => exact ⟨_, rfl⟩
  | tie => cases h
  | rest => cases h

/-- What a run keeps of its first note: the kind and the column. -/
def mark (n : Note) : NoteKind × Nat := (n.kind, n.column)

/-- No sound follows a rest. -/
def RestsLast (ns : List Note) : Prop :=
  ns.Pairwise (fun m n => m.isRest = true → n.isRest = true)

/-! ## One note more -/

/-- A note may come after a list that ends in a rest if it is a rest itself. -/
theorem RestsLast.concat {ns : List Note} {n : Note} (h : RestsLast ns)
    (hn : ∀ last, ns.getLast? = some last → last.isRest = true → n.isRest = true) :
    RestsLast (ns ++ [n]) := by
  refine List.pairwise_append.mpr ⟨h, by simp, fun m hm x hx hr => ?_⟩
  rw [List.mem_singleton.mp hx]
  rcases List.eq_nil_or_concat ns with rfl | ⟨init, last, rfl⟩
  · cases hm
  · rw [List.concat_eq_append] at h hm hn
    apply hn last (by simp)
    -- a rest before the last note makes the last note a rest
    rcases List.mem_append.mp hm with hm | hm
    · exact (List.pairwise_append.mp h).2.2 m hm last (by simp) hr
    · rw [← List.mem_singleton.mp hm]
      exact hr

theorem isRest_eq_of_mark_eq {m n : Note} (h : m.mark = n.mark) : m.isRest = n.isRest := by
  have hk : m.kind = n.kind := congrArg Prod.fst h
  simp [isRest, hk]

theorem isTie_eq_of_mark_eq {m n : Note} (h : m.mark = n.mark) : m.isTie = n.isTie := by
  have hk : m.kind = n.kind := congrArg Prod.fst h
  simp [isTie, hk]

theorem key?_eq_of_mark_eq {m n : Note} (σ : Settings) (h : m.mark = n.mark) :
    m.key? σ = n.key? σ := by
  have hk : m.kind = n.kind := congrArg Prod.fst h
  simp [key?, hk]

theorem mark_of_extend {line : Nat} {run n longer : Note}
    (h : run.extend line n = .ok longer) : longer.mark = run.mark := by
  unfold extend at h
  split at h
  · cases h; rfl
  · cases h

theorem length_of_extend {line : Nat} {run n longer : Note}
    (h : run.extend line n = .ok longer) :
    longer.length.toNat = run.length.toNat + n.length.toNat := by
  unfold extend at h
  split at h
  · rename_i length hadd
    cases h
    exact Ticks.toNat_of_add? hadd
  · cases h

theorem extend_line {line line' : Nat} {run n longer : Note}
    (h : run.extend line n = .ok longer) : run.extend line' n = .ok longer := by
  unfold extend at h ⊢
  cases hadd : Ticks.add? run.length n.length with
  | none => rw [hadd] at h; cases h
  | some length => rw [hadd] at h; exact h

/-- What goes on with a run is not pitched. -/
theorem not_isPitched_of_continues {n run : Note} (h : n.continues run = true) :
    n.isPitched = false := by
  unfold continues at h
  split at h <;> simp [isPitched, h]

/-! ## The runs of a list -/

theorem total_runsFrom {line : Nat} {run : Note} {ns rs : List Note}
    (h : runsFrom line run ns = .ok rs) : total rs = run.length.toNat + total ns := by
  -- a note lengthens the run under way or begins the next one; both keep the sum
  fun_induction runsFrom line run ns generalizing rs with
  | case1 => cases h; simp
  | case2 run n ns hc longer hl ih =>
      rw [ih h, length_of_extend hl, total_cons]
      omega
  | case3 => cases h
  | case4 => cases h
  | case5 run n ns hc ht others ho ih =>
      cases h
      rw [total_cons, ih ho, total_cons]
  | case6 => cases h

theorem runsFrom_line {line line' : Nat} {run : Note} {ns rs : List Note}
    (h : runsFrom line run ns = .ok rs) : runsFrom line' run ns = .ok rs := by
  fun_induction runsFrom line run ns generalizing rs with
  | case1 => exact h
  | case2 run n ns hc longer hl ih =>
      rw [runsFrom, if_pos hc, extend_line hl]
      exact ih h
  | case3 => cases h
  | case4 => cases h
  | case5 run n ns hc ht others ho ih =>
      rw [runsFrom, if_neg hc, if_neg ht, ih ho]
      exact h
  | case6 => cases h

/-- The runs begin with the one under way; the other ones begin with no tie. -/
theorem isTie_of_mem_runsFrom {line : Nat} {run : Note} {ns rs : List Note}
    (h : runsFrom line run ns = .ok rs) (hrun : run.isTie = false) :
    ∀ r ∈ rs, r.isTie = false := by
  fun_induction runsFrom line run ns generalizing rs with
  | case1 => cases h; simpa using hrun
  | case2 run n ns hc longer hl ih =>
      exact ih h (by rw [isTie_eq_of_mark_eq (mark_of_extend hl)]; exact hrun)
  | case3 => cases h
  | case4 => cases h
  | case5 run n ns hc ht others ho ih =>
      cases h
      have hn : n.isTie = false := by simpa using ht
      intro r hr
      rcases List.mem_cons.mp hr with rfl | hr
      · exact hrun
      · exact ih ho hn r hr
  | case6 => cases h

theorem marks_runsFrom {line : Nat} {run : Note} {ns rs : List Note}
    (h : runsFrom line run ns = .ok rs) (hrun : run.isTie = false) :
    (rs.filter isPitched).map mark = ((run :: ns).filter isPitched).map mark := by
  fun_induction runsFrom line run ns generalizing rs with
  | case1 => cases h; rfl
  | case2 run n ns hc longer hl ih =>
      -- the longer run stands for the same pitch, and what it took in has none
      have hm : longer.mark = run.mark := mark_of_extend hl
      have hp : longer.isPitched = run.isPitched := by
        simp [isPitched, isRest_eq_of_mark_eq hm, isTie_eq_of_mark_eq hm]
      rw [ih h (by rw [isTie_eq_of_mark_eq hm]; exact hrun)]
      simp only [List.filter_cons, hp, not_isPitched_of_continues hc]
      split <;> simp [hm]
  | case3 => cases h
  | case4 => cases h
  | case5 run n ns hc ht others ho ih =>
      cases h
      have hn : n.isTie = false := by simpa using ht
      rw [List.filter_cons, List.filter_cons (x := run)]
      split
      · rw [List.map_cons, List.map_cons, ih ho hn]
      · exact ih ho hn
  | case6 => cases h

theorem runsFrom_ne_nil {line : Nat} {run : Note} {ns rs : List Note}
    (h : runsFrom line run ns = .ok rs) : rs ≠ [] := by
  fun_induction runsFrom line run ns generalizing rs with
  | case1 => cases h; simp
  | case2 run n ns hc longer hl ih => exact ih h
  | case3 => cases h
  | case4 => cases h
  | case5 run n ns hc ht others ho ih => cases h; simp
  | case6 => cases h

/-- Where no sound follows a rest, only the last run can be a rest: a rest under way takes all
notes that come. -/
theorem isRest_of_mem_dropLast_runsFrom {line : Nat} {run : Note} {ns rs : List Note}
    (h : runsFrom line run ns = .ok rs) (hl : RestsLast (run :: ns)) :
    ∀ r ∈ rs.dropLast, r.isRest = false := by
  fun_induction runsFrom line run ns generalizing rs with
  | case1 => cases h; simp
  | case2 run n ns hc longer hlong ih =>
      have hm : longer.isRest = run.isRest := isRest_eq_of_mark_eq (mark_of_extend hlong)
      apply ih h
      have hp := List.pairwise_cons.mp hl
      refine List.pairwise_cons.mpr ⟨fun m hmem hr => ?_, (List.pairwise_cons.mp hp.2).2⟩
      exact hp.1 m (List.mem_cons_of_mem _ hmem) (by rw [← hm]; exact hr)
  | case3 => cases h
  | case4 => cases h
  | case5 run n ns hc ht others ho ih =>
      cases h
      have hp := List.pairwise_cons.mp hl
      -- if the run were a rest, `n` would be one too and would go on with it
      have hrun : run.isRest = false := by
        by_contra hcon
        have hr : run.isRest = true := by simpa using hcon
        have hn : n.isRest = true := hp.1 n (by simp) hr
        exact hc (by simp [continues, hr, hn])
      rw [List.dropLast_cons_of_ne_nil (runsFrom_ne_nil ho)]
      intro r hr
      rcases List.mem_cons.mp hr with rfl | hr
      · exact hrun
      · exact ih ho hp.2 r hr
  | case6 => cases h

theorem runsFrom_error {line : Nat} {run : Note} {ns : List Note} {f : Fault}
    (h : runsFrom line run ns = .error f) :
    ∃ n ∈ ns, f = n.fault line .ticksOverflow ∨
      n.isTie = true ∧ f = .misplaced line n.column ['-'] .tieWithoutNote := by
  fun_induction runsFrom line run ns with
  | case1 => cases h
  | case2 run n ns hc longer hl ih =>
      obtain ⟨m, hm, hf⟩ := ih h
      exact ⟨m, List.mem_cons_of_mem _ hm, hf⟩
  | case3 run n ns hc e he =>
      -- only the sum of the lengths can fail
      cases h
      refine ⟨n, by simp, Or.inl ?_⟩
      unfold extend at he
      split at he
      · cases he
      · cases he
        rfl
  | case4 run n ns hc ht =>
      cases h
      exact ⟨n, by simp, Or.inr ⟨ht, rfl⟩⟩
  | case5 => cases h
  | case6 run n ns hc ht e he ih =>
      cases h
      obtain ⟨m, hm, hf⟩ := ih he
      exact ⟨m, List.mem_cons_of_mem _ hm, hf⟩

/-! ## Main facts -/

variable {line : Nat} {ns rs : List Note}

/-- The cases of `runs`. -/
theorem runs_ok (h : runs line ns = .ok rs) :
    (ns = [] ∧ rs = []) ∨
      ∃ n tail, ns = n :: tail ∧ n.isTie = false ∧ runsFrom line n tail = .ok rs := by
  cases ns with
  | nil => cases h; exact Or.inl ⟨rfl, rfl⟩
  | cons n tail =>
      rw [runs] at h
      split at h
      · cases h
      · rename_i ht
        exact Or.inr ⟨n, tail, rfl, by simpa using ht, h⟩

/-- How joining can fail. -/
theorem runs_error {f : Fault} (h : runs line ns = .error f) :
    ∃ n ∈ ns, f = n.fault line .ticksOverflow ∨
      n.isTie = true ∧ f = .misplaced line n.column ['-'] .tieWithoutNote := by
  cases ns with
  | nil => cases h
  | cons n tail =>
      rw [runs] at h
      split at h
      · rename_i ht
        cases h
        exact ⟨n, by simp, Or.inr ⟨ht, rfl⟩⟩
      · obtain ⟨m, hm, hf⟩ := runsFrom_error h
        exact ⟨m, List.mem_cons_of_mem _ hm, hf⟩

/-- The line only names the place of a fault. -/
theorem runs_line {line' : Nat} (h : runs line ns = .ok rs) : runs line' ns = .ok rs := by
  rcases runs_ok h with ⟨rfl, rfl⟩ | ⟨n, tail, rfl, hn, hr⟩
  · rfl
  · rw [runs, if_neg (by simp [hn])]
    exact runsFrom_line hr

/-- The runs take the time of the notes. -/
theorem total_runs (h : runs line ns = .ok rs) : total rs = total ns := by
  rcases runs_ok h with ⟨rfl, rfl⟩ | ⟨n, tail, rfl, hn, hr⟩
  · rfl
  · rw [total_runsFrom hr, total_cons]

theorem not_isTie_of_mem_runs (h : runs line ns = .ok rs) : ∀ r ∈ rs, r.isTie = false := by
  rcases runs_ok h with ⟨rfl, rfl⟩ | ⟨n, tail, rfl, hn, hr⟩
  · simp
  · exact isTie_of_mem_runsFrom hr hn

/-- Every pitched note begins a run, and no other run sounds. -/
theorem pitches_runs (h : runs line ns = .ok rs) :
    (rs.filter (fun n => !n.isRest)).map mark = (ns.filter isPitched).map mark := by
  have hp : rs.filter (fun n => !n.isRest) = rs.filter isPitched := by
    apply List.filter_congr
    intro r hr
    simp [isPitched, not_isTie_of_mem_runs h r hr]
  rw [hp]
  rcases runs_ok h with ⟨rfl, rfl⟩ | ⟨n, tail, rfl, hn, hr⟩
  · rfl
  · exact marks_runsFrom hr hn

theorem isRest_of_mem_dropLast_runs (h : runs line ns = .ok rs) (hl : RestsLast ns) :
    ∀ r ∈ rs.dropLast, r.isRest = false := by
  rcases runs_ok h with ⟨rfl, rfl⟩ | ⟨n, tail, rfl, hn, hr⟩
  · simp
  · exact isRest_of_mem_dropLast_runsFrom hr hl

end Note

end SungScore
