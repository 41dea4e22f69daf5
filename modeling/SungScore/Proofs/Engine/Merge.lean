import SungScore.Proofs.Engine.Cue
import SungScore.Proofs.Lyrics
import SungScore.Proofs.Melody.Voice
import Mathlib.Data.List.TakeWhile

set_option autoImplicit false

/-!
# Merging in the order of columns

The engine takes the notes of a line one by one and feeds before each the syllables that it has
reached. Where both lines ascend, this is the same as sorting all events by their columns
(`interleave_eq_ordered`), with the syllables beyond the last note left out. `merge_eq_ordered` is
the account of a whole call, with the engine that it leaves and its fault.

Since columns are only compared, lines that are moved to the right are interleaved as before, and
behind other lines they are interleaved after them (`interleave_moved`, `interleave_append`).
-/

namespace SungScore

namespace Event

/-- The column where an event is written. -/
def column : Event → Nat
  | syllable s => s.column
  | note n => n.column

/-- Whether the event is a syllable. -/
def isSyllable (x : Event) : Bool := x.syllable?.isSome

/-- The order of events: by columns, and a syllable before a note in the same one. -/
def precedes (x y : Event) : Bool :=
  decide (x.column < y.column ∨ x.column = y.column ∧ (y.isSyllable = true → x.isSyllable = true))

/-- Whether a syllable begins no later than the last note. -/
def reached (melody : List Note) (s : Syllable) : Bool :=
  melody.getLast?.any (fun n => decide (s.column ≤ n.column))

/-- The events of two lines sorted, without the syllables beyond the last note. -/
def ordered (lyrics : List Syllable) (melody : List Note) : List Event :=
  ((lyrics.filter (reached melody)).map syllable ++ melody.map note).mergeSort precedes

/-! ## The order -/

theorem precedes_iff {x y : Event} :
    precedes x y = true ↔
      x.column < y.column ∨ x.column = y.column ∧ (y.isSyllable = true → x.isSyllable = true) := by
  rw [precedes, decide_eq_true_eq]

theorem precedes_of_lt {x y : Event} (h : x.column < y.column) : precedes x y = true :=
  precedes_iff.mpr (Or.inl h)

theorem precedes_trans (x y z : Event) (hxy : precedes x y = true) (hyz : precedes y z = true) :
    precedes x z = true := by
  rw [precedes_iff] at *
  rcases hxy with hxy | ⟨hxy, hx⟩
  · exact Or.inl (by omega)
  · rcases hyz with hyz | ⟨hyz, hy⟩
    · exact Or.inl (by omega)
    · exact Or.inr ⟨hxy.trans hyz, fun hz => hx (hy hz)⟩

theorem precedes_total (x y : Event) : (precedes x y || precedes y x) = true := by
  rw [Bool.or_eq_true, precedes_iff, precedes_iff]
  rcases Nat.lt_trichotomy x.column y.column with h | h | h
  · exact Or.inl (Or.inl h)
  · -- in one column the syllable comes first
    by_cases hx : x.isSyllable = true
    · exact Or.inl (Or.inr ⟨h, fun _ => hx⟩)
    · exact Or.inr (Or.inr ⟨h.symm, fun hc => absurd hc hx⟩)
  · exact Or.inr (Or.inl h)

/-! ## The interleaving is sorted -/

variable {lyrics : List Syllable} {melody : List Note}

theorem leftOver_suffix (lyrics : List Syllable) (melody : List Note) :
    leftOver lyrics melody <:+ lyrics :=
  ⟨_, syllables_interleave lyrics melody⟩

theorem mem_interleave {x : Event} (h : x ∈ interleave lyrics melody) :
    (∃ s ∈ lyrics, x = .syllable s) ∨ ∃ n ∈ melody, x = .note n := by
  induction melody generalizing lyrics with
  | nil => cases h
  | cons n ns ih =>
      rw [interleave, List.mem_append, List.mem_cons, List.mem_map] at h
      rcases h with ⟨s, hs, rfl⟩ | rfl | h
      · exact Or.inl ⟨s, (List.takeWhile_sublist _).subset hs, rfl⟩
      · exact Or.inr ⟨n, by simp, rfl⟩
      · rcases ih h with ⟨s, hs, rfl⟩ | ⟨m, hm, rfl⟩
        · exact Or.inl ⟨s, (List.dropWhile_sublist _).subset hs, rfl⟩
        · exact Or.inr ⟨m, List.mem_cons_of_mem _ hm, rfl⟩

/-- In an ascending line, what comes after the syllables up to a column is beyond it. -/
theorem lt_of_mem_dropWhile {column : Nat} (h : Ascending (lyrics.map (·.column))) :
    ∀ s ∈ lyrics.dropWhile (fun s => decide (s.column ≤ column)), column < s.column := by
  induction lyrics with
  | nil => simp
  | cons t ts ih =>
      rw [List.map_cons, Ascending, List.pairwise_cons, List.forall_mem_map] at h
      by_cases ht : t.column ≤ column
      · rw [List.dropWhile_cons_of_pos (by simpa using ht)]
        exact ih h.2
      · rw [List.dropWhile_cons_of_neg (by simpa using ht)]
        intro s hs
        rcases List.mem_cons.mp hs with rfl | hs
        · omega
        · have hlt := h.1 s hs
          omega

theorem ascending_dropWhile {p : Syllable → Bool} (h : Ascending (lyrics.map (·.column))) :
    Ascending ((lyrics.dropWhile p).map (·.column)) :=
  List.Pairwise.sublist ((List.dropWhile_sublist p).map _) h

theorem sorted_interleave (hlyrics : Ascending (lyrics.map (·.column)))
    (hmelody : Ascending (melody.map (·.column))) :
    (interleave lyrics melody).Pairwise (fun x y => precedes x y = true) := by
  induction melody generalizing lyrics with
  | nil => exact List.Pairwise.nil
  | cons n ns ih =>
      rw [List.map_cons, Ascending, List.pairwise_cons, List.forall_mem_map] at hmelody
      have hlater : ∀ s ∈ lyrics.dropWhile (fun s => decide (s.column ≤ n.column)),
          n.column < s.column := lt_of_mem_dropWhile hlyrics
      have hupto : ∀ s ∈ lyrics.takeWhile (fun s => decide (s.column ≤ n.column)),
          s.column ≤ n.column := fun s hs => by simpa using List.mem_takeWhile_imp hs
      -- all that comes after the note is beyond its column
      have hbeyond : ∀ x ∈ interleave (lyrics.dropWhile (fun s => decide (s.column ≤ n.column))) ns,
          n.column < x.column := by
        intro x hx
        rcases mem_interleave hx with ⟨s, hs, rfl⟩ | ⟨m, hm, rfl⟩
        · exact hlater s hs
        · exact hmelody.1 m hm
      rw [interleave, List.pairwise_append, List.pairwise_cons, List.pairwise_map]
      refine ⟨?_, ⟨fun x hx => precedes_of_lt (hbeyond x hx),
        ih (ascending_dropWhile hlyrics) hmelody.2⟩, ?_⟩
      · have hfirst : Ascending
            ((lyrics.takeWhile (fun s => decide (s.column ≤ n.column))).map (·.column)) :=
          List.Pairwise.sublist ((List.takeWhile_sublist _).map _) hlyrics
        exact (List.pairwise_map.mp hfirst).imp (fun h => precedes_of_lt h)
      · intro x hx y hy
        obtain ⟨s, hs, rfl⟩ := List.mem_map.mp hx
        have hle := hupto s hs
        rcases List.mem_cons.mp hy with rfl | hy
        · rw [precedes_iff]
          rcases Nat.lt_or_eq_of_le hle with hlt | heq
          · exact Or.inl hlt
          · exact Or.inr ⟨heq, fun _ => rfl⟩
        · exact precedes_of_lt (Nat.lt_of_le_of_lt hle (hbeyond y hy))

/-! ## The interleaving has the right events -/

/-- No note comes after the last one. -/
theorem column_le_last {n last : Note} (h : Ascending (melody.map (·.column))) (hn : n ∈ melody)
    (hlast : melody.getLast? = some last) : n.column ≤ last.column := by
  obtain ⟨init, rfl⟩ : ∃ init, melody = init ++ [last] :=
    ⟨melody.dropLast, (List.dropLast_append_getLast? last hlast).symm⟩
  rcases List.mem_append.mp hn with hn | hn
  · rw [List.map_append, Ascending, List.pairwise_append] at h
    exact Nat.le_of_lt (h.2.2 n.column (List.mem_map_of_mem hn) last.column (by simp))
  · rw [List.mem_singleton.mp hn]

theorem reached_iff {s : Syllable} :
    reached melody s = true ↔ ∃ n, melody.getLast? = some n ∧ s.column ≤ n.column := by
  simp [reached, Option.any_eq_true]

theorem getLast?_cons_of_getLast? {n last : Note} (h : melody.getLast? = some last) :
    (n :: melody).getLast? = some last := by
  rw [List.getLast?_cons, h]
  rfl

/-- All syllables of the interleaving are reached. -/
theorem reached_of_mem_interleave {s : Syllable} (h : Ascending (melody.map (·.column)))
    (hs : .syllable s ∈ interleave lyrics melody) : reached melody s = true := by
  induction melody generalizing lyrics with
  | nil => cases hs
  | cons n ns ih =>
      rw [interleave, List.mem_append, List.mem_map, List.mem_cons] at hs
      rw [reached_iff]
      rcases hs with ⟨t, ht, heq⟩ | heq | hs
      · -- the first note reaches it, and the last one comes no earlier
        obtain rfl : t = s := by simpa using heq
        have hle : t.column ≤ n.column := by simpa using List.mem_takeWhile_imp ht
        obtain ⟨last, hlast⟩ : ∃ last, (n :: ns).getLast? = some last :=
          ⟨_, List.getLast?_eq_some_getLast (by simp)⟩
        have hn := column_le_last h (n := n) (by simp) hlast
        exact ⟨last, hlast, by omega⟩
      · cases heq
      · obtain ⟨last, hlast, hle⟩ := reached_iff.mp (ih (List.pairwise_cons.mp h).2 hs)
        exact ⟨last, getLast?_cons_of_getLast? hlast, hle⟩

/-- No syllable that is left out is reached. -/
theorem not_reached_of_mem_leftOver {s : Syllable} (h : Ascending (lyrics.map (·.column)))
    (hs : s ∈ leftOver lyrics melody) : reached melody s = false := by
  induction melody generalizing lyrics with
  | nil => rfl
  | cons n ns ih =>
      have hnot := ih (ascending_dropWhile h) hs
      have hmem := (leftOver_suffix _ ns).subset hs
      rw [Bool.eq_false_iff, Ne, reached_iff] at hnot ⊢
      rintro ⟨last, hlast, hle⟩
      cases hns : ns.getLast? with
      | none =>
          obtain rfl : ns = [] := List.getLast?_eq_none_iff.mp hns
          obtain rfl : n = last := by simpa using hlast
          have hlt := lt_of_mem_dropWhile h s hmem
          omega
      | some m =>
          obtain rfl : m = last := by simpa [getLast?_cons_of_getLast? hns] using hlast
          exact hnot ⟨m, hns, hle⟩

theorem syllable?_eq_some {x : Event} {s : Syllable} : x.syllable? = some s ↔ x = .syllable s := by
  cases x <;> simp [syllable?]

theorem reached_of_mem_syllables {s : Syllable} (h : Ascending (melody.map (·.column)))
    (hs : s ∈ (interleave lyrics melody).filterMap syllable?) : reached melody s = true := by
  obtain ⟨x, hx, hxs⟩ := List.mem_filterMap.mp hs
  rw [syllable?_eq_some.mp hxs] at hx
  exact reached_of_mem_interleave h hx

/-- The syllables of the interleaving are the ones that are reached, and the syllables that are left
out are the other ones. -/
theorem filter_reached (hlyrics : Ascending (lyrics.map (·.column)))
    (hmelody : Ascending (melody.map (·.column))) :
    (interleave lyrics melody).filterMap syllable? = lyrics.filter (reached melody)
      ∧ leftOver lyrics melody = lyrics.filter (fun s => !reached melody s) := by
  have hfed : ∀ s ∈ (interleave lyrics melody).filterMap syllable?, reached melody s = true :=
    fun s hs => reached_of_mem_syllables hmelody hs
  have hleft : ∀ s ∈ leftOver lyrics melody, reached melody s = false :=
    fun s hs => not_reached_of_mem_leftOver hlyrics hs
  -- the line is the ones in front and the ones behind
  have hsplit := syllables_interleave lyrics melody
  generalize (interleave lyrics melody).filterMap syllable? = fed at *
  generalize leftOver lyrics melody = left at *
  subst hsplit
  rw [List.filter_append, List.filter_append, List.filter_eq_self.mpr hfed,
    List.filter_eq_nil_iff.mpr (fun s hs => by simp [hleft s hs]),
    List.filter_eq_nil_iff.mpr (fun s hs => by simp [hfed s hs]),
    List.filter_eq_self.mpr (fun s hs => by simp [hleft s hs]), List.append_nil, List.nil_append]
  exact ⟨rfl, rfl⟩

/-- Events are syllables and notes. -/
theorem perm_syllables_notes (xs : List Event) :
    xs.Perm ((xs.filterMap syllable?).map syllable ++ (xs.filterMap note?).map note) := by
  induction xs with
  | nil => exact List.Perm.nil
  | cons x xs ih =>
      cases x with
      | syllable s => exact ih.cons (.syllable s)
      | note n => exact (ih.cons (.note n)).trans List.perm_middle.symm

/-- Two events of ascending lines that precede each other are the same. -/
theorem eq_of_precedes (hlyrics : Ascending (lyrics.map (·.column)))
    (hmelody : Ascending (melody.map (·.column))) {x y : Event}
    (hx : (∃ s ∈ lyrics, x = .syllable s) ∨ ∃ n ∈ melody, x = .note n)
    (hy : (∃ s ∈ lyrics, y = .syllable s) ∨ ∃ n ∈ melody, y = .note n)
    (hxy : precedes x y = true) (hyx : precedes y x = true) : x = y := by
  rw [precedes_iff] at hxy hyx
  have hcolumn : x.column = y.column := by omega
  have hkind : x.isSyllable = true ↔ y.isSyllable = true := by
    constructor
    · intro h
      rcases hyx with hlt | ⟨-, himp⟩
      · omega
      · exact himp h
    · intro h
      rcases hxy with hlt | ⟨-, himp⟩
      · omega
      · exact himp h
  rcases hx with ⟨s, hs, rfl⟩ | ⟨n, hn, rfl⟩
  · rcases hy with ⟨t, ht, rfl⟩ | ⟨m, hm, rfl⟩
    · rw [eq_of_column_eq hlyrics hs ht hcolumn]
    · cases hkind.mp rfl
  · rcases hy with ⟨t, ht, rfl⟩ | ⟨m, hm, rfl⟩
    · cases hkind.mpr rfl
    · rw [eq_of_column_eq hmelody hn hm hcolumn]

/-- **The interleaving of ascending lines is their events in order.** -/
theorem interleave_eq_ordered (hlyrics : Ascending (lyrics.map (·.column)))
    (hmelody : Ascending (melody.map (·.column))) :
    interleave lyrics melody = ordered lyrics melody := by
  have hperm : (interleave lyrics melody).Perm (ordered lyrics melody) := by
    have hsplit := perm_syllables_notes (interleave lyrics melody)
    rw [(filter_reached hlyrics hmelody).1, notes_interleave] at hsplit
    exact hsplit.trans (List.mergeSort_perm _ _).symm
  have hordered : (ordered lyrics melody).Pairwise (fun x y => precedes x y = true) :=
    List.pairwise_mergeSort precedes_trans precedes_total _
  refine List.Perm.eq_of_pairwise ?_ (sorted_interleave hlyrics hmelody) hordered hperm
  intro x y hx hy
  exact eq_of_precedes hlyrics hmelody (mem_interleave hx)
    (mem_interleave (hperm.mem_iff.mpr hy))

/-! ## Other places -/

/-- The event at another place. -/
def moved (f g : Nat → Nat) : Event → Event
  | syllable s => .syllable (s.moved f g)
  | note n => .note (n.moved g)

/-- Columns that keep their order keep the order of the events. -/
theorem interleave_moved (f : Nat → Nat) {g : Nat → Nat} (hg : ∀ a b, g a ≤ g b ↔ a ≤ b)
    (lyrics : List Syllable) (melody : List Note) :
    interleave (lyrics.map (.moved f g)) (melody.map (.moved g))
        = (interleave lyrics melody).map (.moved f g)
      ∧ leftOver (lyrics.map (.moved f g)) (melody.map (.moved g))
        = (leftOver lyrics melody).map (.moved f g) := by
  induction melody generalizing lyrics with
  | nil => exact ⟨rfl, rfl⟩
  | cons n ns ih =>
      have hupto : (fun s => decide (s.column ≤ (n.moved g).column)) ∘ Syllable.moved f g
          = fun s => decide (s.column ≤ n.column) :=
        funext (fun s => decide_eq_decide.mpr (hg s.column n.column))
      obtain ⟨hinterleave, hleft⟩ :=
        ih (lyrics.dropWhile (fun s => decide (s.column ≤ n.column)))
      rw [List.map_cons, interleave, leftOver, interleave, leftOver, List.takeWhile_map,
        List.dropWhile_map, hupto, hinterleave, hleft, List.map_append, List.map_cons, List.map_map,
        List.map_map]
      exact ⟨rfl, rfl⟩

/-- Lines behind other ones: where no syllable is left over before them, their events come behind
those of the other ones. -/
theorem interleave_append {w : Nat} {lyrics lyrics' : List Syllable} {melody : List Note}
    (melody' : List Note) (hleft : leftOver lyrics melody = [])
    (hmelody : ∀ n ∈ melody, n.column ≤ w) (hlyrics' : ∀ s ∈ lyrics', w < s.column) :
    interleave (lyrics ++ lyrics') (melody ++ melody')
        = interleave lyrics melody ++ interleave lyrics' melody'
      ∧ leftOver (lyrics ++ lyrics') (melody ++ melody') = leftOver lyrics' melody' := by
  induction melody generalizing lyrics with
  | nil =>
      obtain rfl : lyrics = [] := hleft
      exact ⟨rfl, rfl⟩
  | cons n ns ih =>
      obtain ⟨hn, hns⟩ := List.forall_mem_cons.mp hmelody
      have hstep := ih hleft hns
      rw [List.cons_append, interleave, interleave, leftOver]
      -- a note of the first line reaches none of the later syllables
      cases lyrics' with
      | nil =>
          rw [List.append_nil] at hstep ⊢
          rw [hstep.1, hstep.2, List.append_assoc, List.cons_append]
          exact ⟨rfl, rfl⟩
      | cons s ss =>
          have hs : decide (s.column ≤ n.column) = false := by
            have hlt := hlyrics' s (by simp)
            rw [decide_eq_false_iff_not]
            omega
          have htake := takeWhile_append_of_neg
            (p := fun s : Syllable => decide (s.column ≤ n.column)) hs lyrics ss
          have hdrop := dropWhile_append_of_neg
            (p := fun s : Syllable => decide (s.column ≤ n.column)) hs lyrics ss
          rw [htake, hdrop, hstep.1, hstep.2,
            List.append_assoc, List.cons_append]
          exact ⟨rfl, rfl⟩

end Event

namespace Engine

open Event

/-- **Merging in the order of columns.** For lines that ascend, merging leaves the engine and gives
the fault that feeding their events in order does, without the syllables beyond the last note. When
all of these are taken, it fails at the first syllable that was left out, if there is one, and this
is the first of all if there are no notes. What is fed is every note and every syllable that is
reached, each line in its own order. Lines that are read do ascend. -/
theorem merge_eq_ordered (σ : Settings) (line : Nat) (lyrics : List Syllable) (melody : List Note)
    (e : Engine) (hlyrics : Ascending (lyrics.map (·.column)))
    (hmelody : Ascending (melody.map (·.column))) :
    merge σ line lyrics melody e
        = (match feedAll (cuesAt σ line (ordered lyrics melody)) e with
          | .error f e' => .error f e'
          | .ok _ e' =>
              match lyrics.filter (fun s => !reached melody s) with
              | [] => .ok () e'
              | s :: _ => .error (s.fault .noNote) e')
      ∧ (∀ s later, lyrics = s :: later → melody = [] →
          merge σ line lyrics melody e = .error (s.fault .noNote) e)
      ∧ (ordered lyrics melody).filterMap note? = melody
      ∧ (ordered lyrics melody).filterMap syllable? = lyrics.filter (reached melody)
      ∧ (lyrics.filter (fun s => !reached melody s) = [] →
          (ordered lyrics melody).filterMap syllable? = lyrics)
      ∧ (∀ n text ss, Lyrics.read n text = .ok ss → Ascending (ss.map (·.column)))
      ∧ (∀ unit n text octave octave' ns, Melody.read unit n text octave = .ok ns octave' →
          Ascending (ns.map (·.column))) := by
  obtain ⟨hfed, hleft⟩ := filter_reached hlyrics hmelody
  rw [← interleave_eq_ordered hlyrics hmelody, ← hleft]
  refine ⟨?_, ?_, notes_interleave lyrics melody, hfed, ?_, ?_, ?_⟩
  · rw [merge_eq]
    show EStateM.bind _ _ e = _
    unfold EStateM.bind
    cases feedAll (cuesAt σ line (interleave lyrics melody)) e with
    | error f e' => rfl
    | ok u e' => cases leftOver lyrics melody <;> rfl
  · rintro s later rfl rfl
    rfl
  · intro hnone
    have hsplit := syllables_interleave lyrics melody
    rw [hnone, List.append_nil] at hsplit
    exact hsplit
  · exact fun n text ss h => Lyrics.ascending_read h
  · exact fun unit n text octave octave' ns h => Melody.ascending_read h

/-- Two syllables before one note, the second in the same column, and one beyond the last note. -/
theorem merge_eq_ordered_a_ka_ta :
    let lyrics : List Syllable :=
      [⟨[], [], ['a'], [], 1, 1⟩, ⟨['k'], [], ['a'], [], 1, 3⟩, ⟨['t'], [], ['a'], [], 1, 6⟩]
    let melody : List Note :=
      [⟨.pitched ⟨.c, .natural⟩ 4, 220, 1⟩, ⟨.pitched ⟨.d, .natural⟩ 4, 220, 3⟩, ⟨.rest, 220, 5⟩]
    Ascending (lyrics.map (·.column)) ∧ Ascending (melody.map (·.column)) ∧
      merge {} 2 lyrics melody {}
        = (match feedAll (cuesAt {} 2 (ordered lyrics melody)) {} with
          | .error f e' => .error f e'
          | .ok _ e' => .error (Syllable.fault ⟨['t'], [], ['a'], [], 1, 6⟩ .noNote) e') ∧
      (ordered lyrics melody).filterMap syllable? = lyrics.take 2 := by
  intro lyrics melody
  have hlyrics : Ascending (lyrics.map (·.column)) := by decide
  have hmelody : Ascending (melody.map (·.column)) := by decide
  obtain ⟨hmerge, -, -, hsyllables, -⟩ := merge_eq_ordered {} 2 lyrics melody {} hlyrics hmelody
  exact ⟨hlyrics, hmelody, hmerge, hsyllables⟩

end Engine

end SungScore
