import SungScore.Proofs.Engine.Blame
import SungScore.Proofs.Melody.Fault
import SungScore.Proofs.Score.Letters

set_option autoImplicit false

/-!
# Where a score reports a note at fault

A score that is refused because of a note reports the column of that note, but not always its line
(`fault_of_note_place`). The line is the one that is being read when the fault is found: the line of
the first cue that the engine does not take, or the last line if it takes all. This is at or below the
line of the note, and it is another line if the note's syllable goes on over several melody lines, or is
finished only later.
-/

namespace SungScore

variable {f : Fault}

/-! ## Faults that are not about notes -/

theorem Lyrics.not_aboutNote_of_read {line : Nat} {text : Text}
    (h : read line text = .error f) : f.aboutNote = false := by
  unfold read at h
  generalize text.words = ws at h
  induction ws with
  | nil => cases h
  | cons w ws ih =>
      unfold ofWords at h
      split at h
      · rename_i g hg
        cases h
        unfold Syllable.read at hg
        dsimp only at hg
        split at hg
        · cases hg
        · cases hg
          rfl
      · split at h
        · rename_i g hg
          cases h
          exact ih hg
        · cases h

/-- What a token is reported for has nothing to do with the note that it stands for. -/
theorem Lexeme.Wrong.not_aboutNote {unit : Ticks} {octave octave' : Int} {xs : List Lexeme}
    {x : Lexeme} {cause : Option Misplacement} (h : Wrong unit octave xs x cause octave')
    (line column : Nat) (quote : Text) :
    (Fault.ofToken line column quote cause).aboutNote = false := by
  cases h with
  | unclosed => rfl
  | offends _ _ hx =>
      generalize x.token = token at hx
      cases hx <;> rfl

theorem Melody.not_aboutNote_of_read {unit : Ticks} {line : Nat} {text : Text}
    {octave octave' : Int} (h : read unit line text octave = .error f octave') :
    f.aboutNote = false := by
  obtain ⟨x, cause, hwrong, rfl⟩ := read_error_iff.mp h
  exact hwrong.not_aboutNote line x.column x.quote

/-! ## Scores -/

namespace Score

open Engine

variable {l : Text} {ls : List Text} {s s' : Score} {u : Unit}

/-- A line that is refused because of a note is refused by the engine. -/
theorem Refuses.feedAll (h : Refuses l s f s') (hnote : f.aboutNote = true) :
    Engine.feedAll (lineCues l s) s.engine = .error f s'.engine := by
  unfold lineCues
  cases h with
  | pragma => cases hnote
  | lyrics _ _ hread =>
      rw [Lyrics.not_aboutNote_of_read hread] at hnote
      cases hnote
  | melody _ _ hread =>
      rw [Melody.not_aboutNote_of_read hread] at hnote
      cases hnote
  | merge hkind hpending hread hmerge =>
      simp only [hkind, hpending, hread]
      rw [merge_eq] at hmerge
      rcases bind_error.mp hmerge with hfed | ⟨u, e₁, -, hrefuse⟩
      · exact hfed
      · -- the syllables that are left over are at fault, not a note
        obtain ⟨-, x, later, -, rfl⟩ := refuse_error hrefuse
        cases hnote

/-- Lines that are refused because of a note are refused by the engine. -/
theorem feedLines_error (h : feedLines ls s = .error f s') (hnote : f.aboutNote = true) :
    feedAll (heard ls s) s.engine = .error f s'.engine := by
  induction ls generalizing s with
  | nil => cases h
  | cons l ls ih =>
      rcases bind_error.mp h with hline | ⟨u, s₁, hline, hlater⟩
      · have hrefuses := feedLine_error_iff.mp hline
        rw [heard_cons_refuses hrefuses]
        exact hrefuses.feedAll hnote
      · have hreads := feedLine_iff.mp hline
        rw [heard_cons_reads hreads, feedAll_append]
        exact bind_error.mpr (Or.inr ⟨(), s₁.engine, hreads.feedAll, ih hlater⟩)

/-- The cues that are heard have the lines that they come from. -/
theorem line_of_mem_heard {c : Cue Event} (h : c ∈ heard ls s) :
    s.line < c.line ∧ c.line ≤ s.line + ls.length := by
  induction ls generalizing s with
  | nil => cases h
  | cons l ls ih =>
      rw [List.length_cons]
      rcases mem_heard_cons h with hnow | ⟨s', hread, hlater⟩
      · obtain ⟨hline, -⟩ := mem_lineCues hnow
        omega
      · have hbounds := ih hlater
        rw [hread.line] at hbounds
        omega

/-- The lines of the cues that are heard ascend. -/
theorem pairwise_line_heard (ls : List Text) (s : Score) :
    (heard ls s).Pairwise (fun c d => c.line ≤ d.line) := by
  induction ls generalizing s with
  | nil => exact List.Pairwise.nil
  | cons l ls ih =>
      rw [heard]
      have hnow : ∀ c ∈ lineCues l s, c.line = s.line + 1 := fun c hc => (mem_lineCues hc).1
      refine List.pairwise_append.mpr ⟨?_, ?_, ?_⟩
      · refine List.pairwise_of_forall_mem_list (fun c hc d hd => ?_)
        rw [hnow c hc, hnow d hd]
      · split
        · exact ih _
        · exact List.Pairwise.nil
      · intro c hc d hd
        rw [hnow c hc]
        split at hd
        · rename_i u s₁ hread
          have hbounds := line_of_mem_heard hd
          rw [(feedLine_iff.mp hread).line] at hbounds
          omega
        · cases hd

end Score

/-- No letter of a syllable is a bracket. -/
theorem Syllable.Lettered.head?_display {s : Syllable} (h : s.Lettered) :
    s.display.head? ≠ some '<' := by
  intro hhead
  have hmem : '<' ∈ s.onset ++ s.breath ++ s.vowel ++ s.coda := List.mem_of_head? hhead
  simp only [List.mem_append] at hmem
  rcases hmem with ((hc | hc) | hc) | hc
  · exact absurd (h.onset _ hc) (by decide)
  · exact absurd (h.breath _ hc) (by decide)
  · exact absurd (h.vowel _ hc) (by decide)
  · exact absurd (h.coda _ hc) (by decide)

theorem Score.unbracketed_heard {ls : List Text} {s : Score} (hs : s.waiting = []) :
    Engine.Unbracketed (heard ls s) := by
  intro c hc x hx
  exact (lettered_of_mem_heard (by simp [hs]) hc hx).head?_display

/-! ## Sources -/

/-- The line on which a fault is found with the given cues still to be fed: the line of the first one,
or the last line of the score. -/
def foundOn (last : Nat) (rest : List (Cue Event)) : Nat := (rest.head?.map (·.line)).getD last

theorem le_foundOn {ls : List Text} {s : Score} {fed rest : List (Cue Event)} {c : Cue Event}
    (hs : s.line = 0) (hheard : Score.heard ls s = fed ++ rest)
    (hc : c ∈ fed ∨ rest.head? = some c) : c.line ≤ foundOn ls.length rest := by
  have hascending := Score.pairwise_line_heard ls s
  have hbounds : ∀ d ∈ fed ++ rest, d.line ≤ ls.length := by
    intro d hd
    have hline := Score.line_of_mem_heard (by rw [hheard]; exact hd)
    omega
  rw [hheard] at hascending
  cases rest with
  | nil =>
      rcases hc with hc | hc
      · exact hbounds c (List.mem_append_left _ hc)
      · cases hc
  | cons d later =>
      rcases hc with hc | hc
      · exact (List.pairwise_append.mp hascending).2.2 c hc d (by simp)
      · obtain rfl := Option.some.inj hc
        exact le_refl _

/-- A source that is refused because of a note is refused by its engine, which takes some of the cues,
or by its end, for which the engine takes all of them. -/
theorem exists_atFault {σ : Settings} {source : Text} (h : compile σ source = .error f)
    (hnote : f.aboutNote = true) :
    ∃ fed rest e n text cause, Score.heard source.lines { settings := σ } = fed ++ rest ∧
      Engine.feedAll fed {} = .ok () e ∧
      (∀ c ∈ rest.head?, ∃ e', Engine.feed c e = .error f e') ∧
      Engine.AtFault fed rest cause n ∧
      f = .misplaced (foundOn source.lines.length rest) n.what.column text cause := by
  have hletters : Engine.Unbracketed (Score.heard source.lines { settings := σ }) :=
    Score.unbracketed_heard rfl
  unfold compile Score.read at h
  split at h
  · rename_i g s hlines
    cases h
    have hfeed := Score.feedLines_error hlines hnote
    obtain ⟨fed, c, rest, e, n, text, cause, hheard, hfed, hrefused, hat, hf⟩ :=
      Engine.atFault_of_feedAll hfeed hletters hnote
    refine ⟨fed, c :: rest, e, n, text, cause, hheard, hfed, fun d hd => ?_, hat, hf⟩
    obtain rfl : c = d := Option.some.inj hd
    exact ⟨s.engine, hrefused⟩
  · rename_i u s hlines
    have hfed : Engine.feedAll (Score.heard source.lines { settings := σ }) {}
        = .ok () s.engine := by
      rw [Score.heard_eq_cues hlines]
      exact Score.feedLines_ok hlines
    have hline : s.line = source.lines.length := by
      rw [Score.feedLines_line hlines]
      exact Nat.zero_add _
    unfold Score.finish at h
    have hclose : ∃ e', Engine.close s.settings s.line s.engine = .error f e' := by
      split at h
      · cases h
        cases hnote
      · exact Engine.close_of_finish h hnote
      · exact Engine.close_of_finish h hnote
    obtain ⟨e', hclose⟩ := hclose
    have hend : Engine.EndsSyllable [] := fun c hc => (by cases hc)
    obtain ⟨n, text, cause, hat, hf⟩ :=
      Engine.atFault_of_close hfed hletters hend hclose hnote
    rw [hline] at hf
    exact ⟨_, [], s.engine, n, text, cause, (List.append_nil _).symm, hfed,
      fun c hc => (by cases hc), hat, hf⟩

/-- **The place of a note at fault.** Where a source is refused because of a note, the column that is
reported is the one of the note, and the note stands in it. The line is the one on which the fault is
found, with the first cue that the engine does not take or at the end. It is not above the line of the
note, and is that very line if the note comes before the first syllable. -/
theorem fault_of_note_place (σ : Settings) (source : Text) (line column : Nat) (text : Text)
    (cause : Misplacement) (h : compile σ source = .error (.misplaced line column text cause))
    (hnote : (Fault.misplaced line column text cause).aboutNote = true) :
    ∃ fed rest e n, Score.heard source.lines { settings := σ } = fed ++ rest ∧
      Engine.feedAll fed {} = .ok () e ∧
      (∀ c ∈ rest.head?, ∃ e', Engine.feed c e = .error (.misplaced line column text cause) e') ∧
      Engine.AtFault fed rest cause n ∧
      Score.NoteAt source.lines { settings := σ } n.line n.what ∧
      column = n.what.column ∧ line = foundOn source.lines.length rest ∧ n.line ≤ line ∧
      (cause = .noSyllable → line = n.line) := by
  obtain ⟨fed, rest, e, n, text', cause', hheard, hfed, hrefused, hat, hf⟩ :=
    exists_atFault h hnote
  obtain ⟨rfl, rfl, rfl, rfl⟩ : line = foundOn source.lines.length rest ∧
      column = n.what.column ∧ text = text' ∧ cause = cause' := by simpa using hf
  have hmem : n.note ∈ Score.heard source.lines { settings := σ } := by
    rw [hheard, List.mem_append]
    exact hat.mem.imp_right List.mem_of_head?
  refine ⟨fed, rest, e, n, hheard, hfed, hrefused, hat, Score.noteAt_of_mem_heard hmem rfl, rfl,
    rfl, le_foundOn rfl hheard hat.mem, ?_⟩
  intro hcause
  cases hat with
  | noSyllable _ hrest =>
      rw [hrest]
      rfl
  | soundAfterRest => cases hcause
  | tieWithoutNote => cases hcause
  | ticksOverflow => cases hcause

/-- A rest in the third column is reported there, with a sound after it on the same line. -/
theorem fault_of_note_place_rest :
    let source : Text := "ka\nc . d\n".toList
    compile {} source = .error (.misplaced 2 3 "<3:220@.><5:220@D4>".toList .soundAfterRest) ∧
      ∃ fed rest n, Score.heard source.lines {} = fed ++ rest ∧
        Engine.AtFault fed rest .soundAfterRest n ∧ Score.NoteAt source.lines {} n.line n.what ∧
        n.what.column = 3 ∧ foundOn source.lines.length rest = 2 := by
  intro source
  have h : compile {} source
      = .error (.misplaced 2 3 "<3:220@.><5:220@D4>".toList .soundAfterRest) := by
    decide +kernel
  obtain ⟨fed, rest, -, n, hheard, -, -, hat, hplace, hcolumn, hline, -⟩ :=
    fault_of_note_place {} source 2 3 _ _ h rfl
  exact ⟨h, fed, rest, n, hheard, hat, hplace, hcolumn.symm, hline.symm⟩

/-- The tie in the first column of the second line is reported on the fourth line, where no tie is: it
is found when "ta" is fed. -/
theorem tie_on_ka_placed_at_ta :
    let source : Text := "ka\n-\nta\nc\n".toList
    compile {} source = .error (.misplaced 4 1 ['-'] .tieWithoutNote) ∧
      (∃ n, Score.NoteAt source.lines {} 2 n ∧ n.isTie = true ∧ n.column = 1) ∧
      ∀ n, Score.NoteAt source.lines {} 4 n → n.isTie = false := by
  intro source
  refine ⟨by decide +kernel, ?_, ?_⟩
  · refine ⟨⟨.tie, 220, 1⟩, ⟨1, ['-'], _, rfl, rfl, rfl, ?_⟩, rfl, rfl⟩
    decide +kernel
  · rintro n ⟨k, text, before, hnumber, htext, hbefore, hn⟩
    obtain rfl : k = 3 := by
      have hfirst : ({} : Score).line = 0 := rfl
      omega
    obtain rfl : ['c'] = text := Option.some.inj htext
    have hties : ∀ s ∈ Score.after? (source.lines.take 3) {}, ∀ m ∈ Score.lineNotes ['c'] s,
        m.isTie = false := by decide +kernel
    exact hties before hbefore n hn

end SungScore
