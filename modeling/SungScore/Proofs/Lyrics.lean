import SungScore.Proofs.Syllable

set_option autoImplicit false

/-!
# Places of lyrics

The words of a line stand at ascending columns (`Lyrics.ascending_read`). Where a line is read does
not matter for what is read: moved to another line and to other columns it gives the same syllables
at the places that it was moved to (`Lyrics.read_moved`), and a line that is written behind another
one, with a blank in between, gives its syllables behind those of the other one
(`Lyrics.read_append`).
-/

namespace SungScore

/-- The syllable at another place. -/
def Syllable.moved (f g : Nat → Nat) (s : Syllable) : Syllable :=
  { s with line := f s.line, column := g s.column }

namespace Text

/-- The word in another column. -/
def Word.moved (g : Nat → Nat) (w : Word) : Word := { w with column := g w.column }

/-- Reading a word: it takes the characters up to the next blank. -/
def readWord (c : Char) (s : Text) : Text × Nat :=
  let more := s.takeWhile (fun d => !isBlank d)
  (c :: more, more.length)

theorem wordsFrom_eq_cut (taken column : Nat) (s : Text) :
    wordsFrom taken column s = (cutFrom readWord taken column s).map (fun x => ⟨x.1, x.2⟩) := by
  fun_induction wordsFrom taken column s with
  | case1 => simp [cutFrom]
  | case2 column taken c s ih => rw [cutFrom, ih]
  | case3 column c s hc ih => rw [cutFrom, if_pos hc, ih]
  | case4 column c s hc more ih =>
      rw [cutFrom, if_neg hc, List.map_cons, ih]
      rfl

theorem ascending_words (s : Text) : Ascending (s.words.map (·.column)) := by
  rw [words, wordsFrom_eq_cut, List.map_map]
  exact ascending_cutFrom 0 1 s

theorem column_of_mem_words {s : Text} {w : Word} (h : w ∈ s.words) :
    1 ≤ w.column ∧ w.column ≤ s.length := by
  rw [words, wordsFrom_eq_cut] at h
  obtain ⟨x, hx, rfl⟩ := List.mem_map.mp h
  have hcolumn := column_of_mem_cutFrom _ _ _ x hx
  dsimp only
  omega

theorem wordsFrom_of_length_le {taken : Nat} {s : Text} (h : s.length ≤ taken) (column : Nat) :
    wordsFrom taken column s = [] := by
  induction s generalizing taken column with
  | nil => cases taken <;> rfl
  | cons c s ih =>
      rw [List.length_cons] at h
      obtain ⟨taken, rfl⟩ := Nat.exists_eq_add_of_le' (Nat.one_le_of_lt h)
      rw [wordsFrom, ih (by omega)]

/-- A text without blanks is one word. -/
theorem words_eq_singleton {s : Text} (h : ∀ c ∈ s, isBlank c = false) (hne : s ≠ []) :
    s.words = [⟨1, s⟩] := by
  obtain ⟨c, s, rfl⟩ := List.exists_cons_of_ne_nil hne
  have hc : ¬ isBlank c = true := by simp [h c]
  have hmore : s.takeWhile (fun d => !isBlank d) = s := by
    rw [List.takeWhile_eq_self_iff]
    intro d hd
    rw [h d (List.mem_cons_of_mem c hd)]
    rfl
  rw [words, wordsFrom, if_neg hc]
  dsimp only
  rw [hmore, wordsFrom_of_length_le le_rfl]

/-- A line behind another one, with blanks in between, has its words behind those of the other. -/
theorem words_append {gap : Text} (hgap : gap.allBlank = true) (hne : gap ≠ []) (a b : Text) :
    words (a ++ (gap ++ b)) = words a ++ (words b).map (.moved (· + (a ++ gap).length)) := by
  have hread : ∀ d s, readWord d (s ++ (gap ++ b)) = (id (readWord d s).1, (readWord d s).2) := by
    obtain ⟨c, gap', rfl, hc⟩ := exists_blank_cons hgap hne
    intro d s
    rw [readWord, readWord, List.cons_append, takeWhile_append_of_neg (by simp [hc])]
    rfl
  have hle : ∀ d s, (readWord d s).2 ≤ s.length := fun d s => (List.takeWhile_sublist _).length_le
  rw [words, words, words, wordsFrom_eq_cut, wordsFrom_eq_cut, wordsFrom_eq_cut,
    cutFrom_gap hgap hread hle, List.map_append, List.map_map, List.map_map, List.map_map]
  rfl

end Text

/-! ## Syllables -/

theorem Syllable.read_moved (f g : Nat → Nat) (line column : Nat) (word : Text) :
    Syllable.read (f line) (g column) word
      = ((Syllable.read line column word).map (moved f g)).mapError (Fault.moved f g) := by
  unfold Syllable.read
  dsimp only
  split <;> rfl

namespace Lyrics

variable {line : Nat} {ws ws' : List Text.Word} {ss ss' : List Syllable}

/-- Words are read one by one, each into a syllable. -/
theorem ofWords_cons_ok {w : Text.Word} :
    ofWords line (w :: ws) = .ok ss ↔
      ∃ s later, Syllable.read line w.column w.text = .ok s ∧ ofWords line ws = .ok later ∧
        ss = s :: later := by
  rw [ofWords]
  cases Syllable.read line w.column w.text with
  | error f => simp
  | ok s =>
      cases ofWords line ws with
      | error f => simp
      | ok later => simp [eq_comm]

theorem ofWords_append (h : ofWords line ws = .ok ss) (h' : ofWords line ws' = .ok ss') :
    ofWords line (ws ++ ws') = .ok (ss ++ ss') := by
  induction ws generalizing ss with
  | nil =>
      cases h
      exact h'
  | cons w ws ih =>
      obtain ⟨s, later, hs, hlater, rfl⟩ := ofWords_cons_ok.mp h
      exact ofWords_cons_ok.mpr ⟨s, later ++ ss', hs, ih hlater, rfl⟩

theorem ofWords_moved (f g : Nat → Nat) (line : Nat) (ws : List Text.Word) :
    ofWords (f line) (ws.map (.moved g))
      = ((ofWords line ws).map (List.map (.moved f g))).mapError (Fault.moved f g) := by
  induction ws with
  | nil => rfl
  | cons w ws ih =>
      rw [List.map_cons, ofWords, ofWords, ih]
      dsimp only [Text.Word.moved]
      rw [Syllable.read_moved]
      cases Syllable.read line w.column w.text with
      | error e => rfl
      | ok s => cases ofWords line ws <;> rfl

theorem columns_ofWords (h : ofWords line ws = .ok ss) :
    ss.map (·.column) = ws.map (·.column) := by
  induction ws generalizing ss with
  | nil =>
      cases h
      rfl
  | cons w ws ih =>
      obtain ⟨s, later, hs, hlater, rfl⟩ := ofWords_cons_ok.mp h
      rw [List.map_cons, List.map_cons, ih hlater, (Syllable.read_ok.mp hs).2.2]

/-- The syllables of a line ascend. -/
theorem ascending_read {text : Text} (h : read line text = .ok ss) :
    Ascending (ss.map (·.column)) := by
  rw [columns_ofWords h]
  exact Text.ascending_words text

/-- The syllables of a line are within it. -/
theorem column_of_mem_read {text : Text} {s : Syllable} (h : read line text = .ok ss)
    (hs : s ∈ ss) : 1 ≤ s.column ∧ s.column ≤ text.length := by
  have hmem : s.column ∈ text.words.map (·.column) := by
    rw [← columns_ofWords h]
    exact List.mem_map_of_mem hs
  obtain ⟨w, hw, hcolumn⟩ := List.mem_map.mp hmem
  rw [← hcolumn]
  exact Text.column_of_mem_words hw

/-- The line of a lyric line only names the place of its syllables. -/
theorem read_moved (f : Nat → Nat) (line : Nat) (text : Text) :
    read (f line) text
      = ((read line text).map (List.map (.moved f id))).mapError (Fault.moved f id) := by
  rw [read, read, ← ofWords_moved]
  congr 1
  exact (List.map_id _).symm

theorem line_of_mem_read {text : Text} (h : read line text = .ok ss) : ∀ s ∈ ss, s.line = line := by
  -- moved to its own line, a lyric line is read as before
  have hmoved := read_moved (fun _ => line) line text
  rw [h] at hmoved
  have hsame : ss = ss.map (.moved (fun _ => line) id) := Except.ok.inj hmoved
  intro s hs
  rw [hsame] at hs
  obtain ⟨t, -, rfl⟩ := List.mem_map.mp hs
  rfl

/-- **A lyric line behind another one**, with blanks in between. -/
theorem read_append {gap a b : Text} (hgap : gap.allBlank = true) (hne : gap ≠ [])
    (ha : read line a = .ok ss) (hb : read line b = .ok ss') :
    read line (a ++ (gap ++ b))
      = .ok (ss ++ ss'.map (.moved id (· + (a ++ gap).length))) := by
  rw [read, Text.words_append hgap hne]
  refine ofWords_append ha ?_
  have hmoved := ofWords_moved id (· + (a ++ gap).length) line b.words
  rw [show ofWords line b.words = .ok ss' from hb] at hmoved
  exact hmoved

end Lyrics

end SungScore
