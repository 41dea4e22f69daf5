import SungScore.Proofs.Lyrics

set_option autoImplicit false

/-!
# The words of a line

A word is written without a blank, and a blank or an end of the line is on either side of it
(`Text.IsWord`). Two words do not overlap (`IsWord.eq_of_within`), so a line has just these words
from left to right (`wordsInOrder_iff`), however many blanks there are. A lyric line is read as
its words are, each at its own column (`Lyrics.read_exact`).
-/

namespace SungScore

namespace Text

/-- What is written in a line: a longest run of characters that are not blank, with the column of
its first one. -/
structure IsWord (line : Text) (w : Word) : Prop where
  ne_nil : w.text ≠ []
  notBlank : ∀ c ∈ w.text, isBlank c = false
  place : ∃ front back, line = front ++ (w.text ++ back) ∧ w.column = front.length + 1 ∧
    (∀ c ∈ front.getLast?, isBlank c = true) ∧ ∀ c ∈ back.head?, isBlank c = true

/-- All words of a line, from left to right. -/
structure WordsInOrder (line : Text) (ws : List Word) : Prop where
  ascending : Ascending (ws.map (·.column))
  mem_iff : ∀ w, w ∈ ws ↔ IsWord line w

/-- A run that ends at a blank, or with the line, is taken as a whole. -/
theorem takeWhile_append_of_blank {s back : Text} (hs : ∀ c ∈ s, isBlank c = false)
    (hback : ∀ c ∈ back.head?, isBlank c = true) :
    (s ++ back).takeWhile (fun d => !isBlank d) = s := by
  rw [List.takeWhile_append_of_pos (by simpa using hs)]
  cases back with
  | nil => simp
  | cons c back => simp [hback c rfl]

/-- Behind a longest run of other characters there is a blank, or the line ends. -/
theorem blank_behind_takeWhile (s : Text) :
    ∀ c ∈ (s.drop (s.takeWhile (fun d => !isBlank d)).length).head?, isBlank c = true := by
  intro c hc
  rw [Pattern.drop_length_takeWhile] at hc
  simpa using Pattern.head?_dropWhile_neg _ s c hc

namespace IsWord

variable {line front s : Text} {v w : Word} {c : Char}

theorem column_pos (h : IsWord line w) : 1 ≤ w.column := by
  obtain ⟨front, back, -, hcolumn, -, -⟩ := h.place
  omega

/-- A word ends within its line. -/
theorem column_le (h : IsWord line w) : w.column ≤ line.length := by
  obtain ⟨front, back, rfl, hcolumn, -, -⟩ := h.place
  have hpos : 0 < w.text.length := List.length_pos_iff.mpr h.ne_nil
  rw [List.length_append, List.length_append]
  omega

/-- A word that begins within another one is that word. -/
theorem eq_of_within (hv : IsWord line v) (hw : IsWord line w) (hle : v.column ≤ w.column)
    (hlt : w.column < v.column + v.text.length) : v = w := by
  obtain ⟨front, back, rfl, hcolumn, -, hback⟩ := hv.place
  obtain ⟨front', back', hline, hcolumn', hfront', hback'⟩ := hw.place
  -- the second word has some characters `more` of the first one in front of it
  obtain ⟨more, rfl⟩ : front <+: front' :=
    List.prefix_of_prefix_length_le (List.prefix_append _ _) ⟨_, hline.symm⟩ (by omega)
  rw [List.append_assoc, List.append_cancel_left_eq] at hline
  rw [List.length_append] at hcolumn'
  have hmore : more <+: v.text :=
    List.prefix_of_prefix_length_le ⟨_, hline.symm⟩ (List.prefix_append _ _) (by omega)
  obtain rfl : more = [] := by
    rcases List.eq_nil_or_concat more with rfl | ⟨init, c, rfl⟩
    · rfl
    · rw [List.concat_eq_append] at hmore hfront'
      have hnot := hv.notBlank c (hmore.subset (by simp))
      rw [hfront' c (by simp)] at hnot
      cases hnot
  have htext : v.text = w.text := by
    rw [← takeWhile_append_of_blank hv.notBlank hback, hline, List.nil_append,
      takeWhile_append_of_blank hw.notBlank hback']
  obtain ⟨column, text⟩ := v
  obtain ⟨column', text'⟩ := w
  obtain rfl : text = text' := htext
  obtain rfl : column = column' := by
    dsimp only at hcolumn hcolumn'
    rw [hcolumn, hcolumn', List.length_nil]
  rfl

/-- No word begins with a blank. -/
theorem column_ne (h : IsWord (front ++ c :: s) w) (hc : isBlank c = true) :
    w.column ≠ front.length + 1 := by
  intro heq
  obtain ⟨front', back, hline, hcolumn, -, -⟩ := h.place
  obtain ⟨rfl, htext⟩ := List.append_inj hline (by omega)
  obtain ⟨d, more, hmore⟩ := List.exists_cons_of_ne_nil h.ne_nil
  rw [hmore, List.cons_append] at htext
  have hnot := h.notBlank c (by rw [hmore, (List.cons.inj htext).1]; exact List.mem_cons_self)
  rw [hc] at hnot
  cases hnot

/-- A word begins behind a blank, and it takes all characters up to the next one. -/
theorem of_front (hfront : ∀ d ∈ front.getLast?, isBlank d = true) (hc : isBlank c = false) :
    IsWord (front ++ c :: s) ⟨front.length + 1, c :: s.takeWhile (fun d => !isBlank d)⟩ where
  ne_nil := List.cons_ne_nil _ _
  notBlank := by
    rw [List.forall_mem_cons]
    exact ⟨hc, fun d hd => by simpa using List.mem_takeWhile_imp hd⟩
  place := by
    refine ⟨front, _, ?_, rfl, hfront, blank_behind_takeWhile s⟩
    rw [List.cons_append, Pattern.drop_length_takeWhile, List.takeWhile_append_dropWhile]

end IsWord

/-! ## All words -/

/-- **The words that are read** of the rest of a line are the words that begin in it. What was taken
before belongs to a word in front of them. -/
theorem mem_wordsFrom {taken column : Nat} (front : Text) {s : Text} {w : Word}
    (hcolumn : column = front.length + 1)
    (h : (∀ c ∈ (s.drop taken).head?, isBlank c = true) ∨
      taken = 0 ∧ ∀ c ∈ front.getLast?, isBlank c = true) :
    w ∈ wordsFrom taken column s ↔ IsWord (front ++ s) w ∧ column + taken ≤ w.column := by
  -- by `h` no word goes on into `s` but the one whose characters were taken, and it ends at a blank
  fun_induction wordsFrom taken column s generalizing front with
  | case1 taken column =>
      refine iff_of_false List.not_mem_nil fun hw => ?_
      have hle := hw.1.column_le
      rw [List.append_nil] at hle
      omega
  | case2 column taken c s ih =>
      have hrest := h.resolve_right fun h => Nat.succ_ne_zero _ h.1
      rw [ih (front ++ [c]) (by simp [hcolumn]) (Or.inl hrest), List.append_assoc,
        List.singleton_append, Nat.add_right_comm, Nat.add_assoc]
  | case3 column c s hc ih =>
      rw [ih (front ++ [c]) (by simp [hcolumn]) (Or.inr ⟨rfl, by simpa using hc⟩),
        List.append_assoc, List.singleton_append]
      refine and_congr_right fun hw => ?_
      have hne := hw.column_ne hc
      omega
  | case4 column c s hc more =>
      rename_i ih
      have hblank : isBlank c = false := by simpa using hc
      have hfront : ∀ d ∈ front.getLast?, isBlank d = true := by
        rcases h with h | h
        · exact absurd (h c rfl) hc
        · exact h.2
      have hfirst : IsWord (front ++ c :: s) ⟨column, c :: more⟩ := by
        rw [hcolumn]
        exact .of_front hfront hblank
      rw [List.mem_cons,
        ih (front ++ [c]) (by simp [hcolumn]) (Or.inl (blank_behind_takeWhile s)),
        List.append_assoc, List.singleton_append]
      constructor
      · rintro (rfl | ⟨hw, hle⟩)
        · exact ⟨hfirst, le_rfl⟩
        · exact ⟨hw, by omega⟩
      · -- a word that begins within the first one is the first one
        rintro ⟨hw, hle⟩
        by_cases hwithin : w.column < column + (c :: more).length
        · exact Or.inl (hfirst.eq_of_within hw hle hwithin).symm
        · rw [List.length_cons] at hwithin
          exact Or.inr ⟨hw, by omega⟩

theorem mem_words {line : Text} {w : Word} : w ∈ line.words ↔ IsWord line w := by
  refine (mem_wordsFrom [] rfl (Or.inr ⟨rfl, by simp⟩)).trans ?_
  rw [List.nil_append]
  exact and_iff_left_of_imp IsWord.column_pos

/-- A line has its words in one order. -/
theorem wordsInOrder_iff {line : Text} {ws : List Word} :
    WordsInOrder line ws ↔ ws = line.words := by
  constructor
  · rintro ⟨hascending, hmem⟩
    have hsame : ∀ w, w ∈ ws ↔ w ∈ line.words := fun w => (hmem w).trans mem_words.symm
    have hwords := ascending_words line
    have hperm : ws.Perm line.words :=
      (List.perm_ext_iff_of_nodup (.of_map _ (hascending.imp Nat.ne_of_lt))
        (.of_map _ (hwords.imp Nat.ne_of_lt))).mpr hsame
    rw [Ascending, List.pairwise_map] at hascending hwords
    refine hperm.eq_of_pairwise (fun v w _ _ hvw hwv => ?_) hascending hwords
    exact absurd hvw (Nat.lt_asymm hwv)
  · rintro rfl
    exact ⟨ascending_words line, fun w => mem_words⟩

end Text

namespace Lyrics

variable {line : Nat} {ws : List Text.Word} {ss : List Syllable}

/-- Every word gives one syllable. -/
theorem ofWords_ok :
    ofWords line ws = .ok ss ↔
      List.Forall₂ (fun w s => Syllable.read line w.column w.text = .ok s) ws ss := by
  induction ws generalizing ss with
  | nil =>
      rw [List.forall₂_nil_left_iff, ofWords]
      exact ⟨fun h => (Except.ok.inj h).symm, fun h => by rw [h]⟩
  | cons w ws ih =>
      rw [ofWords_cons_ok, List.forall₂_cons_left_iff]
      simp only [ih]

/-- The syllables are written as the words are, and where they are. -/
theorem places_ofWords (h : ofWords line ws = .ok ss) :
    ss.map (fun s => (s.display, s.column, s.line))
      = ws.map (fun w => (w.text, w.column, line)) := by
  rw [ofWords_ok] at h
  induction h with
  | nil => rfl
  | cons hs _ ih =>
      obtain ⟨hparts, hline, hcolumn⟩ := Syllable.read_ok.mp hs
      rw [List.map_cons, List.map_cons, ih, hparts.display, hline, hcolumn]

/-- The first word that is no syllable is at fault. -/
theorem ofWords_error {f : Fault} (h : ofWords line ws = .error f) :
    ∃ front w back, ws = front ++ w :: back ∧
      (∀ v ∈ front, ∃ s, Syllable.read line v.column v.text = .ok s) ∧
      (¬ ∃ s, Syllable.read line w.column w.text = .ok s) ∧
      f = .unrecognizable line w.column w.text := by
  induction ws with
  | nil => cases h
  | cons w ws ih =>
      rw [ofWords] at h
      cases hw : Syllable.read line w.column w.text with
      | error e =>
          rw [hw] at h
          cases h
          exact ⟨[], w, ws, rfl, by simp, by simp [hw], Syllable.read_error hw⟩
      | ok s =>
          rw [hw] at h
          cases hws : ofWords line ws with
          | ok later => simp [hws] at h
          | error e =>
              rw [hws] at h
              cases h
              obtain ⟨front, v, back, rfl, hfront, hfault⟩ := ih hws
              exact ⟨w :: front, v, back, rfl, List.forall_mem_cons.mpr ⟨⟨s, hw⟩, hfront⟩, hfault⟩

/-- **Lyrics are split at their blanks.** A line has one list of words. It is read if all of them
are syllables, and then into one syllable for every word, which is written like the word and stands
where the word does. Otherwise the first word that is no syllable is at fault, at its column. -/
theorem read_exact (line : Nat) (text : Text) :
    (∃! ws, Text.WordsInOrder text ws) ∧
    ∀ ws, Text.WordsInOrder text ws →
      ((∃ ss, read line text = .ok ss) ↔
        ∀ w ∈ ws, ∃ s, Syllable.read line w.column w.text = .ok s) ∧
      (∀ ss, read line text = .ok ss →
        List.Forall₂ (fun w s => Syllable.read line w.column w.text = .ok s) ws ss ∧
        ss.map (fun s => (s.display, s.column, s.line))
          = ws.map (fun w => (w.text, w.column, line)) ∧
        Ascending (ss.map (·.column))) ∧
      (∀ f, read line text = .error f → ∃ front w back, ws = front ++ w :: back ∧
        (∀ v ∈ front, ∃ s, Syllable.read line v.column v.text = .ok s) ∧
        (¬ ∃ s, Syllable.read line w.column w.text = .ok s) ∧
        f = .unrecognizable line w.column w.text) := by
  refine ⟨⟨text.words, Text.wordsInOrder_iff.mpr rfl, fun ws => Text.wordsInOrder_iff.mp⟩,
    fun ws hws => ?_⟩
  obtain rfl := Text.wordsInOrder_iff.mp hws
  refine ⟨⟨?_, fun h => ?_⟩, fun ss h => ?_, fun f h => ofWords_error h⟩
  · rintro ⟨ss, h⟩
    have hall := (ofWords_ok.mp h).imp fun w s hs => And.intro (Exists.intro s hs) hs
    exact ((List.forall₂_and_left _ _).mp hall).1
  · cases hread : read line text with
    | ok ss => exact ⟨ss, rfl⟩
    | error f =>
        obtain ⟨front, w, back, hwords, -, hnot, -⟩ := ofWords_error hread
        exact absurd (h w (by rw [hwords]; simp)) hnot
  · exact ⟨ofWords_ok.mp h, places_ofWords h, ascending_read h⟩

/-- Two words between wide and narrow blanks, and a line whose second word is no syllable. -/
theorem read_exact_wide_blank :
    (∃ ws, Text.WordsInOrder "\u3000ka\t\u00a0nai".toList ws ∧
      [("ka".toList, 2, 7), ("nai".toList, 6, 7)] = ws.map (fun w => (w.text, w.column, 7))) ∧
    ∃ ws front w back, Text.WordsInOrder "ka\u3000あ na".toList ws ∧ ws = front ++ w :: back ∧
      w = ⟨4, ['あ']⟩ := by
  obtain ⟨⟨ws, hws, -⟩, hread⟩ := read_exact 7 "\u3000ka\t\u00a0nai".toList
  obtain ⟨⟨ws', hws', -⟩, hread'⟩ := read_exact 7 "ka\u3000あ na".toList
  obtain ⟨-, hplaces, -⟩ := (hread ws hws).2.1
    [⟨"k".toList, [], "a".toList, [], 7, 2⟩, ⟨"n".toList, [], "ai".toList, [], 7, 6⟩] (by decide)
  obtain ⟨front, ⟨column, text⟩, back, hcut, -, -, hfault⟩ := (hread' ws' hws').2.2
    (.unrecognizable 7 4 ['あ']) (by decide)
  injection hfault with _ hcolumn htext
  refine ⟨⟨ws, hws, hplaces⟩, ws', front, _, back, hws', hcut, ?_⟩
  rw [hcolumn, htext]

end Lyrics

end SungScore
