import Mathlib.Data.List.TakeWhile
import SungScore.Proofs.Text.Cut
import SungScore.Syllable

set_option autoImplicit false

/-!
# How words are taken apart

A word is a syllable if it can be spelled as one (`Syllable.Spelled`), and then it is so in many ways,
since underscores and consonants fit in several parts. `Syllable.Parts` says which parts are read: every
part but the last is as long as it can be. They are also what the pattern of a syllable takes first of
all (`Syllable.pattern`), where it takes as much as it can with every part and steps back only if the
rest of the word does not fit (`Pattern.waysAll`).
-/

namespace SungScore

/-! ## Patterns -/

/-- A pattern for texts: a character of some kind, a pattern behind another one, or a pattern any
number of times. -/
inductive Pattern where
  | char (p : Char → Bool)
  | seq (a b : Pattern)
  | many (a : Pattern)

namespace Pattern

/-- How many characters can be taken in so many rounds, in order of preference: one more round comes
before none. A round takes at least one character. -/
def waysOfMany (round : Text → List Nat) : Nat → Text → List Nat
  | 0, _ => [0]
  | rounds + 1, s =>
      ((round s).filter (0 < ·)).flatMap
        (fun n => (waysOfMany round rounds (s.drop n)).map (n + ·)) ++ [0]

/-- How many characters a pattern can take at the beginning of a text, in order of preference. -/
def ways : Pattern → Text → List Nat
  | char p, s => if s.head?.any p then [1] else []
  | seq a b, s => (a.ways s).flatMap (fun n => (b.ways (s.drop n)).map (n + ·))
  | many a, s => waysOfMany a.ways s.length s

/-- How patterns, one behind another, can take a whole text, in order of preference. -/
def waysAll : List Pattern → Text → List (List Text)
  | [], s => if s.isEmpty then [[]] else []
  | a :: as, s => (a.ways s).flatMap (fun n => (waysAll as (s.drop n)).map (s.take n :: ·))

/-- An underscore and any number of characters. -/
def laterSegment (p : Char → Bool) : Pattern := seq (char (· == '_')) (many (char p))

/-- Any number of segments with underscores in between, each of any number of characters. -/
def segments (p : Char → Bool) : Pattern := seq (many (char p)) (many (laterSegment p))

/-- The pattern is made of characters of some kind. -/
def Over (q : Char → Bool) : Pattern → Prop
  | char p => ∀ c, p c = true → q c = true
  | seq a b => a.Over q ∧ b.Over q
  | many a => a.Over q

end Pattern

/-- The text begins with a run of characters of some kind, and with no longer one. -/
structure LongestRun (p : Char → Bool) (run s : Text) : Prop where
  begins : run <+: s
  kind : ∀ c ∈ run, p c = true
  longest : ∀ r, r <+: s → (∀ c ∈ r, p c = true) → r <+: run

/-- What the pattern takes first of all is the longest run. -/
def Pattern.Prefers (q : Char → Bool) (a : Pattern) : Prop :=
  ∀ s, (a.ways s).head? = some (s.takeWhile q).length

/-! ## Longest runs -/

section

variable {p : Char → Bool} {run rest s : Text}

theorem longestRun_takeWhile (p : Char → Bool) (s : Text) : LongestRun p (s.takeWhile p) s :=
  ⟨List.takeWhile_prefix p, fun _ hc => List.mem_takeWhile_imp hc,
    fun _ hr hp => prefix_takeWhile_of_forall hr hp⟩

theorem longestRun_self (h : ∀ c ∈ run, p c = true) : LongestRun p run run :=
  ⟨List.prefix_rfl, h, fun _ hr _ => hr⟩

theorem LongestRun.takeWhile_eq (h : LongestRun p run s) : s.takeWhile p = run :=
  antisymm (h.longest _ (List.takeWhile_prefix p) (fun _ hc => List.mem_takeWhile_imp hc))
    (prefix_takeWhile_of_forall h.begins h.kind)

theorem LongestRun.dropWhile_eq (h : LongestRun p run (run ++ rest)) :
    (run ++ rest).dropWhile p = rest := by
  have hsplit := List.takeWhile_append_dropWhile (p := p) (l := run ++ rest)
  rw [h.takeWhile_eq] at hsplit
  exact List.append_cancel_left hsplit

/-- No character of the kind stands behind a longest run. -/
theorem LongestRun.head?_ne (h : LongestRun p run (run ++ rest)) {c : Char} (hc : p c = true) :
    rest.head? ≠ some c := by
  intro hhead
  obtain ⟨more, rfl⟩ := List.head?_eq_some_iff.mp hhead
  have hlonger : run ++ [c] <+: run := by
    refine h.longest (run ++ [c]) ⟨more, by simp⟩ ?_
    rw [List.forall_mem_append, List.forall_mem_singleton]
    exact ⟨h.kind, hc⟩
  simpa using hlonger.length_le

/-- Dropping a run does not stop in front of characters of its kind. -/
theorem dropWhile_suffix_of_forall {front back : Text} (hs : s <:+ front ++ back)
    (hp : ∀ c ∈ front, p c = true) : s.dropWhile p <:+ back := by
  induction front generalizing s with
  | nil => exact (List.dropWhile_suffix p).trans hs
  | cons c front ih =>
      rw [List.forall_mem_cons] at hp
      rcases List.suffix_cons_iff.mp hs with rfl | hs
      · rw [List.dropWhile_cons_of_pos hp.1]
        exact ih List.suffix_rfl hp.2
      · exact ih hs hp.2

end

/-! ## What patterns take -/

namespace Pattern

variable {p q : Char → Bool} {a b : Pattern} {s : Text} {n m rounds : Nat}
  {round : Text → List Nat}

theorem forall_mem_take_add (hn : ∀ c ∈ s.take n, q c = true)
    (hm : ∀ c ∈ (s.drop n).take m, q c = true) : ∀ c ∈ s.take (n + m), q c = true := by
  rw [List.take_add, List.forall_mem_append]
  exact ⟨hn, hm⟩

theorem forall_mem_take_of_waysOfMany
    (hround : ∀ s, ∀ n ∈ round s, ∀ c ∈ s.take n, q c = true) (rounds : Nat) (s : Text) :
    ∀ n ∈ waysOfMany round rounds s, ∀ c ∈ s.take n, q c = true := by
  induction rounds generalizing s with
  | zero => simp [waysOfMany]
  | succ rounds ih =>
      intro n hn
      rw [waysOfMany, List.mem_append, List.mem_flatMap, List.mem_singleton] at hn
      rcases hn with ⟨first, hfirst, hn⟩ | rfl
      · obtain ⟨later, hlater, rfl⟩ := List.mem_map.mp hn
        exact forall_mem_take_add (hround s first (List.mem_of_mem_filter hfirst))
          (ih (s.drop first) later hlater)
      · simp

/-- Whatever a pattern takes is made of characters of its kind. -/
theorem Over.forall_mem_take (h : a.Over q) (s : Text) :
    ∀ n ∈ a.ways s, ∀ c ∈ s.take n, q c = true := by
  induction a generalizing s with
  | char p =>
      cases s with
      | nil => simp
      | cons c s =>
          intro n hn
          by_cases hc : p c = true
          · simp only [ways, List.head?_cons, Option.any_some, hc, if_true,
              List.mem_singleton] at hn
            simpa [hn] using h c hc
          · simp [ways, hc] at hn
  | seq a b iha ihb =>
      intro n hn
      obtain ⟨first, hfirst, hn⟩ := List.mem_flatMap.mp hn
      obtain ⟨later, hlater, rfl⟩ := List.mem_map.mp hn
      exact forall_mem_take_add (iha h.1 s first hfirst) (ihb h.2 (s.drop first) later hlater)
  | many a ih => exact forall_mem_take_of_waysOfMany (ih h) s.length s

theorem head?_flatMap_of_head? {α β : Type} {f : α → List β} {xs : List α} {x : α} {y : β}
    (hx : xs.head? = some x) (hy : (f x).head? = some y) : (xs.flatMap f).head? = some y := by
  obtain ⟨later, rfl⟩ := List.head?_eq_some_iff.mp hx
  rw [List.flatMap_cons, List.head?_append, hy]
  rfl

theorem head?_ways_seq (ha : (a.ways s).head? = some n)
    (hb : (b.ways (s.drop n)).head? = some m) : ((seq a b).ways s).head? = some (n + m) := by
  refine head?_flatMap_of_head? ha ?_
  rw [List.head?_map, hb]
  rfl

/-- Another round is preferred to none. -/
theorem head?_waysOfMany_of_round (hround : (round s).head? = some n) (hn : 0 < n)
    (hlater : (waysOfMany round rounds (s.drop n)).head? = some m) :
    (waysOfMany round (rounds + 1) s).head? = some (n + m) := by
  obtain ⟨others, hothers⟩ := List.head?_eq_some_iff.mp hround
  have hfirst : ((round s).filter (0 < ·)).head? = some n := by
    rw [hothers, List.filter_cons_of_pos (by simpa using hn)]
    rfl
  rw [waysOfMany, List.head?_append, head?_flatMap_of_head? hfirst (y := n + m)]
  · rfl
  · rw [List.head?_map, hlater]
    rfl

theorem waysOfMany_of_round_eq_nil (hround : round s = []) : waysOfMany round rounds s = [0] := by
  cases rounds with
  | zero => rfl
  | succ rounds => rw [waysOfMany, hround]; rfl

theorem ways_char_of_pos {c : Char} (hc : p c = true) : (char p).ways (c :: s) = [1] := by
  simp [ways, hc]

theorem ways_char_of_neg (hs : ∀ c ∈ s.head?, p c = false) : (char p).ways s = [] := by
  cases s with
  | nil => rfl
  | cons c s =>
      have hc : p c = false := hs c rfl
      simp [ways, hc]

/-- Characters are taken as long as they are of the kind. -/
theorem prefers_many_char (p : Char → Bool) : (many (char p)).Prefers p := by
  intro s
  rw [ways]
  induction s with
  | nil => rfl
  | cons c s ih =>
      by_cases hc : p c = true
      · rw [List.length_cons, head?_waysOfMany_of_round (n := 1) (by rw [ways_char_of_pos hc]; rfl)
          Nat.one_pos ih, List.takeWhile_cons_of_pos hc, List.length_cons, Nat.add_comm]
      · have hnone : (char p).ways (c :: s) = [] := ways_char_of_neg (by simpa using hc)
        rw [waysOfMany_of_round_eq_nil hnone, List.takeWhile_cons_of_neg hc]
        rfl

theorem drop_length_takeWhile (p : Char → Bool) (s : Text) :
    s.drop (s.takeWhile p).length = s.dropWhile p := by
  have hdrop : (s.takeWhile p ++ s.dropWhile p).drop (s.takeWhile p).length = s.dropWhile p :=
    List.drop_left
  rwa [List.takeWhile_append_dropWhile] at hdrop

theorem head?_dropWhile_neg (p : Char → Bool) (s : Text) :
    ∀ c ∈ (s.dropWhile p).head?, p c = false := by
  intro c hc
  have hnot := List.head?_dropWhile_not p s
  rw [Option.mem_def.mp hc] at hnot
  exact hnot

theorem length_takeWhile_of_imp (h : ∀ c, p c = true → q c = true) (s : Text) :
    (s.takeWhile q).length = (s.takeWhile p).length + ((s.dropWhile p).takeWhile q).length := by
  have htake : (s.takeWhile p ++ s.dropWhile p).takeWhile q
      = s.takeWhile p ++ (s.dropWhile p).takeWhile q :=
    List.takeWhile_append_of_pos (fun c hc => h c (List.mem_takeWhile_imp hc))
  rw [List.takeWhile_append_dropWhile] at htake
  rw [htake, List.length_append]

theorem head?_ways_laterSegment (p : Char → Bool) (s : Text) :
    ((laterSegment p).ways ('_' :: s)).head? = some ((s.takeWhile p).length + 1) := by
  have hunderscore : ((char (· == '_')).ways ('_' :: s)).head? = some 1 := by
    rw [ways_char_of_pos rfl]
    rfl
  rw [laterSegment, head?_ways_seq hunderscore (prefers_many_char p s), Nat.add_comm]

theorem ways_laterSegment_of_ne {c : Char} (hc : c ≠ '_') :
    (laterSegment p).ways (c :: s) = [] := by
  have hnone : (char (· == '_')).ways (c :: s) = [] := ways_char_of_neg (by simpa using hc)
  rw [laterSegment, ways, hnone]
  rfl

section Segments

/-! The characters of segments, with the underscores: -/

variable (hq : ∀ c, q c = (p c || c == '_'))
include hq

theorem of_segment : ∀ c, p c = true → q c = true := by
  intro c hc
  rw [hq, hc, Bool.true_or]

theorem of_underscore : ∀ c, (c == '_') = true → q c = true := by
  intro c hc
  rw [hq, hc, Bool.or_true]

/-- Behind a segment, all later ones are taken. -/
theorem head?_ways_laterSegments (hlength : s.length ≤ rounds) (hs : ∀ c ∈ s.head?, p c = false) :
    (waysOfMany (laterSegment p).ways rounds s).head? = some (s.takeWhile q).length := by
  induction rounds generalizing s with
  | zero =>
      rw [List.eq_nil_of_length_eq_zero (Nat.le_zero.mp hlength)]
      rfl
  | succ rounds ih =>
      cases s with
      | nil =>
          rw [waysOfMany_of_round_eq_nil rfl]
          rfl
      | cons c s =>
          rw [List.length_cons] at hlength
          by_cases hc : c = '_'
          · -- one round takes the underscore and its segment, and the rest has rounds enough
            subst hc
            have hle := (List.dropWhile_suffix (l := s) p).length_le
            have hlater := ih (s := s.dropWhile p) (by omega) (head?_dropWhile_neg p s)
            rw [← drop_length_takeWhile, ← List.drop_succ_cons] at hlater
            rw [head?_waysOfMany_of_round (head?_ways_laterSegment p s) (Nat.succ_pos _) hlater,
              List.drop_succ_cons, drop_length_takeWhile,
              List.takeWhile_cons_of_pos (of_underscore hq _ rfl), List.length_cons,
              length_takeWhile_of_imp (of_segment hq) s, Nat.add_right_comm]
          · have hqc : ¬ q c = true := by simp [hq, hs c rfl, hc]
            rw [waysOfMany_of_round_eq_nil (ways_laterSegment_of_ne hc),
              List.takeWhile_cons_of_neg hqc]
            rfl

theorem prefers_segments : (segments p).Prefers q := by
  intro s
  have hlater : ((many (laterSegment p)).ways (s.dropWhile p)).head?
      = some ((s.dropWhile p).takeWhile q).length :=
    head?_ways_laterSegments hq le_rfl (head?_dropWhile_neg p s)
  rw [← drop_length_takeWhile] at hlater
  rw [segments, head?_ways_seq (prefers_many_char p s) hlater, drop_length_takeWhile,
    ← length_takeWhile_of_imp (of_segment hq)]

theorem over_segments : (segments p).Over q :=
  ⟨of_segment hq, of_underscore hq, of_segment hq⟩

end Segments

variable {as : List Pattern} {t : Text} {ts : List Text}

/-- Patterns that prefer longest runs take these first of all. -/
theorem Prefers.head?_waysAll (h : a.Prefers q) (ht : LongestRun q t (t ++ s))
    (hs : (waysAll as s).head? = some ts) : (waysAll (a :: as) (t ++ s)).head? = some (t :: ts) := by
  have hlength := h (t ++ s)
  rw [ht.takeWhile_eq] at hlength
  refine head?_flatMap_of_head? hlength ?_
  rw [List.drop_left, List.take_left, List.head?_map, hs]
  rfl

/-- What patterns take is made of characters of their kinds. -/
theorem forall₂_of_mem_waysAll {qs : List (Char → Bool)}
    (h : List.Forall₂ (fun q a => Over q a) qs as) (hts : ts ∈ waysAll as s) :
    List.Forall₂ (fun q t => ∀ c ∈ t, q c = true) qs ts ∧ s = ts.flatten := by
  induction h generalizing s ts with
  | nil =>
      cases s with
      | nil =>
          obtain rfl := List.mem_singleton.mp hts
          exact ⟨.nil, rfl⟩
      | cons c s => cases hts
  | cons hover _ ih =>
      obtain ⟨n, hn, hts⟩ := List.mem_flatMap.mp hts
      obtain ⟨later, hlater, rfl⟩ := List.mem_map.mp hts
      obtain ⟨hkinds, hflatten⟩ := ih hlater
      refine ⟨.cons (hover.forall_mem_take s n hn) hkinds, ?_⟩
      rw [List.flatten_cons, ← hflatten, List.take_append_drop]

end Pattern

/-! ## Syllables -/

theorem isConsonant_eq (c : Char) :
    isConsonant c = ("bdfghjklmnprstvwyz".toList.contains c || c == '_') := by
  have hletters : "bdfghjklmnprstvwyz_".toList = "bdfghjklmnprstvwyz".toList ++ ['_'] := by decide
  rw [isConsonant, hletters, List.contains_append, List.contains_cons, List.contains_nil, Bool.or_false]

theorem isVowel_eq (c : Char) : isVowel c = ("aeiou".toList.contains c || c == '_') := by
  have hletters : "aeiou_".toList = "aeiou".toList ++ ['_'] := by decide
  rw [isVowel, hletters, List.contains_append, List.contains_cons, List.contains_nil, Bool.or_false]

namespace Syllable

/-- The pattern of a syllable, part by part. -/
def pattern : List Pattern :=
  [.segments "bdfghjklmnprstvwyz".toList.contains, .many (.char Char.isDigit),
    .segments "aeiou".toList.contains, .segments "bdfghjklmnprstvwyz".toList.contains]

/-- The parts of a syllable in the order in which they are written. -/
def parts (s : Syllable) : List Text := [s.onset, s.breath, s.vowel, s.coda]

/-- A word that can be spelled as a syllable. -/
def Spelled (word : Text) : Prop :=
  ∃ onset breath vowel coda : Text, word = onset ++ breath ++ vowel ++ coda ∧
    (∀ c ∈ onset, isConsonant c = true) ∧ (∀ c ∈ breath, c.isDigit = true) ∧
    (∀ c ∈ vowel, isVowel c = true) ∧ ∀ c ∈ coda, isConsonant c = true

/-- The parts of the syllable are those of the word, and each but the last is as long as it can be. -/
structure Parts (word : Text) (s : Syllable) : Prop where
  display : s.display = word
  onset : LongestRun isConsonant s.onset (s.onset ++ (s.breath ++ (s.vowel ++ s.coda)))
  breath : LongestRun Char.isDigit s.breath (s.breath ++ (s.vowel ++ s.coda))
  vowel : LongestRun isVowel s.vowel (s.vowel ++ s.coda)
  coda : ∀ c ∈ s.coda, isConsonant c = true

variable {line column : Nat} {word : Text} {s : Syllable}

theorem display_eq (s : Syllable) : s.display = s.onset ++ (s.breath ++ (s.vowel ++ s.coda)) := by
  simp only [display, List.append_assoc]

/-- The syllable that is read is the one with these parts. -/
theorem read_ok :
    read line column word = .ok s ↔ Parts word s ∧ s.line = line ∧ s.column = column := by
  constructor
  · intro h
    unfold read at h
    dsimp only at h
    split at h
    case isTrue hcoda =>
      cases h
      refine ⟨⟨?_, ?_, ?_, ?_, List.all_eq_true.mp hcoda⟩, rfl, rfl⟩
      all_goals simp only [display_eq, List.takeWhile_append_dropWhile]
      all_goals exact longestRun_takeWhile _ _
    case isFalse => cases h
  · rintro ⟨hparts, rfl, rfl⟩
    unfold read
    dsimp only
    rw [← hparts.display, display_eq, hparts.onset.takeWhile_eq, hparts.onset.dropWhile_eq,
      hparts.breath.takeWhile_eq, hparts.breath.dropWhile_eq, hparts.vowel.takeWhile_eq,
      hparts.vowel.dropWhile_eq, if_pos (List.all_eq_true.mpr hparts.coda)]

theorem Parts.spelled (h : Parts word s) : Spelled word :=
  ⟨s.onset, s.breath, s.vowel, s.coda, h.display.symm, h.onset.kind, h.breath.kind, h.vowel.kind,
    h.coda⟩

/-- Nothing is lost where every part takes what it can: what is left of the word is left of the last
part in any other way to spell it. -/
theorem Spelled.exists_read (h : Spelled word) (line column : Nat) :
    ∃ s, read line column word = .ok s := by
  obtain ⟨onset, breath, vowel, coda, rfl, honset, hbreath, hvowel, hcoda⟩ := h
  have hword : onset ++ breath ++ vowel ++ coda <:+ onset ++ (breath ++ (vowel ++ coda)) := by
    simp only [List.append_assoc, List.suffix_rfl]
  have hrest := dropWhile_suffix_of_forall
    (dropWhile_suffix_of_forall (dropWhile_suffix_of_forall hword honset) hbreath) hvowel
  unfold read
  dsimp only
  rw [if_pos (List.all_eq_true.mpr fun c hc => hcoda c (hrest.subset hc))]
  exact ⟨_, rfl⟩

theorem read_error {e : Fault} (h : read line column word = .error e) :
    e = .unrecognizable line column word := by
  unfold read at h
  dsimp only at h
  split at h
  · cases h
  · cases h
    rfl

theorem Parts.head?_waysAll (h : Parts word s) :
    (Pattern.waysAll pattern word).head? = some s.parts := by
  have hcoda : LongestRun isConsonant s.coda (s.coda ++ []) := by
    rw [List.append_nil]
    exact longestRun_self h.coda
  have hconsonants := Pattern.prefers_segments isConsonant_eq
  have hlast : (Pattern.waysAll [_] (s.coda ++ [])).head? = some [s.coda] :=
    hconsonants.head?_waysAll hcoda rfl
  rw [List.append_nil] at hlast
  rw [← h.display, display_eq]
  exact hconsonants.head?_waysAll h.onset
    ((Pattern.prefers_many_char Char.isDigit).head?_waysAll h.breath
      ((Pattern.prefers_segments isVowel_eq).head?_waysAll h.vowel hlast))

/-- Whatever way the pattern takes a word, the word is spelled so. -/
theorem spelled_of_mem_waysAll {ts : List Text} (h : ts ∈ Pattern.waysAll pattern word) :
    Spelled word := by
  have hkinds : List.Forall₂ (fun q a => Pattern.Over q a)
      [isConsonant, Char.isDigit, isVowel, isConsonant] pattern :=
    .cons (Pattern.over_segments isConsonant_eq) (.cons (fun _ hc => hc)
      (.cons (Pattern.over_segments isVowel_eq)
        (.cons (Pattern.over_segments isConsonant_eq) .nil)))
  obtain ⟨hts, rfl⟩ := Pattern.forall₂_of_mem_waysAll hkinds h
  obtain _ | ⟨honset, _ | ⟨hbreath, _ | ⟨hvowel, _ | ⟨hcoda, _ | _⟩⟩⟩⟩ := hts
  exact ⟨_, _, _, _, by simp, honset, hbreath, hvowel, hcoda⟩

/-- What is read is what the pattern takes first of all. -/
theorem head?_waysAll (line column : Nat) (word : Text) :
    (Pattern.waysAll pattern word).head? = (read line column word).toOption.map parts := by
  cases h : read line column word with
  | ok s => exact (read_ok.mp h).1.head?_waysAll
  | error e =>
      -- no other way could take a word that is not read, since it would spell it
      have hnone : Pattern.waysAll pattern word = [] := by
        rw [List.eq_nil_iff_forall_not_mem]
        intro ts hts
        obtain ⟨s, hs⟩ := (spelled_of_mem_waysAll hts).exists_read line column
        rw [hs] at h
        cases h
      rw [hnone]
      rfl

/-- The coda does not begin with an underscore, since the vowel takes them all. -/
theorem Parts.head?_coda_ne (h : Parts word s) : s.coda.head? ≠ some '_' := h.vowel.head?_ne rfl

/-- A coda needs something between it and the onset. -/
theorem Parts.breath_or_vowel_ne_nil (h : Parts word s) (hcoda : s.coda ≠ []) :
    s.breath ≠ [] ∨ s.vowel ≠ [] := by
  by_contra hnone
  rw [not_or, not_not, not_not] at hnone
  obtain ⟨c, rest, hrest⟩ := List.exists_cons_of_ne_nil hcoda
  refine h.onset.head?_ne (h.coda c (by simp [hrest])) ?_
  simp [hnone.1, hnone.2, hrest]

/-- **Words are taken apart in one way.** A word is read if and only if it is spelled as a syllable:
otherwise it is quoted as unrecognizable. The syllable is the only one whose parts make up the word
such that each but the last is as long as it can be; it can be read again from what it displays, and
its parts are those that the pattern of a syllable takes first of all. -/
theorem read_iff_spelled (line column : Nat) (word : Text) :
    ((∃ s, read line column word = .ok s) ↔ Spelled word) ∧
      (¬ Spelled word → read line column word = .error (.unrecognizable line column word)) ∧
      (∀ s, read line column word = .ok s ↔ Parts word s ∧ s.line = line ∧ s.column = column) ∧
      (∀ s, read line column word = .ok s →
        s.coda.head? ≠ some '_' ∧ (s.coda ≠ [] → s.breath ≠ [] ∨ s.vowel ≠ []) ∧
          read line column s.display = .ok s) ∧
      (Pattern.waysAll pattern word).head? = (read line column word).toOption.map parts := by
  refine ⟨⟨?_, fun h => h.exists_read line column⟩, fun hnot => ?_, fun s => read_ok, fun s hs => ?_,
    head?_waysAll line column word⟩
  · rintro ⟨s, hs⟩
    exact (read_ok.mp hs).1.spelled
  · cases h : read line column word with
    | ok s => exact absurd (read_ok.mp h).1.spelled hnot
    | error e => rw [read_error h]
  · have hparts := (read_ok.mp hs).1
    refine ⟨hparts.head?_coda_ne, hparts.breath_or_vowel_ne_nil, ?_⟩
    rw [hparts.display]
    exact hs

/-- Underscores at every border. -/
theorem read_iff_spelled_t_4_a_n :
    let s : Syllable := ⟨"t_".toList, "4".toList, "_a__".toList, "n_".toList, 2, 5⟩
    Parts "t_4_a__n_".toList s ∧ read 2 5 s.display = .ok s ∧
      (Pattern.waysAll pattern "t_4_a__n_".toList).head? = some s.parts := by
  intro s
  obtain ⟨-, -, hread, hagain, hways⟩ := read_iff_spelled 2 5 "t_4_a__n_".toList
  have hok : read 2 5 "t_4_a__n_".toList = .ok s := by decide
  rw [hok] at hways
  exact ⟨((hread s).mp hok).1, (hagain s hok).2.2, hways⟩

end Syllable

end SungScore
