import SungScore.Proofs.Score.Letters
import SungScore.Proofs.Text.Decimal
import SungScore.Mora

set_option autoImplicit false

/-!
# Reading records back

A record can be read back, and what is read is all that it was written from, but for the digits of the
breath, of which only the level is written. `Record.entries?` reads a text of records:

* a line feed ends every record, and commas stand between its nine fields;
* a bracket in the field for the pitch stands between the name of a key and its bends;
* a sharp in the name of a key stands between its letter and its octave.

Each of these characters is found where it separates and nowhere else, as long as the consonants and
vowels have no comma and no line feed (`Mora.Separable`). The lyrics have neither, and so the records
of a compiled score are always read back (`Record.read_back`).
-/

namespace SungScore

/-- The duration that a text of digits denotes. -/
def Ticks.read? (s : Text) : Option Ticks := (Decimal.nat? s).bind (fun n => unsigned? n)

theorem Ticks.read?_ofNat (t : Ticks) : read? (Decimal.ofNat t.toNat) = some t := by
  have hlt : (t.toNat : Int) ≤ 4294967295 := by
    have h := t.toNat_lt
    omega
  rw [read?, Decimal.nat?_ofNat, Option.bind_some, unsigned?, if_pos ⟨by omega, hlt⟩,
    Int.toNat_natCast, UInt32.ofNat_toNat]

/-- The consonant and the vowel have none of the characters that separate records and fields. -/
structure Mora.Separable (m : Mora) : Prop where
  consonant : ',' ∉ m.consonant ∧ '\n' ∉ m.consonant
  vowel : ',' ∉ m.vowel ∧ '\n' ∉ m.vowel

namespace Record

/-! ## Reading -/

/-- What a record says of a mora. The breath is the name of its level. -/
structure Entry where
  attenuation : Int
  consonant : Text
  breath : Text
  vowel : Text
  key : Int
  bends : List Int
  tick : Ticks
  onTick : Ticks
  offTick : Ticks
  tenseness : Int
deriving DecidableEq

/-- What the record of a mora says of it. -/
def Entry.ofMora (m : Mora) : Entry :=
  { attenuation := m.attenuation
    consonant := m.consonant
    breath := m.breathTag
    vowel := m.vowel
    key := m.key
    bends := m.bends
    tick := m.tick
    onTick := m.onTick
    offTick := m.offTick
    tenseness := m.tenseness }

/-- The semitones of a key without a sharp, by its letter. -/
def semitone? : Char → Option Nat
  | 'C' => some 0
  | 'D' => some 2
  | 'E' => some 4
  | 'F' => some 5
  | 'G' => some 7
  | 'A' => some 9
  | 'B' => some 11
  | _ => none

/-- The key that a name denotes. -/
def key? : Text → Option Int
  | letter :: '#' :: octave => do
      let semitone ← semitone? letter
      let octave ← Decimal.int? octave
      return octave * 12 + (semitone + 1 : Nat)
  | letter :: octave => do
      let semitone ← semitone? letter
      let octave ← Decimal.int? octave
      return octave * 12 + semitone
  | [] => none

/-- The key and the bends that a field for the pitch denotes. -/
def pitch? (field : Text) : Option (Int × List Int) :=
  match field.splitOn '[' with
  | [name] => (key? name).map (fun key => (key, []))
  | [name, bends] =>
      if bends.getLast? = some ']' then do
        let key ← key? name
        let bends ← (bends.dropLast.splitOn ';').mapM Decimal.int?
        return (key, bends)
      else none
  | _ => none

/-- The entry that a record denotes. -/
def decode? (record : Text) : Option Entry :=
  match record.splitOn ',' with
  | [attenuation, consonant, breath, vowel, pitch, tick, onTick, offTick, tenseness] => do
      let attenuation ← Decimal.int? attenuation
      let (key, bends) ← pitch? pitch
      let tick ← Ticks.read? tick
      let onTick ← Ticks.read? onTick
      let offTick ← Ticks.read? offTick
      let tenseness ← Decimal.int? tenseness
      return { attenuation, consonant, breath, vowel, key, bends, tick, onTick, offTick, tenseness }
  | _ => none

/-- The entries of a text of records, each of which ends in a line feed. -/
def entries? (s : Text) : Option (List Entry) :=
  let lines := s.splitOn '\n'
  if lines.getLast? = some [] then lines.dropLast.mapM decode? else none

/-! ## Lists of fields -/

/-- Reading what was written, one after another. -/
theorem mapM_map_of_forall {α β γ : Type} {write : α → β} {read : β → Option γ} {f : α → γ}
    {xs : List α} (h : ∀ x ∈ xs, read (write x) = some (f x)) :
    (xs.map write).mapM read = some (xs.map f) := by
  induction xs with
  | nil => rfl
  | cons x xs ih =>
      rw [List.map_cons, List.mapM_cons, h x (by simp),
        ih (fun y hy => h y (List.mem_cons_of_mem _ hy))]
      rfl

theorem separate_eq (fs : List Text) : separate fs = [','].intercalate fs := by
  fun_induction separate fs with
  | case1 => rfl
  | case2 f => rw [List.intercalate_singleton]
  | case3 f fs hne ih => rw [List.intercalate_cons_of_ne_nil hne, ih]

theorem bendsText_eq (bs : List Int) :
    Mora.bendsText bs = [';'].intercalate (bs.map Decimal.ofInt) := by
  fun_induction Mora.bendsText bs with
  | case1 => rfl
  | case2 b => rw [List.map_singleton, List.intercalate_singleton]
  | case3 b bs hne ih =>
      rw [List.map_cons, List.intercalate_cons_of_ne_nil (by simpa using hne), ih]

/-! ## Characters of fields -/

section

variable {c : Char}

theorem className_subset (n : Nat) : className n ⊆ "ABCDEFG#".toList := by
  unfold className
  split <;> decide

theorem not_mem_keyName (hdigit : c.isDigit = false) (hsign : c ≠ '-')
    (hname : c ∉ "ABCDEFG#".toList) (key : Int) : c ∉ keyName key := by
  intro h
  rcases List.mem_append.mp h with h | h
  · exact hname (className_subset _ h)
  · exact Decimal.not_mem_ofInt hdigit hsign _ h

theorem not_mem_bendsText (hdigit : c.isDigit = false) (hsign : c ≠ '-') (hbetween : c ≠ ';')
    (bs : List Int) : c ∉ Mora.bendsText bs := by
  fun_induction Mora.bendsText bs with
  | case1 => simp
  | case2 b => exact Decimal.not_mem_ofInt hdigit hsign b
  | case3 b bs hne ih =>
      simp only [List.mem_append, List.mem_singleton, not_or]
      exact ⟨⟨Decimal.not_mem_ofInt hdigit hsign b, hbetween⟩, ih⟩

theorem not_mem_pitchName (hdigit : c.isDigit = false) (hmark : c ∉ "-;[]".toList)
    (hname : c ∉ "ABCDEFG#".toList) (m : Mora) : c ∉ m.pitchName := by
  have hne : ∀ d ∈ "-;[]".toList, c ≠ d := fun d hd hcd => hmark (hcd ▸ hd)
  have hkey : c ∉ keyName m.key := not_mem_keyName hdigit (hne '-' (by decide)) hname m.key
  have hbends : c ∉ Mora.bendsText m.bends :=
    not_mem_bendsText hdigit (hne '-' (by decide)) (hne ';' (by decide)) m.bends
  have hopen : c ≠ '[' := hne '[' (by decide)
  have hclose : c ≠ ']' := hne ']' (by decide)
  unfold Mora.pitchName
  split
  · exact hkey
  · simp [hkey, hbends, hopen, hclose]

theorem not_mem_breathTag (hdigit : c.isDigit = false) (hname : c ∉ "breath".toList) (m : Mora) :
    c ∉ m.breathTag := by
  intro h
  unfold Mora.breathTag Breath.tag at h
  split at h
  · cases h
  · rcases List.mem_append.mp h with h | h
    · exact hname h
    · rw [Decimal.isDigit_of_mem_ofNat h] at hdigit
      cases hdigit

end

/-- A comma and a line feed are in no field. -/
theorem not_mem_fields {c : Char} (hc : c = ',' ∨ c = '\n') {m : Mora} (hm : m.Separable) :
    ∀ f ∈ fields m, c ∉ f := by
  have hdigit : c.isDigit = false := by rcases hc with rfl | rfl <;> decide
  have hint : ∀ n, c ∉ Decimal.ofInt n :=
    Decimal.not_mem_ofInt hdigit (by rcases hc with rfl | rfl <;> decide)
  have hticks : ∀ t : Ticks, c ∉ Decimal.ofNat t.toNat := by
    intro t h
    rw [Decimal.isDigit_of_mem_ofNat h] at hdigit
    cases hdigit
  have hbreath : c ∉ m.breathTag :=
    not_mem_breathTag hdigit (by rcases hc with rfl | rfl <;> decide) m
  have hpitch : c ∉ m.pitchName :=
    not_mem_pitchName hdigit (by rcases hc with rfl | rfl <;> decide)
      (by rcases hc with rfl | rfl <;> decide) m
  have hconsonant : c ∉ m.consonant := by
    rcases hc with rfl | rfl
    · exact hm.consonant.1
    · exact hm.consonant.2
  have hvowel : c ∉ m.vowel := by
    rcases hc with rfl | rfl
    · exact hm.vowel.1
    · exact hm.vowel.2
  simp [fields, hint, hticks, hbreath, hpitch, hconsonant, hvowel]

/-- A record has its nine fields between its commas. -/
theorem splitOn_ofMora {m : Mora} (hm : m.Separable) : (ofMora m).splitOn ',' = fields m := by
  rw [ofMora, separate_eq]
  exact List.splitOn_intercalate ',' (not_mem_fields (Or.inl rfl) hm) (by simp [fields])

theorem not_mem_ofMora {m : Mora} (hm : m.Separable) : '\n' ∉ ofMora m := by
  have hfields := not_mem_fields (Or.inr rfl) hm
  have hseparate : ∀ fs : List Text, (∀ f ∈ fs, '\n' ∉ f) → '\n' ∉ separate fs := by
    intro fs
    fun_induction separate fs with
    | case1 => simp
    | case2 f => simp
    | case3 f fs hne ih =>
        intro h
        rw [List.forall_mem_cons] at h
        simp [h.1, ih h.2]
  exact hseparate _ hfields

theorem ofMorae_eq (ms : List Mora) :
    ofMorae ms = ['\n'].intercalate (ms.map ofMora ++ [[]]) := by
  induction ms with
  | nil => rfl
  | cons m ms ih =>
      rw [ofMorae, ih, List.map_cons, List.cons_append, List.intercalate_cons_of_ne_nil (by simp)]

/-- The records stand on lines of their own, and nothing comes after the last one. -/
theorem splitOn_ofMorae {ms : List Mora} (h : ∀ m ∈ ms, m.Separable) :
    (ofMorae ms).splitOn '\n' = ms.map ofMora ++ [[]] := by
  rw [ofMorae_eq]
  refine List.splitOn_intercalate '\n' (fun l hl => ?_) (by simp)
  rcases List.mem_append.mp hl with hl | hl
  · obtain ⟨m, hm, rfl⟩ := List.mem_map.mp hl
    exact not_mem_ofMora (h m hm)
  · rw [List.mem_singleton.mp hl]
    exact List.not_mem_nil

/-! ## Reading fields -/

theorem key?_sharp {letter : Char} {semitone : Nat} (h : semitone? letter = some semitone)
    (octave : Int) :
    key? (letter :: '#' :: Decimal.ofInt octave) = some (octave * 12 + (semitone + 1 : Nat)) := by
  simp [key?, h, Decimal.int?_ofInt]

theorem key?_natural {letter : Char} {semitone : Nat} (h : semitone? letter = some semitone)
    (octave : Int) :
    key? (letter :: Decimal.ofInt octave) = some (octave * 12 + semitone) := by
  have hsharp : ∀ s, Decimal.ofInt octave ≠ '#' :: s := by
    intro s hs
    refine Decimal.not_mem_ofInt (c := '#') (by decide) (by decide) octave ?_
    rw [hs]
    simp
  have hread := Decimal.int?_ofInt octave
  generalize Decimal.ofInt octave = s at hsharp hread
  unfold key?
  split
  · rename_i heq
    obtain ⟨-, rfl⟩ := List.cons.inj heq
    exact absurd rfl (hsharp _)
  · rename_i heq
    obtain ⟨rfl, rfl⟩ := List.cons.inj heq
    simp [h, hread]
  · cases ‹_›

theorem key?_className {n : Nat} (hn : n < 12) (octave : Int) :
    key? (className n ++ Decimal.ofInt octave) = some (octave * 12 + n) := by
  interval_cases n <;> first | exact key?_natural rfl octave | exact key?_sharp rfl octave

theorem key?_keyName (key : Int) : key? (keyName key) = some key := by
  have hn : (key % 12).toNat < 12 := by omega
  rw [keyName, key?_className hn]
  congr 1
  omega

theorem pitch?_pitchName (m : Mora) : pitch? m.pitchName = some (m.key, m.bends) := by
  have hname : '[' ∉ keyName m.key := not_mem_keyName (by decide) (by decide) (by decide) m.key
  unfold Mora.pitchName
  split
  · rename_i hbends
    have hsplit : (keyName m.key).splitOn '[' = [keyName m.key] := by
      rw [← List.splitOn_intercalate '[' (List.forall_mem_singleton.mpr hname) (by simp),
        List.intercalate_singleton]
    rw [pitch?, hsplit, List.isEmpty_iff.mp hbends]
    simp [key?_keyName]
  · rename_i hbends
    have hopen : '[' ∉ Mora.bendsText m.bends :=
      not_mem_bendsText (by decide) (by decide) (by decide) m.bends
    have hsplit : (keyName m.key ++ ['['] ++ Mora.bendsText m.bends ++ [']']).splitOn '['
        = [keyName m.key, Mora.bendsText m.bends ++ [']']] := by
      have hboth : ∀ l ∈ [keyName m.key, Mora.bendsText m.bends ++ [']']], '[' ∉ l := by
        simp [hname, hopen]
      rw [← List.splitOn_intercalate '[' hboth (by simp), List.intercalate_cons_cons,
        List.intercalate_singleton, List.append_assoc]
    have hbetween : ((Mora.bendsText m.bends).splitOn ';').mapM Decimal.int? = some m.bends := by
      rw [bendsText_eq, List.splitOn_intercalate ';' ?_ (by simpa using hbends)]
      · simpa using mapM_map_of_forall (f := id) (fun b _ => Decimal.int?_ofInt b)
      · intro l hl
        obtain ⟨b, -, rfl⟩ := List.mem_map.mp hl
        exact Decimal.not_mem_ofInt (by decide) (by decide) b
    rw [pitch?, hsplit]
    simp [key?_keyName, hbetween]

theorem decode?_ofMora {m : Mora} (hm : m.Separable) : decode? (ofMora m) = some (.ofMora m) := by
  rw [decode?, splitOn_ofMora hm]
  simp [fields, Decimal.int?_ofInt, pitch?_pitchName, Ticks.read?_ofNat, Entry.ofMora]

theorem entries?_ofMorae {ms : List Mora} (h : ∀ m ∈ ms, m.Separable) :
    entries? (ofMorae ms) = some (ms.map .ofMora) := by
  rw [entries?, splitOn_ofMorae h]
  simp [mapM_map_of_forall (fun m hm => decode?_ofMora (h m hm))]

end Record

/-- Letters of the lyrics separate nothing. -/
theorem Mora.Spelled.separable {m : Mora} (h : m.Spelled) : m.Separable := by
  refine ⟨⟨fun hc => ?_, fun hc => ?_⟩, ⟨fun hc => ?_, fun hc => ?_⟩⟩
  · exact absurd (h.consonant _ hc) (by decide)
  · exact absurd (h.consonant _ hc) (by decide)
  · exact absurd (h.vowel _ hc) (by decide)
  · exact absurd (h.vowel _ hc) (by decide)

/-- **Records are read back**, if the consonants and vowels have no comma and no line feed: every
record is a line of nine fields, and the entries are the ones that were written, in their order. The
morae of a compiled score have such consonants and vowels. -/
theorem Record.read_back :
    (∀ ms : List Mora, (∀ m ∈ ms, m.Separable) →
      entries? (ofMorae ms) = some (ms.map .ofMora) ∧
        (ofMorae ms).splitOn '\n' = ms.map ofMora ++ [[]] ∧
        ∀ m ∈ ms, (ofMora m).splitOn ',' = fields m ∧ (fields m).length = 9) ∧
      ∀ σ source ms, compile σ source = .ok ms → ∀ m ∈ ms, m.Separable := by
  refine ⟨fun ms h => ⟨entries?_ofMorae h, splitOn_ofMorae h, fun m hm => ?_⟩, ?_⟩
  · exact ⟨splitOn_ofMora (h m hm), rfl⟩
  · intro σ source ms h m hm
    exact (spelled_of_compile h m hm).separable

/-- A key below zero, a sharp, bends of both signs and the largest durations are read back, and so are
the morae of a source with breath digits and a coda. -/
theorem Record.read_back_kan_s40a :
    let ms : List Mora :=
      [{ attenuation := -2147483648, consonant := ['k'], breath := ['4', '0'], vowel := ['a'],
         key := -11, tick := 4294967295, onTick := 4294967295, bends := [0, -3, 8] },
        { consonant := ['n'], key := 127, offTick := 4294967295, tenseness := 2147483647 }]
    (∀ m ∈ ms, m.Separable) ∧ entries? (ofMorae ms) = some (ms.map .ofMora) ∧
      ∃ ms', compile {} "kan s40a\nc   d\n".toList = .ok ms' ∧ ∀ m ∈ ms', m.Separable := by
  intro ms
  obtain ⟨hread, hcompiled⟩ := read_back
  have hms : ∀ m ∈ ms, m.Separable := by
    simp only [ms, List.forall_mem_cons]
    exact ⟨⟨by decide, by decide⟩, ⟨by decide, by decide⟩, by simp⟩
  have hsource : compile {} "kan s40a\nc   d\n".toList = .ok
      [{ consonant := ['k'], vowel := ['a'], key := 48, tick := 110, offTick := 30 },
        { consonant := ['n'], key := 48, tick := 109, offTick := 109, bends := [0, 0, 0] },
        { consonant := ['s'], breath := ['4', '0'], vowel := ['a'], key := 50, tick := 220,
          offTick := 30 }] := by decide +kernel
  exact ⟨hms, (hread ms hms).1, _, hsource, hcompiled _ _ _ hsource⟩

end SungScore
