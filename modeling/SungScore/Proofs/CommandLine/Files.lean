import Mathlib.Tactic
import SungScore.CommandLine.Directory

set_option autoImplicit false

/-!
# Writing one file

A path is followed through directories only, so that all is a directory that lies above the place where
it ends (`Directory.reached_of_leads`). A file that is written there makes no directory, and it is all
that changes: it can be read back, every other place looks as before, and paths to other places find what
they did (`Directory.rewritten_of_write`).

An access to a directory is faithful if it gives and writes what the directory does, or refuses and leaves
the files as they are (`Access.Faithful`).
-/

namespace SungScore.CommandLine

/-- The second place is the first or lies below it. -/
def Place.IsOver (q p : Place) : Prop := q.origin = p.origin ∧ q.names <+: p.names

theorem Place.eq_of_isOver_of_nil {q p : Place} (h : q.IsOver p) (hp : p.names = []) : q = p := by
  obtain ⟨origin, names⟩ := p
  obtain ⟨origin', names'⟩ := q
  obtain ⟨horigin, hnames⟩ := h
  dsimp only at hp horigin hnames
  subst hp horigin
  rw [List.prefix_nil.mp hnames]

namespace Directory

variable {d d' : Directory} {p q : Place} {path content : Text}

/-! ## What is found -/

theorem look_eq_file_iff : d.look p = .file content ↔ d.files.lookup p = some content := by
  unfold look
  cases d.files.lookup p with
  | some c => simp
  | none =>
      dsimp only
      split <;> simp

/-- A directory is what has a file below it, and each origin. -/
theorem look_eq_directory_iff :
    d.look p = .directory ↔
      d.files.lookup p = none ∧ (p.names = [] ∨ ∃ f ∈ d.files, p.IsOver f.1) := by
  unfold look
  cases d.files.lookup p with
  | some c => simp
  | none =>
      dsimp only
      split <;> rename_i h <;> simpa [Place.IsOver, imp_iff_not_or] using h

/-- A place looks the same if it holds the same file, and if it is a directory in both or in none. -/
theorem look_eq_look (hfile : ∀ content, d'.look p = .file content ↔ d.look p = .file content)
    (hdirectory : d'.look p = .directory ↔ d.look p = .directory) : d'.look p = d.look p := by
  cases h : d.look p with
  | file content => exact (hfile content).mpr h
  | directory => exact hdirectory.mpr h
  | nothing =>
      cases h' : d'.look p with
      | file content => cases h.symm.trans ((hfile content).mp h')
      | directory => cases h.symm.trans (hdirectory.mp h')
      | nothing => rfl

/-! ## One file put among others -/

theorem lookup_cons_eq (p q : Place) (content : Text) (files : List (Place × Text)) :
    ((p, content) :: files).lookup q = if q = p then some content else files.lookup q := by
  rw [List.lookup_cons]
  by_cases hq : q = p
  · rw [if_pos hq, beq_iff_eq.mpr hq]
  · rw [if_neg hq, beq_eq_false_iff_ne.mpr hq]

theorem lookup_put (p q : Place) (content : Text) (files : List (Place × Text)) :
    (put p content files).lookup q = if q = p then some content else files.lookup q := by
  induction files with
  | nil => rw [put, lookup_cons_eq]
  | cons f files ih =>
      obtain ⟨p', content'⟩ := f
      unfold put
      by_cases hp : p' = p
      · rw [if_pos hp, lookup_cons_eq, lookup_cons_eq, hp]
        by_cases hq : q = p <;> simp [hq]
      · rw [if_neg hp, lookup_cons_eq, lookup_cons_eq, ih]
        -- the file that is passed is another one
        by_cases hq : q = p'
        · rw [if_pos hq, if_pos hq, if_neg (hq.trans_ne hp)]
        · rw [if_neg hq, if_neg hq]

theorem exists_mem_put_iff (P : Place → Prop) (p : Place) (content : Text)
    (files : List (Place × Text)) :
    (∃ f ∈ put p content files, P f.1) ↔ P p ∨ ∃ f ∈ files, P f.1 := by
  induction files with
  | nil => simp [put]
  | cons f files ih =>
      unfold put
      by_cases hp : f.1 = p
      · subst hp
        simp
      · rw [if_neg hp]
        simp only [List.exists_mem_cons_iff, ih]
        tauto

/-- All that lies above a place is a directory. -/
def Reached (d : Directory) (p : Place) : Prop := ∀ q : Place, q.IsOver p → q ≠ p → d.look q = .directory

/-- A file at a place that is reached is all that looks different. -/
theorem look_put (hp : d.Reached p) (content : Text) (q : Place) :
    ({ files := put p content d.files } : Directory).look q
      = if q = p then .file content else d.look q := by
  by_cases hq : q = p
  · rw [if_pos hq, look_eq_file_iff, lookup_put, if_pos hq]
  · have hlookup : (put p content d.files).lookup q = d.files.lookup q := by
      rw [lookup_put, if_neg hq]
    rw [if_neg hq]
    refine look_eq_look (fun c => ?_) ?_
    · rw [look_eq_file_iff, look_eq_file_iff, hlookup]
    · rw [look_eq_directory_iff, look_eq_directory_iff, hlookup, exists_mem_put_iff]
      -- where the new file is below, there was a directory already
      have habove : q.IsOver p → q.names = [] ∨ ∃ f ∈ d.files, q.IsOver f.1 :=
        fun h => (look_eq_directory_iff.mp (hp q h hq)).2
      tauto

/-! ## Following paths -/

theorem checkDirectory_eq_ok_iff : d.checkDirectory p = .ok () ↔ d.look p = .directory := by
  unfold checkDirectory
  cases d.look p <;> simp

theorem follow_cons_eq_ok_iff {c : Text} {cs : List Text} :
    d.follow p (c :: cs) = .ok q ↔
      d.look p = .directory ∧ byteCount c ≤ 255 ∧ d.follow (p.enter c) cs = .ok q := by
  rw [← checkDirectory_eq_ok_iff, follow]
  cases d.checkDirectory p with
  | error e => simp
  | ok u =>
      by_cases hc : 255 < byteCount c
      · simp [hc]
      · simp [hc, Nat.le_of_not_lt hc]

/-- The way to a place depends on nothing but where the directories are. -/
theorem follow_congr (h : ∀ q, d'.look q = .directory ↔ d.look q = .directory) (p q : Place)
    (cs : List Text) : d'.follow p cs = .ok q ↔ d.follow p cs = .ok q := by
  induction cs generalizing p with
  | nil => rw [follow, follow]
  | cons c cs ih => rw [follow_cons_eq_ok_iff, follow_cons_eq_ok_iff, h p, ih]

theorem Reached.of_nil (hp : p.names = []) : d.Reached p :=
  fun _ hover hne => absurd (Place.eq_of_isOver_of_nil hover hp) hne

/-- One step from a directory keeps to the places below directories. -/
theorem Reached.enter (hp : d.Reached p) (hdirectory : d.look p = .directory) (c : Text) :
    d.Reached (p.enter c) := by
  unfold Place.enter
  split
  · exact hp
  · split
    -- up: what is over the place above is over the place that is left
    · split
      · rename_i hnil
        exact .of_nil (List.isEmpty_iff.mp hnil)
      · rename_i hnil
        rintro q ⟨horigin, hnames⟩ -
        refine hp q ⟨horigin, hnames.trans (List.dropLast_prefix _)⟩ ?_
        rintro rfl
        have hlength := hnames.length_le
        rw [List.length_dropLast] at hlength
        have := List.length_pos_iff.mpr (fun h => hnil (List.isEmpty_iff.mpr h))
        omega
    -- down: only the place that is left is new above
    · rintro q ⟨horigin, hnames⟩ hne
      by_cases hq : q = p
      · rw [hq]
        exact hdirectory
      · rcases List.prefix_concat_iff.mp hnames with hall | hless
        · exact absurd (by cases q; cases horigin; cases hall; rfl) hne
        · exact hp q ⟨horigin, hless⟩ hq

theorem Reached.follow (hp : d.Reached p) {cs : List Text} (h : d.follow p cs = .ok q) :
    d.Reached q := by
  induction cs generalizing p with
  | nil =>
      rw [Directory.follow] at h
      cases h
      exact hp
  | cons c cs ih =>
      obtain ⟨hdirectory, -, h⟩ := follow_cons_eq_ok_iff.mp h
      exact ih (hp.enter hdirectory c) h

/-- The path ends at the place. -/
def Leads (d : Directory) (path : Text) (p : Place) : Prop :=
  d.follow (.start path) (components path) = .ok p

theorem reached_of_leads (h : d.Leads path p) : d.Reached p := by
  refine Reached.follow (.of_nil ?_) h
  unfold Place.start
  split <;> rfl

/-! ## Reading and writing -/

theorem read_eq_ok_iff :
    d.read path = .ok content ↔
      checkPath path = .ok () ∧ isOpen path = false ∧
        ∃ p, d.Leads path p ∧ d.look p = .file content := by
  unfold read Leads
  cases checkPath path with
  | error e => simp [bind, Except.bind]
  | ok u =>
      simp only [bind, Except.bind, true_and]
      cases d.follow (.start path) (components path) with
      | error e => simp
      | ok p =>
          dsimp only
          cases hlook : d.look p <;> cases isOpen path <;> simp [hlook]

theorem write_eq_ok_iff :
    d.write path content = .ok d' ↔
      checkPath path = .ok () ∧ isOpen path = false ∧
        ∃ p, d.Leads path p ∧ d.look p ≠ .directory ∧ d' = { files := put p content d.files } := by
  unfold write Leads
  cases checkPath path with
  | error e => simp [bind, Except.bind]
  | ok u =>
      simp only [bind, Except.bind, true_and]
      cases isOpen path with
      | true =>
          cases d.follow (.start path) (components path).dropLast with
          | error e => simp
          | ok p => cases hcheck : d.checkDirectory p <;> simp [hcheck]
      | false =>
          cases d.follow (.start path) (components path) with
          | error e => simp
          | ok p => by_cases hlook : d.look p = .directory <;> simp [hlook, @eq_comm _ d']

/-- The file with a path has got a content, and all other files are as before. -/
structure Rewritten (d : Directory) (path content : Text) (d' : Directory) : Prop where
  /-- The content is what is read. -/
  read : d'.read path = .ok content
  /-- All places but the one where the path ends look the same. -/
  look : ∃ p, d.Leads path p ∧ ∀ q, d'.look q = if q = p then .file content else d.look q
  /-- Paths that do not end there have the same files. -/
  others : ∀ other, (∀ p, d.Leads path p → ¬ d.Leads other p) →
    ∀ c, d'.read other = .ok c ↔ d.read other = .ok c

/-- **A text that is written becomes the whole content of one file**, and nothing else changes. -/
theorem rewritten_of_write (h : d.write path content = .ok d') : d.Rewritten path content d' := by
  obtain ⟨hpath, hopen, p, hleads, hdirectory, rfl⟩ := write_eq_ok_iff.mp h
  have hlook := look_put (reached_of_leads hleads) content
  have hdirectories : ∀ q, ({ files := put p content d.files } : Directory).look q = .directory ↔
      d.look q = .directory := by
    intro q
    rw [hlook]
    by_cases hq : q = p
    · simp [hq, hdirectory]
    · rw [if_neg hq]
  have hleads_iff : ∀ other q, ({ files := put p content d.files } : Directory).Leads other q ↔
      d.Leads other q := fun other q => follow_congr hdirectories _ q _
  refine ⟨?_, ⟨p, hleads, hlook⟩, fun other hother c => ?_⟩
  · refine read_eq_ok_iff.mpr ⟨hpath, hopen, p, (hleads_iff path p).mpr hleads, ?_⟩
    rw [hlook, if_pos rfl]
  · rw [read_eq_ok_iff, read_eq_ok_iff]
    refine and_congr_right fun _ => and_congr_right fun _ => exists_congr fun q => ?_
    rw [hleads_iff]
    refine and_congr_right fun hq => ?_
    have hne : q ≠ p := by
      rintro rfl
      exact hother q hleads hq
    rw [hlook, if_neg hne]

end Directory

/-! ## Access to a directory -/

namespace Access

variable (files : Access (StateM Directory)) (d : Directory)

/-- The access gives the content of a file. -/
def Gives (name text : Text) : Prop := d.read name = .ok text ∧ files.read name d = (.ok text, d)

/-- The access refuses to give the content of a file. -/
def Refuses (name reason : Text) : Prop := files.read name d = (.error reason, d)

/-- The access makes a text the content of a file and leaves another directory behind. -/
def Takes (name text : Text) (after : Directory) : Prop :=
  d.write name text = .ok after ∧ files.write name text d = (.ok (), after)

/-- The access does not take a text. All files stay as they are. -/
def Rejects (name text reason : Text) : Prop := files.write name text d = (.error reason, d)

/-- An access to the files of a directory. It may refuse more than the directory does, such as for want
of rights or of space, or because a content is no text. -/
structure Faithful : Prop where
  read : ∀ d name, (∃ reason, files.Refuses d name reason) ∨ ∃ text, files.Gives d name text
  write : ∀ d name text,
    (∃ reason, files.Rejects d name text reason) ∨ ∃ after, files.Takes d name text after
  input : ∀ d, ∃ reading, files.input d = (reading, d)

variable {files d} {name text reason : Text}

/-- A file has one content. -/
theorem Gives.unique {text' : Text} (h : files.Gives d name text) (h' : files.Gives d name text') :
    text = text' :=
  Except.ok.inj (h.1.symm.trans h'.1)

/-- A file that can be read is not refused. -/
theorem Gives.not_refuses (h : files.Gives d name text) : ¬ files.Refuses d name reason := by
  intro h'
  cases h.2.symm.trans h'

theorem Refuses.unique {reason' : Text} (h : files.Refuses d name reason)
    (h' : files.Refuses d name reason') : reason = reason' :=
  Except.error.inj (Prod.mk.inj (h.symm.trans h')).1

theorem Takes.not_rejects {after : Directory} (h : files.Takes d name text after) :
    ¬ files.Rejects d name text reason := by
  intro h'
  cases h.2.symm.trans h'

end Access

section

variable {d after : Directory} {name text : Text}

theorem Directory.gives_access (input : Text) (h : d.read name = .ok text) :
    (access input).Gives d name text :=
  ⟨h, by simp only [access, h]⟩

theorem Directory.takes_access (input : Text) (h : d.write name text = .ok after) :
    (access input).Takes d name text after :=
  ⟨h, by simp only [access, h]⟩

end

/-- The access that a directory gives refuses nothing more. -/
theorem Directory.faithful_access (input : Text) : (access input).Faithful where
  read d name := by
    cases h : d.read name with
    | error e => exact .inl ⟨e.reason, by simp only [Access.Refuses, access, h]⟩
    | ok text => exact .inr ⟨text, gives_access input h⟩
  write d name text := by
    cases h : d.write name text with
    | error e => exact .inl ⟨e.reason, by simp only [Access.Rejects, access, h]⟩
    | ok after => exact .inr ⟨after, takes_access input h⟩
  input _ := ⟨_, rfl⟩

end SungScore.CommandLine
