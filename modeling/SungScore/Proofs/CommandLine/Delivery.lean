import SungScore.CommandLine.Run
import SungScore.Proofs.CommandLine.Files

set_option autoImplicit false

/-!
# How a run ends

What a run is asked for is said by its arguments and by what it reads: a form, settings and a source
(`Asks`). It can fail for seven reasons (`Fails`). Then nothing is printed and the files are as before.
Otherwise the morae of the source are delivered, as the standard output or as the content of a file
(`Delivered`), and where the source comes from and where the text goes makes no difference to the text
(`run_delivers_finished`). All this holds with every toolkit: nothing is assumed of how it takes arguments
apart, reads configurations and writes documents.
-/

namespace SungScore.CommandLine

/-! ## What is asked for -/

/-- The form that goes by a name, or by none. -/
inductive Format.Chosen : Option Text → Format → Prop
  | unnamed : Chosen none .records
  | records : Chosen (some "records".toList) .records
  | yaml : Chosen (some "yaml".toList) .yaml

section

variable (t : Toolkit)

/-- The text of morae in a form. -/
inductive Format.Writes (ms : List Mora) : Format → Text → Prop
  | records : Writes ms .records (Record.ofMorae ms)
  | yaml {text : Text} (h : t.dump ms = .ok text) : Writes ms .yaml text

variable (files : Access (StateM Directory)) (d : Directory)

/-- The settings that the configuration with a name gives, or the fault in it. Without a name they are
the usual ones. -/
inductive Configures : Option Text → Except Failure Settings → Prop
  | usual : Configures none (.ok {})
  | unreadable {name reason : Text} (h : files.Refuses d name reason) :
      Configures (some name) (.error (.fault (.config (.unreadable name reason))))
  | document {name document : Text} (h : files.Gives d name document) :
      Configures (some name) ((Settings.ofDocument t.readConfig document).mapError .fault)

/-- The source with a name. Without a name it is the standard input. -/
inductive Sources : Option Text → Except Failure Text → Prop
  | input {source : Text} (h : files.input d = (.ok source, d)) : Sources none (.ok source)
  | unreadableInput {reason : Text} (h : files.input d = (.error reason, d)) :
      Sources none (.error (.unreadableInput reason))
  | file {name source : Text} (h : files.Gives d name source) : Sources (some name) (.ok source)
  | unreadable {name reason : Text} (h : files.Refuses d name reason) :
      Sources (some name) (.error (.unreadable name reason))

variable (a : Arguments)

/-- The arguments ask for the morae of a source in a form, under settings. -/
structure Asks (form : Format) (σ : Settings) (source : Text) : Prop where
  form : Format.Chosen (a.value? .format) form
  single : a.free.length ≤ 1
  settings : Configures t files d (a.value? .config) (.ok σ)
  source : Sources files d a.free.head? (.ok source)

/-- Why a run fails. -/
inductive Fails : Failure → Prop
  | unknownFormat {name : Text} (h : a.value? .format = some name)
      (hform : ∀ form, ¬ Format.Chosen (some name) form) : Fails (.unknownFormat name)
  | tooManyInputs (h : 1 < a.free.length) : Fails (.tooManyInputs t.usage)
  | settings {e : Failure} (h : Configures t files d (a.value? .config) (.error e)) : Fails e
  | source {e : Failure} (h : Sources files d a.free.head? (.error e)) : Fails e
  | score {σ : Settings} {source : Text} {f : Fault}
      (hσ : Configures t files d (a.value? .config) (.ok σ))
      (hsource : Sources files d a.free.head? (.ok source)) (h : compile σ source = .error f) :
      Fails (.fault f)
  | document {σ : Settings} {source reason : Text} {ms : List Mora}
      (hasks : Asks t files d a .yaml σ source) (hms : compile σ source = .ok ms)
      (h : t.dump ms = .error reason) : Fails (.unserializable reason)
  | output {form : Format} {σ : Settings} {source text name reason : Text} {ms : List Mora}
      (hasks : Asks t files d a form σ source) (hms : compile σ source = .ok ms)
      (htext : form.Writes t ms text) (hname : a.value? .output = some name)
      (h : files.Rejects d name text reason) : Fails (.unwritable name reason)

/-- A text is delivered: it goes to the standard output and no file changes, or it becomes the content of
the file that is named and nothing goes to the standard output. -/
inductive Delivered (text : Text) : Outcome → Directory → Prop
  | printed (h : a.value? .output = none) : Delivered text ⟨0, text, []⟩ d
  | written {name : Text} {after : Directory} (hname : a.value? .output = some name)
      (h : files.Takes d name text after) (hrewritten : d.Rewritten name text after) :
      Delivered text ⟨0, [], []⟩ after

end

variable {t : Toolkit} {files : Access (StateM Directory)} {d : Directory} {args : List Text}
  {a : Arguments} {form : Format} {ms : List Mora} {text : Text}

theorem Format.ofName?_eq_ok_iff {name? : Option Text} :
    Format.ofName? name? = .ok form ↔ Format.Chosen name? form := by
  constructor
  · intro h
    cases name? with
    | none =>
        cases h
        exact .unnamed
    | some name =>
        rw [ofName?] at h
        by_cases hrecords : name = "records".toList
        · rw [if_pos hrecords] at h
          cases h
          exact hrecords ▸ .records
        · rw [if_neg hrecords] at h
          by_cases hyaml : name = "yaml".toList
          · rw [if_pos hyaml] at h
            cases h
            exact hyaml ▸ .yaml
          · rw [if_neg hyaml] at h
            cases h
  · intro h
    cases h <;> decide

theorem Format.ofName?_eq_error {name? : Option Text} {name : Text}
    (h : Format.ofName? name? = .error name) : name? = some name := by
  cases name? with
  | none => cases h
  | some name' =>
      rw [ofName?] at h
      split_ifs at h
      cases h
      rfl

/-- Morae have a text in a form, unless the form is that of documents and no document can be written. -/
theorem Format.write_cases (t : Toolkit) (form : Format) (ms : List Mora) :
    (∃ text, form.write t ms = .ok text ∧ form.Writes t ms text) ∨
      form = .yaml ∧ ∃ reason, t.dump ms = .error reason ∧
        form.write t ms = .error (.unserializable reason) := by
  cases form with
  | records => exact .inl ⟨_, rfl, .records⟩
  | yaml =>
      rw [write]
      cases h : t.dump ms with
      | error reason => exact .inr ⟨rfl, reason, rfl, rfl⟩
      | ok text => exact .inl ⟨text, rfl, .yaml h⟩

/-! ## The course of a run -/

/-- Two steps, of which the first one leaves a state behind. -/
theorem bind_eq {τ α β : Type} {x : StateM τ α} {f : α → StateM τ β} {s s' : τ} {r : α}
    (h : x s = (r, s')) : (x >>= f) s = f r s' := by
  show StateT.bind x f s = _
  unfold StateT.bind
  rw [h]
  rfl

theorem Job.exists_configures (t : Toolkit) (hf : files.Faithful) (j : Job) (d : Directory) :
    ∃ r, Configures t files d j.config r ∧ j.settings t files d = (r, d) := by
  unfold Job.settings
  cases j.config with
  | none => exact ⟨_, .usual, rfl⟩
  | some name =>
      rcases hf.read d name with ⟨reason, h⟩ | ⟨document, h⟩
      · exact ⟨_, .unreadable h, bind_eq h⟩
      · exact ⟨_, .document h, bind_eq h.2⟩

theorem Job.exists_sources (hf : files.Faithful) (j : Job) (d : Directory) :
    ∃ r, Sources files d j.input r ∧ j.source files d = (r, d) := by
  unfold Job.source
  cases j.input with
  | none =>
      obtain ⟨reading, h⟩ := hf.input d
      cases reading with
      | error reason => exact ⟨_, .unreadableInput h, bind_eq h⟩
      | ok source => exact ⟨_, .input h, bind_eq h⟩
  | some name =>
      rcases hf.read d name with ⟨reason, h⟩ | ⟨source, h⟩
      · exact ⟨_, .unreadable h, bind_eq h⟩
      · exact ⟨_, .file h, bind_eq h.2⟩

/-- The job that arguments give, in a form. -/
def Arguments.job (a : Arguments) (form : Format) : Job where
  input := a.free.head?
  output := a.value? .output
  config := a.value? .config
  format := form

/-- Arguments without help give a job, or a reason why they fail. -/
theorem Request.read_cases (ha : t.parse args = .ok a) (hhelp : a.value? .help = none)
    (files : Access (StateM Directory)) (d : Directory) :
    (∃ e, Request.read t args = .error e ∧ Fails t files d a e) ∨
      ∃ form, Request.read t args = .ok (.job (a.job form)) ∧
        Format.Chosen (a.value? .format) form ∧ a.free.length ≤ 1 := by
  unfold Request.read
  rw [ha]
  dsimp only
  rw [hhelp, Option.isSome_none, if_neg Bool.false_ne_true]
  -- the form is looked up before the free arguments are counted
  cases hform : Format.ofName? (a.value? .format) with
  | error name =>
      have hname := Format.ofName?_eq_error hform
      refine .inl ⟨_, rfl, .unknownFormat hname fun form hchosen => ?_⟩
      rw [← hname, ← Format.ofName?_eq_ok_iff, hform] at hchosen
      cases hchosen
  | ok form =>
      dsimp only
      by_cases hfree : 1 < a.free.length
      · rw [if_pos hfree]
        exact .inl ⟨_, rfl, .tooManyInputs hfree⟩
      · rw [if_neg hfree]
        exact .inr ⟨form, rfl, Format.ofName?_eq_ok_iff.mp hform, Nat.le_of_not_lt hfree⟩

/-- The text of a job is finished before anything is written. -/
theorem Arguments.result_cases (t : Toolkit) (hf : files.Faithful) (d : Directory)
    (hform : Format.Chosen (a.value? .format) form) (hsingle : a.free.length ≤ 1) :
    (∃ e, (a.job form).result t files d = (.error e, d) ∧ Fails t files d a e) ∨
      ∃ σ source ms text, (a.job form).result t files d = (.ok text, d) ∧
        Asks t files d a form σ source ∧ compile σ source = .ok ms ∧ form.Writes t ms text := by
  obtain ⟨rσ, hσ, hsettings⟩ := (a.job form).exists_configures t hf d
  obtain ⟨rsource, hsource, hread⟩ := (a.job form).exists_sources hf d
  unfold Job.result
  rw [bind_eq hsettings]
  cases rσ with
  | error e => exact .inl ⟨e, rfl, .settings hσ⟩
  | ok σ =>
      dsimp only
      -- the files are still as they were, for reading leaves them
      rw [bind_eq hread]
      cases rsource with
      | error e => exact .inl ⟨e, rfl, .source hsource⟩
      | ok source =>
          dsimp only
          cases hms : compile σ source with
          | error f => exact .inl ⟨_, rfl, .score hσ hsource hms⟩
          | ok ms =>
              have hasks : Asks t files d a form σ source := ⟨hform, hsingle, hσ, hsource⟩
              rcases form.write_cases t ms with ⟨text, hwrite, htext⟩ | ⟨rfl, reason, hdump, hwrite⟩
              · exact .inr ⟨σ, source, ms, text, congrArg (·, d) hwrite, hasks, hms, htext⟩
              · exact .inl ⟨_, congrArg (·, d) hwrite, .document hasks hms hdump⟩

/-- How a run without help ends. -/
inductive Ends (t : Toolkit) (files : Access (StateM Directory)) (d : Directory) (a : Arguments) :
    Outcome → Directory → Prop
  | failed {e : Failure} (h : Fails t files d a e) : Ends t files d a (.of (.error e)) d
  | delivered {form : Format} {σ : Settings} {source text : Text} {ms : List Mora} {outcome : Outcome}
      {after : Directory} (hasks : Asks t files d a form σ source) (hms : compile σ source = .ok ms)
      (htext : form.Writes t ms text) (h : Delivered files d a text outcome after) :
      Ends t files d a outcome after

theorem Arguments.perform_ends (t : Toolkit) (hf : files.Faithful) (d : Directory)
    (hform : Format.Chosen (a.value? .format) form) (hsingle : a.free.length ≤ 1) :
    ∃ r after, (a.job form).perform t files d = (r, after) ∧ Ends t files d a (.of r) after := by
  rcases Arguments.result_cases t hf d hform hsingle with
    ⟨e, hresult, hfails⟩ | ⟨σ, source, ms, text, hresult, hasks, hms, htext⟩
  · refine ⟨.error e, d, ?_, .failed hfails⟩
    rw [Job.perform, bind_eq hresult]
    rfl
  · rw [Job.perform, bind_eq hresult]
    dsimp only
    cases houtput : (a.job form).output with
    | none => exact ⟨.ok text, d, rfl, .delivered hasks hms htext (.printed houtput)⟩
    | some name =>
        rcases hf.write d name text with ⟨reason, h⟩ | ⟨after, h⟩
        · exact ⟨.error _, d, bind_eq h, .failed (.output hasks hms htext houtput h)⟩
        · exact ⟨.ok [], after, bind_eq h.2,
            .delivered hasks hms htext (.written houtput h (Directory.rewritten_of_write h.1))⟩

theorem Toolkit.run_ends (hf : files.Faithful) (ha : t.parse args = .ok a)
    (hhelp : a.value? .help = none) (d : Directory) :
    ∃ outcome after, t.run files args d = (outcome, after) ∧ Ends t files d a outcome after := by
  unfold run
  rcases Request.read_cases ha hhelp files d with ⟨e, hread, hfails⟩ | ⟨form, hread, hform, hsingle⟩
  · rw [hread]
    exact ⟨_, _, rfl, .failed hfails⟩
  · obtain ⟨r, after, hperform, hends⟩ := Arguments.perform_ends t hf d hform hsingle
    rw [hread]
    exact ⟨_, _, bind_eq hperform, hends⟩

/-! ## Nothing is left open -/

theorem Format.Chosen.unique {name? : Option Text} {form form' : Format}
    (h : Format.Chosen name? form) (h' : Format.Chosen name? form') : form = form' :=
  Except.ok.inj ((Format.ofName?_eq_ok_iff.mpr h).symm.trans (Format.ofName?_eq_ok_iff.mpr h'))

theorem Format.Writes.unique {text' : Text} (h : form.Writes t ms text)
    (h' : form.Writes t ms text') : text = text' := by
  cases h with
  | records =>
      cases h'
      rfl
  | yaml h =>
      cases h' with
      | yaml h' => exact Except.ok.inj (h.symm.trans h')

theorem Configures.unique {name? : Option Text} {r r' : Except Failure Settings}
    (h : Configures t files d name? r) (h' : Configures t files d name? r') : r = r' := by
  cases h with
  | usual =>
      cases h'
      rfl
  | unreadable h =>
      cases h' with
      | unreadable h' => rw [h.unique h']
      | document h' => exact absurd h h'.not_refuses
  | document h =>
      cases h' with
      | unreadable h' => exact absurd h' h.not_refuses
      | document h' => rw [h.unique h']

theorem Sources.unique {name? : Option Text} {r r' : Except Failure Text}
    (h : Sources files d name? r) (h' : Sources files d name? r') : r = r' := by
  cases h with
  | input h =>
      cases h' with
      | input h' =>
          cases h.symm.trans h'
          rfl
      | unreadableInput h' => cases h.symm.trans h'
  | unreadableInput h =>
      cases h' with
      | input h' => cases h.symm.trans h'
      | unreadableInput h' =>
          cases h.symm.trans h'
          rfl
  | file h =>
      cases h' with
      | file h' => rw [h.unique h']
      | unreadable h' => exact absurd h' h.not_refuses
  | unreadable h =>
      cases h' with
      | file h' => exact absurd h h'.not_refuses
      | unreadable h' => rw [h.unique h']

variable {σ σ' : Settings} {source source' text' : Text} {form' : Format} {outcome : Outcome}
  {after : Directory}

theorem Asks.unique (h : Asks t files d a form σ source) (h' : Asks t files d a form' σ' source') :
    form = form' ∧ σ = σ' ∧ source = source' :=
  ⟨h.form.unique h'.form, Except.ok.inj (h.settings.unique h'.settings),
    Except.ok.inj (h.source.unique h'.source)⟩

theorem Delivered.unique (h : Delivered files d a text outcome after)
    (h' : Delivered files d a text' outcome after) : text = text' := by
  cases h with
  | printed h =>
      cases h' with
      | printed => rfl
      | written hname =>
          rw [h] at hname
          cases hname
  | written hname h hrewritten =>
      -- a printed text can be empty too, so that only the name tells the cases apart
      cases h' with
      | printed h' =>
          rw [hname] at h'
          cases h'
      | written hname' h' hrewritten' =>
          cases hname.symm.trans hname'
          exact Except.ok.inj (hrewritten.read.symm.trans hrewritten'.read)

/-- Where the morae of a source are asked for and their text is there, only the file for it is in the
way. -/
theorem Fails.exists_rejects (hasks : Asks t files d a form σ source) (hms : compile σ source = .ok ms)
    (htext : form.Writes t ms text) {e : Failure} (h : Fails t files d a e) :
    ∃ name reason, a.value? .output = some name ∧ files.Rejects d name text reason := by
  -- all other reasons contradict what is asked for or that there is a text
  cases h with
  | unknownFormat hname hform => exact absurd (hname ▸ hasks.form) (hform form)
  | tooManyInputs h => exact absurd hasks.single (Nat.not_le_of_lt h)
  | settings h => cases hasks.settings.unique h
  | source h => cases hasks.source.unique h
  | score hσ hsource h =>
      cases hasks.settings.unique hσ
      cases hasks.source.unique hsource
      cases hms.symm.trans h
  | document hasks' hms' h =>
      obtain ⟨rfl, rfl, rfl⟩ := hasks.unique hasks'
      cases hms.symm.trans hms'
      cases htext with
      | yaml htext => cases h.symm.trans htext
  | output hasks' hms' htext' hname h =>
      obtain ⟨rfl, rfl, rfl⟩ := hasks.unique hasks'
      cases hms.symm.trans hms'
      exact ⟨_, _, hname, htext.unique htext' ▸ h⟩

/-! ## Runs -/

theorem Delivered.exit_eq (h : Delivered files d a text outcome after) : outcome.exit = 0 := by
  cases h <;> rfl

theorem Delivered.not_rejects (h : Delivered files d a text outcome after) {name reason : Text}
    (hname : a.value? .output = some name) : ¬ files.Rejects d name text reason := by
  intro hrejects
  cases h with
  | printed h =>
      rw [hname] at h
      cases h
  | written hname' h =>
      cases hname.symm.trans hname'
      exact h.not_rejects hrejects

/-- A run fails exactly if there is a reason for it. -/
theorem Ends.exit_eq_one_iff (h : Ends t files d a outcome after) :
    outcome.exit = 1 ↔ ∃ e, Fails t files d a e := by
  cases h with
  | failed h => exact ⟨fun _ => ⟨_, h⟩, fun _ => rfl⟩
  | delivered hasks hms htext h =>
      constructor
      · intro hexit
        rw [h.exit_eq] at hexit
        cases hexit
      · rintro ⟨e, hfails⟩
        obtain ⟨name, reason, hname, hrejects⟩ := hfails.exists_rejects hasks hms htext
        exact absurd hrejects (h.not_rejects hname)

/-- A run that fails says why, and does nothing else. -/
theorem Ends.unchanged (h : Ends t files d a outcome after) (hexit : outcome.exit = 1) :
    outcome.output = [] ∧ after = d ∧ ∃ e, Fails t files d a e ∧ outcome = .of (.error e) := by
  cases h with
  | failed h => exact ⟨rfl, rfl, _, h, rfl⟩
  | delivered hasks hms htext h =>
      rw [h.exit_eq] at hexit
      cases hexit

theorem Ends.exists_delivered (h : Ends t files d a outcome after) (hexit : outcome.exit ≠ 1) :
    ∃ form σ source ms text, Asks t files d a form σ source ∧ compile σ source = .ok ms ∧
      form.Writes t ms text ∧ Delivered files d a text outcome after := by
  cases h with
  | failed => exact absurd rfl hexit
  | delivered hasks hms htext h => exact ⟨_, _, _, _, _, hasks, hms, htext, h⟩

/-- Two runs that ask for the same end with the same text, if one of them delivers a text and the other
one can write it. -/
theorem Ends.same_text {files' : Access (StateM Directory)} {d' after' : Directory} {a' : Arguments}
    {outcome' : Outcome} (h : Ends t files d a outcome after)
    (h' : Ends t files' d' a' outcome' after') (hasks : Asks t files d a form σ source)
    (hasks' : Asks t files' d' a' form σ source)
    (hdelivered : Delivered files d a text outcome after) :
    Delivered files' d' a' text outcome' after' ∨
      ∃ name reason, a'.value? .output = some name ∧ files'.Rejects d' name text reason := by
  cases h with
  | failed => cases hdelivered.exit_eq
  | delivered hasks₁ hms htext h =>
      -- what the first run has compiled is the source that both ask for
      obtain ⟨rfl, rfl, rfl⟩ := hasks.unique hasks₁
      obtain rfl := hdelivered.unique h
      cases h' with
      | failed hfails => exact .inr (hfails.exists_rejects hasks' hms htext)
      | delivered hasks₂ hms' htext' h' =>
          obtain ⟨rfl, rfl, rfl⟩ := hasks'.unique hasks₂
          cases hms.symm.trans hms'
          exact .inl (htext.unique htext' ▸ h')

/-- **Only finished results are written, and it does not matter where they come from and where they go.**
With help a run does nothing but print it, whatever the files are. Without it a run fails exactly if there
is a reason for that, and then it names a reason, prints nothing and changes no file. Otherwise the text
of the morae that are asked for is delivered. Any other run that asks for the same form, settings and
source delivers the same text, if it can be written. -/
theorem run_delivers_finished (t : Toolkit) (hf : files.Faithful) (ha : t.parse args = .ok a)
    (d : Directory) :
    ((a.value? .help).isSome → ∀ {m : Type → Type} [Monad m] (other : Access m),
        t.run other args = pure ⟨0, t.usage, []⟩) ∧
      (a.value? .help = none → ∃ outcome after, t.run files args d = (outcome, after) ∧
        (outcome.exit = 1 ↔ ∃ e, Fails t files d a e) ∧
        (outcome.exit = 1 → outcome.output = [] ∧ after = d ∧
          ∃ e, Fails t files d a e ∧ outcome = .of (.error e)) ∧
        (outcome.exit ≠ 1 → ∃ form σ source ms text, Asks t files d a form σ source ∧
          compile σ source = .ok ms ∧ form.Writes t ms text ∧
          Delivered files d a text outcome after) ∧
        ∀ form σ source text, Asks t files d a form σ source →
          Delivered files d a text outcome after →
          ∀ {files' : Access (StateM Directory)} {args' : List Text} {a' : Arguments} (d' : Directory),
            files'.Faithful → t.parse args' = .ok a' → a'.value? .help = none →
            Asks t files' d' a' form σ source →
            ∃ outcome' after', t.run files' args' d' = (outcome', after') ∧
              (Delivered files' d' a' text outcome' after' ∨
                ∃ name reason, a'.value? .output = some name ∧
                  files'.Rejects d' name text reason)) := by
  constructor
  · intro hhelp m _ other
    rw [Toolkit.run, Request.read, ha]
    dsimp only
    rw [if_pos hhelp]
    rfl
  · intro hhelp
    obtain ⟨outcome, after, hrun, hends⟩ := Toolkit.run_ends hf ha hhelp d
    refine ⟨outcome, after, hrun, hends.exit_eq_one_iff, hends.unchanged, hends.exists_delivered, ?_⟩
    intro form σ source text hasks hdelivered files' args' a' d' hf' ha' hhelp' hasks'
    obtain ⟨outcome', after', hrun', hends'⟩ := Toolkit.run_ends hf' ha' hhelp' d'
    exact ⟨outcome', after', hrun', hends.same_text hends' hasks hasks' hdelivered⟩

/-- A score in a file, written to a file in the directory above, and the same score from the standard
input. Both are read at half the usual speed. -/
theorem run_delivers_finished_song_and_input :
    let song : Text := "ka\nc\n".toList
    let d : Directory := .ofFiles [("slow".toList, "tempo: 60".toList), ("song".toList, song)]
    let text : Text := "0,k,,a,C4,440,0,30,0\n".toList
    let toFile : List Text := ["-o", "../out", "-c", "slow", "song"].map String.toList
    let toOutput : List Text := ["--config=./slow"].map String.toList
    (∃ after, run (Directory.access []) toFile d = (⟨0, [], []⟩, after) ∧
        d.Rewritten "../out".toList text after) ∧
      run (Directory.access song) toOutput d = (⟨0, text, []⟩, d) := by
  intro song d text toFile toOutput
  let t := Toolkit.standard
  let a : Arguments :=
    { options := [(.output, "../out".toList), (.config, "slow".toList)], free := ["song".toList] }
  let a' : Arguments := { options := [(.config, "./slow".toList)] }
  have hsettings : Settings.ofDocument t.readConfig "tempo: 60".toList = .ok { tickUnit := 440 } := by
    decide +kernel
  have hconfigures : ∀ input name, d.read name = .ok "tempo: 60".toList →
      Configures t (Directory.access input) d (some name) (.ok { tickUnit := 440 }) := by
    intro input name hread
    have h := Configures.document (t := t) (Directory.gives_access input hread)
    rwa [hsettings] at h
  have hasks : Asks t (Directory.access []) d a .records { tickUnit := 440 } song :=
    ⟨.unnamed, by decide, hconfigures _ _ (by decide +kernel),
      .file (Directory.gives_access _ (by decide +kernel))⟩
  have hasks' : Asks t (Directory.access song) d a' .records { tickUnit := 440 } song :=
    ⟨.unnamed, by decide, hconfigures _ _ (by decide +kernel), .input rfl⟩
  obtain ⟨ms, hms, hwrites⟩ : ∃ ms, compile { tickUnit := 440 } song = .ok ms ∧
      Format.records.Writes t ms text := by
    have h : (compile { tickUnit := 440 } song).map Record.ofMorae = .ok text := by decide +kernel
    cases hms : compile { tickUnit := 440 } song with
    | error f =>
        rw [hms] at h
        cases h
    | ok ms =>
        rw [hms] at h
        exact ⟨ms, rfl, Except.ok.inj h ▸ .records⟩
  have hwrite : d.write "../out".toList text
      = .ok { files := d.files ++ [(⟨.above 1, ["out".toList]⟩, text)] } := by decide +kernel
  have hparse : t.parse toFile = .ok a := by decide +kernel
  have hparse' : t.parse toOutput = .ok a' := by decide +kernel
  obtain ⟨outcome, after, hrun, hfails, -, hdone, hsame⟩ :=
    (run_delivers_finished t (Directory.faithful_access []) hparse d).2 rfl
  -- the run could fail for want of the file only, and that is taken
  have hexit : outcome.exit ≠ 1 := by
    rw [Ne, hfails]
    rintro ⟨e, he⟩
    obtain ⟨name, reason, hname, hrejects⟩ := he.exists_rejects hasks hms hwrites
    cases Option.some.inj hname
    exact (Directory.takes_access [] hwrite).not_rejects hrejects
  obtain ⟨form, σ, source, ms', text', hasks₁, hms', hwrites', hdelivered⟩ := hdone hexit
  obtain ⟨rfl, rfl, rfl⟩ := hasks.unique hasks₁
  cases hms.symm.trans hms'
  obtain rfl := hwrites.unique hwrites'
  obtain ⟨outcome', after', hrun', hdelivered' | ⟨name, reason, hname, -⟩⟩ :=
    hsame _ _ _ _ hasks hdelivered d (Directory.faithful_access song) hparse' rfl hasks'
  · constructor
    · cases hdelivered with
      | printed h => cases h
      | written hname htakes hrewritten =>
          cases Option.some.inj hname
          exact ⟨after, hrun, hrewritten⟩
    · cases hdelivered' with
      | printed => exact hrun'
      | written hname => cases hname
  · cases hname

end SungScore.CommandLine
