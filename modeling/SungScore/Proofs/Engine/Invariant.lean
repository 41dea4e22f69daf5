import SungScore.Proofs.Engine.Conservation

set_option autoImplicit false

/-!
# What always holds of an engine

Whatever is fed to an engine, and whether or not it is refused, the engine stays *coherent*: notes
are kept for a current syllable only and no sound among them follows a rest, something is carried
only where there is a mora before it, and all morae are plain (`Engine.Coherent`).

Each part is needed for another one. Since no sound follows a rest, a phrase begins with a pitch and
has a key. Since something is carried only behind a mora, a coda that is carried finds the key of
that mora. So a coherent engine never lacks a key (`Reachable.coherent`), and what it carries comes
out of a phrase that was sung.
-/

namespace SungScore

/-- The fault of a note or a coda for which there is no key. -/
def Fault.lacksKey : Fault → Bool
  | misplaced _ _ _ cause => cause == .noPitch || cause == .noPrecedingNote
  | _ => false

/-- No sound follows a rest exactly if all sounds come before all rests. -/
theorem Note.restsLast_iff {ns : List Note} :
    RestsLast ns ↔ ∃ sounds rests, ns = sounds ++ rests ∧ (∀ n ∈ sounds, n.isRest = false) ∧
      ∀ n ∈ rests, n.isRest = true := by
  constructor
  · intro h
    induction ns with
    | nil => exact ⟨[], [], rfl, by simp, by simp⟩
    | cons n ns ih =>
        obtain ⟨hn, hns⟩ := List.pairwise_cons.mp h
        cases hr : n.isRest with
        | true =>
            refine ⟨[], n :: ns, rfl, by simp, fun m hm => ?_⟩
            rcases List.mem_cons.mp hm with rfl | hm
            · exact hr
            · exact hn m hm hr
        | false =>
            obtain ⟨sounds, rests, rfl, hsounds, hrests⟩ := ih hns
            refine ⟨n :: sounds, rests, rfl, fun m hm => ?_, hrests⟩
            rcases List.mem_cons.mp hm with rfl | hm
            · exact hr
            · exact hsounds m hm
  · rintro ⟨sounds, rests, rfl, hsounds, hrests⟩
    refine List.pairwise_append.mpr ⟨?_, ?_, fun m _ n hn _ => hrests n hn⟩
    · refine List.pairwise_of_forall_mem_list (fun m hm n _ hr => ?_)
      rw [hsounds m hm] at hr
      cases hr
    · exact List.pairwise_of_forall_mem_list (fun m _ n hn _ => hrests n hn)

namespace Engine

/-- What always holds of an engine. -/
structure Coherent (e : Engine) : Prop where
  notesBelong : e.NotesBelong
  /-- No sound among the notes follows a rest. -/
  restsLast : Note.RestsLast e.notes.toList
  /-- What is carried has ticks and comes after a mora, and a coda has letters. -/
  carried : ∀ c, e.carried = some c →
    e.morae ≠ #[] ∧ 0 < c.ticks ∧ ∀ text t, c = .coda text t → text ≠ []
  plain : e.PlainSoFar

theorem coherent_new : Coherent {} :=
  ⟨fun _ => rfl, List.Pairwise.nil, fun _ h => (by cases h), fun _ h => (by cases h)⟩

variable {σ : Settings} {line : Nat} {e e' : Engine} {f : Fault}

theorem lastKey?_ne_none (h : e.morae ≠ #[]) : e.lastKey? ≠ none := by
  rw [lastKey?, Ne, Option.map_eq_none_iff, Array.back?_eq_none_iff]
  exact h

/-! ## Single steps -/

/-- How finishing a syllable can fail: there is no phrase, no key, or the phrase does not fit what
was carried. -/
theorem close_error (h : close σ line e = .error f e') :
    ∃ s, e.current = some s ∧ e'.current = none ∧ e'.notes = #[] ∧ e'.morae = e.morae ∧
      (e'.carried = e.carried ∨ e'.carried = none) ∧
      (Phrase.ofNotes line s e.notes.toList = .error f ∨
        ∃ p, Phrase.ofNotes line s e.notes.toList = .ok p ∧
          ((p.first.key? σ = none ∧ f = p.first.fault line .noPitch) ∨
            ∃ key, p.openWith line e.lastKey? (p.firstMora σ key) e.carried = .error f)) := by
  unfold close at h
  split at h
  · cases h
  · rename_i s hs
    refine ⟨s, hs, ?_⟩
    dsimp only at h
    split at h
    · rename_i g hg
      cases h
      exact ⟨rfl, rfl, rfl, Or.inl rfl, Or.inl hg⟩
    · rename_i p hp
      unfold sing at h
      split at h
      · rename_i hkey
        cases h
        have hnone := (Option.or_eq_none_iff.mp hkey).1
        exact ⟨rfl, rfl, rfl, Or.inl rfl, Or.inr ⟨p, hp, Or.inl ⟨hnone, rfl⟩⟩⟩
      · rename_i key hkey
        split at h
        · rename_i g hg
          cases h
          exact ⟨rfl, rfl, rfl, Or.inr rfl, Or.inr ⟨p, hp, Or.inr ⟨key, hg⟩⟩⟩
        · cases h

theorem Coherent.close_ok (he : e.Coherent) {u : Unit} (h : close σ line e = .ok u e') :
    e'.Coherent := by
  have hplain := plainSoFar_of_close h he.plain
  rcases Engine.close_ok h with ⟨-, rfl⟩ | ⟨s, p, key, opening, -, -, -, hopen, rfl⟩
  · exact he
  · refine ⟨fun _ => rfl, List.Pairwise.nil, fun c hc => ?_, hplain⟩
    refine ⟨?_, p.carry_eq_some σ hc⟩
    -- what is carried out of the phrase comes after its opening
    intro hnil
    have hlist := congrArg Array.toList hnil
    rw [Array.toList_appendList, List.append_eq_nil_iff, List.append_eq_nil_iff] at hlist
    exact p.openWith_ne_nil hopen hlist.2.1

theorem Coherent.close_error (he : e.Coherent) (h : close σ line e = .error f e') :
    e'.Coherent ∧ f.lacksKey = false := by
  obtain ⟨s, -, hcurrent, hnotes, hmorae, hcarried, hf⟩ := Engine.close_error h
  constructor
  · refine ⟨fun _ => hnotes, by simp [hnotes, Note.RestsLast], fun c hc => ?_, ?_⟩
    · rcases hcarried with hsame | hnone
      · rw [hmorae]
        exact he.carried c (by rw [← hsame]; exact hc)
      · rw [hnone] at hc
        cases hc
    · rw [PlainSoFar, hmorae]
      exact he.plain
  · rcases hf with hf | ⟨p, hp, ⟨hkey, -⟩ | ⟨key, hopen⟩⟩
    · rcases Phrase.ofNotes_error hf with hf | rfl | rfl
      · obtain ⟨n, -, rfl | ⟨-, rfl⟩⟩ := Note.runs_error hf
        · rfl
        · rfl
      · rfl
      · rfl
    · -- the first note is pitched
      obtain ⟨key, hk⟩ := Note.key?_of_isPitched σ (Phrase.isPitched_first hp he.restsLast)
      rw [hk] at hkey
      cases hkey
    · rcases p.openWith_error hopen with ⟨t, -, -, rfl⟩ | ⟨hnone, text, t, hcoda, -⟩
      · rfl
      · -- a coda that is carried comes after a mora
        exact absurd hnone (lastKey?_ne_none (he.carried _ hcoda).1)

theorem keeps_close (σ : Settings) (line : Nat) :
    Keeps Coherent (fun f => f.lacksKey = false) (close σ line) :=
  ⟨fun he h => he.close_ok h, fun he h => he.close_error h⟩

theorem keeps_feedSyllable (σ : Settings) (line : Nat) (s : Syllable) :
    Keeps Coherent (fun f => f.lacksKey = false) (feedSyllable σ line s) := by
  refine (keeps_close σ line).bind (fun _ => ⟨fun he h => ?_, fun _ h => (by cases h)⟩)
  cases h
  exact ⟨fun hnone => (by cases hnone), he.restsLast, he.carried, he.plain⟩

theorem keeps_feedNote (line : Nat) (n : Note) :
    Keeps Coherent (fun f => f.lacksKey = false) (feedNote line n) := by
  constructor
  · intro e u e' he h
    obtain ⟨⟨s, hs⟩, rfl, hlast⟩ := feedNote_ok h
    refine ⟨fun hnone => ?_, ?_, he.carried, he.plain⟩
    · rw [hs] at hnone
      cases hnone
    · rw [Array.toList_push]
      refine he.restsLast.concat (fun last hl hr => hlast last ?_ hr)
      rw [← Array.getLast?_toList]
      exact hl
  · intro e f e' he h
    obtain ⟨rfl, ⟨-, rfl⟩ | ⟨last, -, -, -, rfl⟩⟩ := feedNote_error h
    · exact ⟨he, rfl⟩
    · exact ⟨he, rfl⟩

/-! ## Calls -/

theorem keeps_feed (c : Cue Event) : Keeps Coherent (fun f => f.lacksKey = false) (feed c) := by
  obtain ⟨σ, line, what⟩ := c
  cases what with
  | syllable s => exact keeps_feedSyllable σ line s
  | note n => exact keeps_feedNote line n

theorem keeps_feedAll (cs : List (Cue Event)) :
    Keeps Coherent (fun f => f.lacksKey = false) (feedAll cs) := by
  induction cs with
  | nil => exact Keeps.pure _ _ ()
  | cons c cs ih => exact (keeps_feed c).bind (fun _ => ih)

theorem keeps_refuse (ss : List Syllable) :
    Keeps Coherent (fun f => f.lacksKey = false) (refuse ss) := by
  cases ss with
  | nil => exact Keeps.pure _ _ ()
  | cons s ss => exact ⟨fun _ h => (by cases h), fun he h => (by cases h; exact ⟨he, rfl⟩)⟩

theorem keeps_perform (c : Cue Call) :
    Keeps Coherent (fun f => f.lacksKey = false) (perform c) := by
  obtain ⟨σ, line, what⟩ := c
  cases what with
  | event x => exact keeps_feed ⟨σ, line, x⟩
  | merge lyrics melody =>
      show Keeps _ _ (merge σ line lyrics melody)
      rw [merge_eq]
      exact (keeps_feedAll _).bind (fun _ => keeps_refuse _)

/-- How the end can fail: the last syllable cannot be finished, or its coda finds no key. -/
theorem finish_error (h : e.finish σ line = .error f) :
    (∃ e', close σ line e = .error f e') ∨
      ∃ e' text t, close σ line e = .ok () e' ∧ e'.carried = some (.coda text t) ∧
        e'.lastKey? = none ∧ f = .misplaced line 1 text .noPrecedingNote := by
  unfold finish at h
  split at h
  · rename_i g e' hclose
    cases h
    exact Or.inl ⟨e', hclose⟩
  · rename_i e' hclose
    unfold withFinalCoda at h
    split at h
    · rename_i text t hcoda
      split at h
      · cases h
      · rename_i hnone
        cases h
        exact Or.inr ⟨e', text, t, hclose, hcoda, hnone, rfl⟩
    · cases h
    · cases h

theorem lacksKey_finish (he : e.Coherent) (h : e.finish σ line = .error f) :
    f.lacksKey = false := by
  rcases finish_error h with ⟨e', hclose⟩ | ⟨e', text, t, hclose, hcoda, hnone, -⟩
  · exact (he.close_error hclose).2
  · -- the last coda comes after a mora, too
    exact absurd hnone (lastKey?_ne_none ((he.close_ok hclose).carried _ hcoda).1)

/-! ## Runs -/

/-- The engines that calls can lead to, with the engines that calls leave when they fail. -/
inductive Reachable : Engine → Prop
  | new : Reachable {}
  | succeeded {e e' : Engine} (c : Cue Call) (he : Reachable e) (h : perform c e = .ok () e') :
      Reachable e'
  | failed {e e' : Engine} {f : Fault} (c : Cue Call) (he : Reachable e)
      (h : perform c e = .error f e') : Reachable e'

/-- **Every engine is coherent**, whatever was fed to it and refused. -/
theorem Reachable.coherent (h : Reachable e) : e.Coherent := by
  induction h with
  | new => exact coherent_new
  | succeeded c _ hc ih => exact (keeps_perform c).ok ih hc
  | failed c _ hc ih => exact ((keeps_perform c).error ih hc).1

/-- **The invariant of the engine.** After any calls, of which some may have failed, there are no
notes without a current syllable, the notes are sounds and then rests, what is carried comes after a
mora, and all morae are as they are sung. So no further call fails because a key is missing, and
neither does the end of the score. -/
theorem reachable_invariant (e : Engine) (h : Reachable e) :
    (e.current = none → e.notes = #[])
      ∧ (∃ sounds rests, e.notes.toList = sounds ++ rests ∧ (∀ n ∈ sounds, n.isRest = false) ∧
          ∀ n ∈ rests, n.isRest = true)
      ∧ (∀ c, e.carried = some c →
          e.morae ≠ #[] ∧ 0 < c.ticks ∧ ∀ text t, c = .coda text t → text ≠ [])
      ∧ (∀ m ∈ e.morae.toList, m.bends = [] ∧ m.attenuation = 0 ∧ m.tenseness = 0 ∧
          m.onTick.toNat + m.offTick.toNat ≤ m.tick.toNat)
      ∧ (∀ c f e', perform c e = .error f e' → f.lacksKey = false)
      ∧ (∀ σ line f, e.finish σ line = .error f → f.lacksKey = false) := by
  have he := h.coherent
  refine ⟨he.notesBelong, Note.restsLast_iff.mp he.restsLast, he.carried, fun m hm => ?_,
    fun c f e' hc => ((keeps_perform c).error he hc).2, fun σ line f hf => lacksKey_finish he hf⟩
  have hplain := he.plain m hm
  exact ⟨hplain.bends_eq, hplain.attenuation_eq, hplain.tenseness_eq, hplain.room⟩

/-- A note without a syllable is refused, a pair of lines is taken, and a syllable that has a rest
only is lost. The coda before it is still carried. -/
theorem reachable_invariant_kan_sa :
    let e : Engine :=
      { morae := #[{ consonant := ['k'], vowel := ['a'], key := 48, tick := 110, offTick := 30 }]
        carried := some (.coda ['n'] 110) }
    Reachable e ∧ (∀ c f e', perform c e = .error f e' → f.lacksKey = false) ∧
      (∀ σ line f, e.finish σ line = .error f → f.lacksKey = false) := by
  intro e
  let kan : Syllable := ⟨['k'], [], ['a'], ['n'], 1, 1⟩
  let sa : Syllable := ⟨['s'], [], ['a'], [], 1, 3⟩
  let c : Note := ⟨.pitched ⟨.c, .natural⟩ 4, 220, 1⟩
  let rest : Note := ⟨.rest, 220, 3⟩
  have h₁ : Reachable {} := .failed ⟨{}, 1, .event (.note c)⟩ .new rfl
  let e' : Engine := { e with current := some sa, notes := #[rest] }
  obtain ⟨e₂, hmerge, rfl⟩ : ∃ e₂, perform ⟨{}, 2, .merge [kan, sa] [c, rest]⟩ {} = .ok () e₂ ∧
      e₂ = e' := ⟨_, rfl, by decide +kernel⟩
  have h₂ : Reachable e' := .succeeded _ h₁ hmerge
  have h₃ : Reachable e := .failed ⟨{}, 3, .event (.syllable sa)⟩ h₂ rfl
  obtain ⟨-, -, -, -, hcalls, hfinish⟩ := reachable_invariant e h₃
  exact ⟨h₃, hcalls, hfinish⟩

end Engine

end SungScore
