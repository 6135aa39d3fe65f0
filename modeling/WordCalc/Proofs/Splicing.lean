import Mathlib
import WordCalc.Proofs.Journal
import WordCalc.Proofs.Reachable

/-!
# Splicing and expanding first

A run splices the body of a defined word in front of the queue when it meets the word. The same
comes out when the line is expanded completely first and its words, none of which is defined then,
are run one after another on the plain machine (`Runs.flat_ending`): the queue always stands for
its full expansion, a call does not change what the queue stands for, and every other word is the
first word of it.

A begin mark in the full expansion is where the plain machine stops. The run stops at the same
place, and what it has not processed there expands to the words behind the mark.
-/

namespace WordCalc

/-- The ending with its pending words changed. -/
def Ending.mapWords (g : List Word → List Word) : Ending → Ending
  | defining ws s => defining (g ws) s
  | e => e

section MapWords

variable {g : List Word → List Word} {e : Ending} {s : Stack} {ws : List Word} {f : Fault}

theorem Ending.mapWords_eq_finished (h : e.mapWords g = .finished s) : e = .finished s := by
  cases e with
  | defining => cases h
  | finished | fault => exact h

theorem Ending.mapWords_eq_fault (h : e.mapWords g = .fault f) : e = .fault f := by
  cases e with
  | defining => cases h
  | finished | fault => exact h

theorem Ending.mapWords_eq_defining (h : e.mapWords g = .defining ws s) :
    ∃ queue, e = .defining queue s ∧ g queue = ws := by
  cases e with
  | defining queue =>
    cases h
    exact ⟨queue, rfl, rfl⟩
  | finished | fault => cases h

end MapWords

/-! ## The plain machine up to the first begin mark -/

namespace Plain

/-- How words that are not defined end: the first begin mark takes the words behind it. -/
def ending (check : ZeroCheck) : Stack → List Word → Ending
  | s, [] => .finished s
  | s, w :: ws =>
    if w = Token.beginMark then .defining ws s
    else
      match step check s w with
      | .ok s' => ending check s' ws
      | .error f => .fault f

theorem run_cons (check : ZeroCheck) (s : Stack) (w : Word) (ws : List Word) :
    run check s (w :: ws) =
      match step check s w with
      | .ok s' => run check s' ws
      | .error f => .error f := by
  rw [run, List.foldlM_cons]
  cases step check s w <;> rfl

/-- Up to the first begin mark the words run on the plain machine. -/
theorem ending_append (check : ZeroCheck) {ps : List Word} (hp : Token.beginMark ∉ ps) (s : Stack)
    (ws : List Word) :
    ending check s (ps ++ ws) =
      match run check s ps with
      | .ok s' => ending check s' ws
      | .error f => .fault f := by
  induction ps generalizing s with
  | nil => rfl
  | cons w ps ih =>
    rw [List.mem_cons, not_or] at hp
    rw [List.cons_append, ending, if_neg (Ne.symm hp.1), run_cons]
    cases step check s w with
    | ok s' => exact ih hp.2 s'
    | error f => rfl

end Plain

/-! ## The simulation -/

/-- **The queue stands for its full expansion.** Without a limit a run ends as the full expansion
of its words ends on the plain machine, and what it has not processed expands to what is left
there. -/
theorem Runs.flat_ending {settings : Settings} {d : Dictionary} {queue : List Word} {s : Stack}
    {n : Nat} {log : Array Event} {r : Stopped} (h : Runs settings d queue s n log r)
    (hm : settings.maxSteps = none) (hd : d.Acyclic) :
    r.ending.mapWords (d.flat hd) = Plain.ending settings.zeroCheck s (d.flat hd queue) := by
  induction h with
  | finished s n log => rfl
  | limit hlim =>
    rw [Settings.exceededLimit?_of_maxSteps_none hm] at hlim
    cases hlim
  | @call w body rest s n log r hlim hb hr ih => rw [ih, Dictionary.flat_cons_of_body? hd hb]
  | @define rest s n log hlim hb =>
    rw [Dictionary.flat_cons_of_not_defined hd hb, Plain.ending, if_pos rfl]
    rfl
  | @step w rest s s' n log r hlim hb hw hs hr ih =>
    rw [ih, Dictionary.flat_cons_of_not_defined hd hb, Plain.ending, if_neg hw, hs]
  | @fault w rest s n log f hlim hb hw hs =>
    rw [Dictionary.flat_cons_of_not_defined hd hb, Plain.ending, if_neg hw, hs]
    rfl

/-! ## Lines -/

/-- The outcome is a success that leaves the stack, or the fault with an empty stack. -/
def Outcome.Gives (o : Outcome) : Except Fault Stack → Prop
  | .ok st => o.result = .ok () ∧ o.session.stack = st
  | .error f => o.result = .error f ∧ o.session.stack = .empty

section Gives

variable {o : Outcome} {r : Except Fault Stack}

theorem Outcome.Gives.eq_ok (h : o.Gives r) (hok : o.result = .ok ()) :
    r = .ok o.session.stack := by
  cases r with
  | ok st => rw [h.2]
  | error f =>
    rw [h.1] at hok
    cases hok

theorem Outcome.Gives.error_iff (h : o.Gives r) {f : Fault} :
    o.result = .error f ↔ r = .error f := by
  cases r with
  | ok st => simp [h.1]
  | error g => simp [h.1]

end Gives

namespace Session

variable {s : Session} {line : String} {st : Stack} {q : List Word}

/-- The line and the full expansion of its words end alike. -/
theorem flat_ending (hwf : s.dictionary.WellFormed) (hm : s.settings.maxSteps = none)
    (line : String) :
    (s.ending line).mapWords (s.dictionary.flat s.acyclic) =
      Plain.ending s.settings.zeroCheck s.stack (s.dictionary.flat s.acyclic (tokenize line)) :=
  (runs_stopped hwf rfl).flat_ending hm s.acyclic

theorem evalLine_of_finished (hwf : s.dictionary.WellFormed) (h : s.ending line = .finished st) :
    (s.evalLine line).Gives (.ok st) ∧ (s.evalLine line).session.dictionary = s.dictionary ∧
      definitionStarts s.dictionary (s.evalLine line).events = 0 := by
  rw [definitionStarts_evalLine hwf, h]
  have hends := s.ends_evalLine line
  generalize s.evalLine line = o at hends
  cases hends with
  | finished hrun =>
    rw [ending, hrun] at h
    cases h
    exact ⟨⟨rfl, rfl⟩, rfl, rfl⟩
  | fault hrun | rejected hrun hf | recorded hrun hx =>
    rw [ending, hrun] at h
    cases h

theorem evalLine_of_fault (hwf : s.dictionary.WellFormed) {f : Fault}
    (h : s.ending line = .fault f) :
    (s.evalLine line).Gives (.error f) ∧ (s.evalLine line).session.dictionary = s.dictionary ∧
      definitionStarts s.dictionary (s.evalLine line).events = 0 := by
  rw [definitionStarts_evalLine hwf, h]
  have hends := s.ends_evalLine line
  generalize s.evalLine line = o at hends
  cases hends with
  | fault hrun =>
    rw [ending, hrun] at h
    cases h
    exact ⟨⟨rfl, rfl⟩, rfl, rfl⟩
  | finished hrun | rejected hrun hf | recorded hrun hx =>
    rw [ending, hrun] at h
    cases h

/-- A line that ends with a definition records it, or has the fault of the record. -/
theorem evalLine_of_defining (hwf : s.dictionary.WellFormed) (h : s.ending line = .defining q st) :
    (s.evalLine line).Gives ((s.dictionary.record q).map fun _ => st) ∧
      (s.evalLine line).session.dictionary = s.dictionary.attempt q ∧
      definitionStarts s.dictionary (s.evalLine line).events = 1 := by
  rw [definitionStarts_evalLine hwf, h]
  have hends := s.ends_evalLine line
  generalize s.evalLine line = o at hends
  cases hends with
  | finished hrun | fault hrun =>
    rw [ending, hrun] at h
    cases h
  | @rejected words st' n log f hrun hf =>
    rw [ending, hrun] at h
    cases h
    have hrecord := Dictionary.record_of_define_error hf
    rw [Dictionary.attempt_of_error hrecord, hrecord]
    exact ⟨⟨rfl, rfl⟩, rfl, rfl⟩
  | @recorded words st' n log x hrun hx =>
    rw [ending, hrun] at h
    cases h
    have hrecord := Dictionary.record_of_define_ok hx
    rw [Dictionary.attempt_of_ok hrecord, hrecord]
    exact ⟨⟨rfl, rfl⟩, rfl, rfl⟩

/-- A line without a begin mark in its full expansion gives what the full expansion gives on the
plain machine. -/
theorem evalLine_of_not_mem_flat (hwf : s.dictionary.WellFormed) (hm : s.settings.maxSteps = none)
    (hmark : Token.beginMark ∉ s.dictionary.flat s.acyclic (tokenize line)) :
    (s.evalLine line).Gives (Plain.run s.settings.zeroCheck s.stack
        (s.dictionary.flat s.acyclic (tokenize line))) ∧
      (s.evalLine line).session.dictionary = s.dictionary := by
  have hflat := flat_ending hwf hm line
  have hplain := Plain.ending_append s.settings.zeroCheck hmark s.stack []
  rw [List.append_nil] at hplain
  rw [hplain] at hflat
  cases hrun : Plain.run s.settings.zeroCheck s.stack
      (s.dictionary.flat s.acyclic (tokenize line)) with
  | ok st =>
    rw [hrun] at hflat
    obtain ⟨hgives, hdict, -⟩ := evalLine_of_finished hwf (Ending.mapWords_eq_finished hflat)
    exact ⟨hgives, hdict⟩
  | error f =>
    rw [hrun] at hflat
    obtain ⟨hgives, hdict, -⟩ := evalLine_of_fault hwf (Ending.mapWords_eq_fault hflat)
    exact ⟨hgives, hdict⟩

/-- **Splicing is the same as expanding first.** Let `flat` be the full expansion of the words of a
line in a reachable session without a limit.

If no begin mark is in `flat`, the line gives what the words of `flat` give one after another on
the plain machine, and no definition is opened.

If `flat` is `p`, a first begin mark and `r`, a fault of `p` on the plain machine is the fault of
the line. Else the line opens one definition, with the stack that `p` leaves and the words `q` that
are not processed yet; these expand to `r`, and recording them decides how the line ends and what
becomes of the dictionary. -/
theorem evalLine_eq_plain (hs : s.Reachable) (hm : s.settings.maxSteps = none) (line : String) :
    ∃ flat, s.dictionary.expand (tokenize line) = .ok flat ∧
      (Token.beginMark ∉ flat →
        (s.evalLine line).Gives (Plain.run s.settings.zeroCheck s.stack flat) ∧
          (s.evalLine line).session.dictionary = s.dictionary ∧
          definitionStarts s.dictionary (s.evalLine line).events = 0) ∧
      ∀ p r, flat = p ++ Token.beginMark :: r → Token.beginMark ∉ p →
        match Plain.run s.settings.zeroCheck s.stack p with
        | .error f =>
          (s.evalLine line).Gives (.error f) ∧
            (s.evalLine line).session.dictionary = s.dictionary ∧
            definitionStarts s.dictionary (s.evalLine line).events = 0
        | .ok st =>
          ∃ q, s.ending line = .defining q st ∧ s.dictionary.expand q = .ok r ∧
            (s.evalLine line).Gives ((s.dictionary.record q).map fun _ => st) ∧
            (s.evalLine line).session.dictionary = s.dictionary.attempt q ∧
            definitionStarts s.dictionary (s.evalLine line).events = 1 := by
  have hwf := hs.wellFormed
  have hflat := flat_ending hwf hm line
  refine ⟨_, Dictionary.expand_eq_flat s.acyclic _, ?_, ?_⟩
  · intro hmark
    have hplain := Plain.ending_append s.settings.zeroCheck hmark s.stack []
    rw [List.append_nil] at hplain
    rw [hplain] at hflat
    cases hp : Plain.run s.settings.zeroCheck s.stack
        (s.dictionary.flat s.acyclic (tokenize line)) with
    | ok st =>
      rw [hp] at hflat
      exact evalLine_of_finished hwf (Ending.mapWords_eq_finished hflat)
    | error f =>
      rw [hp] at hflat
      exact evalLine_of_fault hwf (Ending.mapWords_eq_fault hflat)
  · intro p r hpr hmark
    rw [hpr, Plain.ending_append s.settings.zeroCheck hmark] at hflat
    cases hp : Plain.run s.settings.zeroCheck s.stack p with
    | error f =>
      rw [hp] at hflat
      exact evalLine_of_fault hwf (Ending.mapWords_eq_fault hflat)
    | ok st =>
      simp only [hp, Plain.ending, if_pos] at hflat
      obtain ⟨q, hq, hqr⟩ := Ending.mapWords_eq_defining hflat
      have hexpand : s.dictionary.expand q = .ok r := by
        rw [Dictionary.expand_eq_flat s.acyclic q, hqr]
      exact ⟨q, hq, hexpand, evalLine_of_defining hwf hq⟩

end Session

/-- A definition behind a call: the words of the definition are expanded when they are recorded,
not by the run. -/
theorem evalLine_eq_plain_of_cube :
    cubeSession.Reachable ∧ cubeSession.settings.maxSteps = none ∧
      ∃ q st, cubeSession.ending "2 CUBE : C CUBE ;" = .defining q st ∧ st.toList = [8] ∧
        cubeSession.dictionary.expand q = .ok ["C", "DUP", "DUP", "*", "*", ";"] ∧
        (cubeSession.evalLine "2 CUBE : C CUBE ;").session.dictionary =
          cubeSession.dictionary.attempt q := by
  have hm : cubeSession.settings.maxSteps = none := by rw [settings_cubeSession]
  obtain ⟨flat, hexpand, -, hdefine⟩ :=
    Session.evalLine_eq_plain reachable_cubeSession hm "2 CUBE : C CUBE ;"
  have hflat : cubeSession.dictionary.expand (tokenize "2 CUBE : C CUBE ;") =
      .ok ["2", "DUP", "DUP", "*", "*", ":", "C", "DUP", "DUP", "*", "*", ";"] := by cbv
  have hplain : Plain.run cubeSession.settings.zeroCheck cubeSession.stack
      ["2", "DUP", "DUP", "*", "*"] = .ok ⟨#[8]⟩ := by cbv
  rw [hflat] at hexpand
  have hline := hdefine ["2", "DUP", "DUP", "*", "*"] ["C", "DUP", "DUP", "*", "*", ";"]
    (Except.ok.inj hexpand).symm (by decide)
  rw [hplain] at hline
  obtain ⟨q, hq, hexp, -, hdict, -⟩ := hline
  exact ⟨reachable_cubeSession, hm, q, _, hq, rfl, hexp, hdict⟩

end WordCalc
