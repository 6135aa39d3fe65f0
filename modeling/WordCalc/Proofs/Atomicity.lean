import Mathlib
import WordCalc.Proofs.Journal
import WordCalc.Proofs.Rounds

/-!
# Lines are atomic for the dictionary

The loop of a machine keeps no copy of the dictionary that it could go back to after a fault. It
needs none: a definition takes all pending words, so the round after it returns, and a fault can
only come before the dictionary has changed. A line that fails therefore leaves the dictionary as
it was, and a line that succeeds changes it by one insertion at most.
-/

namespace WordCalc

namespace Session

variable {s : Session}

/-- A line that fails empties the stack and counts its words; all else stays. -/
theorem evalLine_of_error (hwf : s.dictionary.WellFormed) {line : String} {f : Fault}
    (h : (s.evalLine line).result = .error f) :
    (s.evalLine line).session.stack = .empty ∧
      (s.evalLine line).session.dictionary = s.dictionary ∧
      records (s.evalLine line).events = 0 ∧
      s.steps < (s.evalLine line).session.steps := by
  have hends := s.ends_evalLine line
  generalize s.evalLine line = o at hends h
  cases hends with
  | finished hrun | recorded hrun hx => cases h
  | fault hrun | rejected hrun hf =>
    have hr := runs_stopped hwf hrun
    refine ⟨rfl, rfl, ?_, hr.lt_steps nofun⟩
    rw [records_push, hr.records_eq]
    rfl

/-- A line that succeeds leaves the dictionary as it is, or inserts the one definition that it has
recorded. -/
theorem evalLine_of_ok (hwf : s.dictionary.WellFormed) {line : String}
    (h : (s.evalLine line).result = .ok ()) :
    ((s.evalLine line).session.dictionary = s.dictionary ∧
        records (s.evalLine line).events = 0) ∨
      ∃ x, s.dictionary.Insertion x (s.evalLine line).session.dictionary ∧
        records (s.evalLine line).events = 1 := by
  have hends := s.ends_evalLine line
  generalize s.evalLine line = o at hends h
  cases hends with
  | fault hrun | rejected hrun hf => cases h
  | finished hrun => exact .inl ⟨rfl, (runs_stopped hwf hrun).records_eq⟩
  | @recorded words st n log x hrun hx =>
    refine .inr ⟨x, Dictionary.insertion_insert s.dictionary x, ?_⟩
    rw [records_push, (runs_stopped hwf hrun).records_eq]
    rfl

end Session

/-- **A line is atomic for the dictionary.** Before and after every line no word is pending. A line
with a fault of any kind leaves an empty stack and the dictionary from before the line, name by
name and body by body; only the count of words has grown. A line without a fault leaves the
dictionary as it was or makes one insertion: it overwrites one body in place or appends one new
name. -/
theorem Machine.Reachable.line_atomic {m : Machine} (hm : m.Reachable) (line : String) :
    ∃ (s : Session) (r : Except Fault Unit) (m' : Machine), s.machine m.log = m ∧
      r = (s.evalLine line).result ∧
      m' = (s.evalLine line).session.machine (s.evalLine line).events ∧
      (m.load line).Returns r m' ∧ m.queue = [] ∧ m'.queue = [] ∧ m'.settings = m.settings ∧
      (∀ f, r = .error f →
        m'.stack = .empty ∧ m'.dictionary = m.dictionary ∧ records m'.log = 0 ∧
          m.steps < m'.steps) ∧
      (r = .ok () →
        (m'.dictionary = m.dictionary ∧ records m'.log = 0) ∨
          ∃ x, m.dictionary.Insertion x m'.dictionary ∧ records m'.log = 1) := by
  obtain ⟨s, hs, hsm⟩ := hm.exists_session
  have hreturns := s.returns_evalLine m.log line
  rw [hsm] at hreturns
  refine ⟨s, _, _, hsm, rfl, rfl, hreturns, ?_, rfl, ?_, ?_, ?_⟩
  · rw [← hsm]
    rfl
  · rw [← hsm]
    exact s.settings_evalLine line
  · intro f hf
    rw [← hsm]
    exact Session.evalLine_of_error hs.wellFormed hf
  · intro hok
    rw [← hsm]
    exact Session.evalLine_of_ok hs.wellFormed hok

/-- A definition of a numeral, met after a value has been pushed. -/
theorem line_atomic_of_illegal_name :
    ∃ log, (cubeSession.machine log).Reachable ∧
      ∃ m', ((cubeSession.machine log).load "7 : 5 CUBE ;").Returns (.error (.illegalName "5")) m' ∧
        m'.stack = .empty ∧ m'.dictionary = cubeSession.dictionary := by
  obtain ⟨log, hm⟩ := reachable_cubeSession.exists_machine
  obtain ⟨s, r, m', hsm, hr, -, hreturns, -, -, -, herror, -⟩ := hm.line_atomic "7 : 5 CUBE ;"
  obtain rfl := Session.machine_injective hsm
  have hfault : (cubeSession.evalLine "7 : 5 CUBE ;").result = .error (.illegalName "5") := by cbv
  rw [hfault] at hr
  obtain ⟨hstack, hdictionary, -, -⟩ := herror _ hr
  exact ⟨log, hm, m', hr ▸ hreturns, hstack, hdictionary⟩

end WordCalc
