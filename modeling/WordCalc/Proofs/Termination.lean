import Mathlib
import WordCalc.Proofs.Journal
import WordCalc.Proofs.Rounds

/-!
# Every line comes to an end

The loop of a machine has no bound of its own: a call makes the queue longer, a body may name words
that are defined later, and a definition changes the dictionary in the middle of a line. It ends
because every dictionary that lines build is acyclic, so that a word has a finite cost: one for
itself, and the costs of the words of its body. A dispatch lowers the cost of the pending words by
one, and a definition takes them all.
-/

namespace WordCalc

/-- **Every line comes to an end.** From every reachable machine the loop on a line ends, whatever
the limit is and even if there is none. The machine is a session between two lines, so its
dictionary is acyclic and words have costs there, and the loop leaves what `Session.evalLine`
says. It dispatches at most as many words as the words of the line cost, and exactly as many if the
line succeeds without opening a definition. -/
theorem Machine.Reachable.line_ends {m : Machine} (hm : m.Reachable) (line : String) :
    ∃ s : Session, s.Reachable ∧ s.machine m.log = m ∧
      (m.load line).Returns (s.evalLine line).result
        ((s.evalLine line).session.machine (s.evalLine line).events) ∧
      dispatches (s.evalLine line).events ≤ s.dictionary.costs s.acyclic (tokenize line) ∧
      ((s.evalLine line).result = .ok () →
        definitionStarts s.dictionary (s.evalLine line).events = 0 →
        dispatches (s.evalLine line).events = s.dictionary.costs s.acyclic (tokenize line)) := by
  obtain ⟨s, hs, hsm⟩ := hm.exists_session
  refine ⟨s, hs, hsm, ?_, s.dispatches_evalLine_le hs.wellFormed line,
    s.dispatches_evalLine_eq hs.wellFormed line⟩
  rw [← hsm]
  exact s.returns_evalLine m.log line

/-- The four words of the line cost nine, and so many are dispatched. -/
theorem line_ends_of_cube :
    ∃ log, (cubeSession.machine log).Reachable ∧
      ∃ m', ((cubeSession.machine log).load "2 CUBE 1 +").Returns (.ok ()) m' ∧
        m'.stack.toList = [9] ∧ dispatches m'.log = 9 ∧
        cubeSession.dictionary.costs cubeSession.acyclic ["2", "CUBE", "1", "+"] = 9 := by
  obtain ⟨log, hm⟩ := reachable_cubeSession.exists_machine
  obtain ⟨s, -, hsm, hreturns, -, hcosts⟩ := hm.line_ends "2 CUBE 1 +"
  obtain rfl := Session.machine_injective hsm
  have hwords : tokenize "2 CUBE 1 +" = ["2", "CUBE", "1", "+"] := by cbv
  have houtcome :
      ((cubeSession.evalLine "2 CUBE 1 +").result,
        (cubeSession.evalLine "2 CUBE 1 +").session.stack.toList,
        dispatches (cubeSession.evalLine "2 CUBE 1 +").events,
        definitionStarts cubeSession.dictionary (cubeSession.evalLine "2 CUBE 1 +").events) =
      (.ok (), [9], 9, 0) := by
    cbv
  simp only [Prod.mk.injEq] at houtcome
  obtain ⟨hok, hstack, hcount, hstarts⟩ := houtcome
  rw [hok] at hreturns
  refine ⟨log, hm, _, hreturns, hstack, hcount, ?_⟩
  rw [← hwords, ← hcosts hok hstarts, hcount]

end WordCalc
