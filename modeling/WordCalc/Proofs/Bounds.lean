import Mathlib
import WordCalc.Proofs.Trail

/-!
# Words bound the size of a session

Nothing in a session compares the depth of the stack or the number of definitions with the count of
words, and yet both together never exceed it. A word that acts on the stack adds one cell at most,
the begin mark adds one definition and no cell, and a call adds neither (`Runs.size_le`). A fault
takes all cells away and leaves the definitions and the count as they are.

A word that the limit refuses adds nothing at all. So the bound is the number of words that the
limit has let through (`Session.Reachable.size_le`), and with that the limit itself.
-/

namespace WordCalc

/-! ## Runs -/

/-- The cells that a run leaves for the line to go on with. -/
def Ending.depth : Ending → Nat
  | finished s => s.depth
  | defining _ s => s.depth
  | fault _ => 0

/-- **A run adds one cell or one definition at most for each word that it dispatches.** -/
theorem Runs.size_le {settings : Settings} {d : Dictionary} {queue : List Word} {s : Stack}
    {n : Nat} {log : Array Event} {r : Stopped} (h : Runs settings d queue s n log r) :
    r.ending.depth + r.ending.definitions + settings.admitted n ≤
      s.depth + settings.admitted r.steps := by
  induction h with
  | finished s n log => exact Nat.le_refl _
  | limit hlim =>
    rw [Settings.admitted_succ_of_some hlim]
    simp [Ending.depth, Ending.definitions]
  | call hlim hb hr ih =>
    rw [Settings.admitted_succ_of_none hlim] at ih
    omega
  | define hlim hb =>
    rw [Settings.admitted_succ_of_none hlim]
    simp only [Ending.depth, Ending.definitions]
    omega
  | step hlim hb hw hs hr ih =>
    have hdepth := (Plain.depth_step hs).1
    rw [Settings.admitted_succ_of_none hlim] at ih
    omega
  | fault hlim hb hw hs =>
    rw [Settings.admitted_succ_of_none hlim]
    simp only [Ending.depth, Ending.definitions]
    omega

/-! ## Sessions -/

theorem Dictionary.size_insert_le (d : Dictionary) (x : Definition) :
    (d.insert x).size ≤ d.size + 1 := by
  unfold size
  cases insertion_insert d x with
  | overwrite i y hi hy he => simp [he]
  | append hn he => simp [he]

namespace Session

/-- The cells and the definitions of a session. -/
def size (s : Session) : Nat := s.stack.depth + s.dictionary.size

variable {s : Session}

/-- A line adds no more to a session than it dispatches words. -/
theorem size_evalLine_le (hwf : s.dictionary.WellFormed) (line : String) :
    (s.evalLine line).session.size + s.settings.admitted s.steps ≤
      s.size + s.settings.admitted (s.evalLine line).session.steps := by
  have hends := s.ends_evalLine line
  generalize s.evalLine line = o at hends
  cases hends with
  | finished hrun | fault hrun | rejected hrun hf =>
    have hle := (runs_stopped hwf hrun).size_le
    simp only [Ending.depth, Ending.definitions] at hle
    simp only [size, Stack.depth_empty]
    omega
  | @recorded words st n log x hrun hx =>
    have hle := (runs_stopped hwf hrun).size_le
    have hinsert := s.dictionary.size_insert_le x
    simp only [Ending.depth, Ending.definitions] at hle
    simp only [size]
    omega

/-- **A reachable session is no larger than the words that its limit has let through.** -/
theorem Reachable.size_le (hs : s.Reachable) : s.size ≤ s.settings.admitted s.steps := by
  induction hs with
  | fresh settings => exact Nat.zero_le _
  | @line s hs line ih =>
    have hle := size_evalLine_le hs.wellFormed line
    rw [settings_evalLine]
    omega

end Session

/-- **Words bound the size of a session.** Whatever calls a session has answered, and however many
of them had a fault: the cells on its stack and the definitions in its dictionary are together no
more than the words that it has counted, and under a limit no more than the limit. -/
theorem History.size_le_steps (settings : Settings) (calls : List Call) :
    let s := ((fresh settings).after calls).session
    s.stack.depth + s.dictionary.size ≤ s.steps ∧
      ∀ limit, settings.maxSteps = some limit → s.stack.depth + s.dictionary.size ≤ limit := by
  intro s
  have hsize : s.stack.depth + s.dictionary.size ≤ settings.admitted s.steps := by
    rw [← settings_after settings calls]
    exact (reachable settings calls).size_le
  exact ⟨hsize.trans (settings.admitted_le s.steps),
    fun limit hlimit => hsize.trans (Settings.admitted_le_of_maxSteps hlimit)⟩

/-- A definition and two cells, by three words, under a limit of three. -/
theorem History.size_le_steps_of_full_session :
    let s := ((fresh ⟨.divisionOnly, some 3⟩).after [.line ": a 1 ;", .lines ["2 3"]]).session
    s.stack.toList = [2, 3] ∧ s.dictionary.names = ["A"] ∧ s.steps = 3 ∧
      s.stack.depth + s.dictionary.size ≤ 3 := by
  exact ⟨by cbv, by cbv, by cbv, (size_le_steps ⟨.divisionOnly, some 3⟩ _).2 3 rfl⟩

end WordCalc
