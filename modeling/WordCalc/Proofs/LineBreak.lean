import Mathlib
import WordCalc.Proofs.Journal
import WordCalc.Proofs.Text.Words

/-!
# Line breaks

A blank separates words like the end of a line does, so two lines may be written as one with a blank
between them. Until a definition is met, nobody can tell the difference: the words of the second
line wait behind those of the first, which put bodies in front of them and never look at them
(`dispatch_append`), and are run when the others are done (`run_append`). If the first line has a
fault they are not run, just as the second line would not be read.

Only a begin mark looks at what waits, and takes it all for its definition. So
`line_break_does_not_matter` asks that the first line opens no definition. The second may do so.
-/

namespace WordCalc

/-! ## Words that wait behind the queue -/

/-- The effect with the words `later` waiting behind those that it leaves. -/
def Effect.before (e : Effect) (later : List Word) : Effect :=
  match e with
  | next queue s => .next (queue ++ later) s
  | define words s => .define (words ++ later) s
  | fault f => .fault f

/-- Goes on with the words `later` after a run. They are not reached if it has met a fault, and
belong to the definition if it has met one. -/
def Stopped.resume (settings : Settings) {d : Dictionary} (hd : d.Acyclic) (later : List Word)
    (r : Stopped) : Stopped :=
  match r.ending with
  | .finished s => run settings d hd later s r.steps r.log
  | .defining words s => ⟨.defining (words ++ later) s, r.steps, r.log⟩
  | .fault f => ⟨.fault f, r.steps, r.log⟩

section Run

variable {check : ZeroCheck} {settings : Settings} {d : Dictionary} {hd : d.Acyclic} {w : Word}
  {queue : List Word} {s : Stack} {n : Nat} {log : Array Event}

theorem Effect.ofStack_append (queue later : List Word) (r : Except Fault Stack) :
    Effect.ofStack (queue ++ later) r = (Effect.ofStack queue r).before later := by
  cases r <;> rfl

/-- **A word does not look at the words that wait**, and leaves them where they are. -/
theorem dispatch_append (later : List Word) :
    dispatch check d w (queue ++ later) s = (dispatch check d w queue s).before later := by
  unfold dispatch
  cases classify d w with
  | error f => rfl
  | ok t =>
    cases t with
    | operator op => exact Effect.ofStack_append ..
    | shuffle sh => exact Effect.ofStack_append ..
    | call name body => simp [Token.effect, Effect.before]
    | literal c | defBegin | defEnd | unknown v => rfl

/-- **Words that wait are run when the others are done.** -/
theorem run_append (later : List Word) :
    run settings d hd (queue ++ later) s n log =
      (run settings d hd queue s n log).resume settings hd later := by
  fun_induction run settings d hd queue s n log with
  | case1 s n log => rfl
  | case2 s n log w rest limit hlim =>
    rw [List.cons_append, run_cons_of_limit hlim]
    rfl
  | case3 s n log w rest hlim log' queue' s' hdis ih =>
    rw [List.cons_append, run_cons hlim, dispatch_append, hdis]
    exact ih
  | case4 s n log w rest hlim log' words s' hdis | case5 s n log w rest hlim log' f hdis =>
    rw [List.cons_append, run_cons hlim, dispatch_append, hdis]
    rfl

end Run

/-! ## What has been logged before -/

/-- The end of a run with the events `past` in front of its journal. -/
def Stopped.since (r : Stopped) (past : Array Event) : Stopped :=
  { r with log := past ++ r.log }

/-- A run does not depend on what has been logged before. -/
theorem run_since {settings : Settings} {d : Dictionary} {hd : d.Acyclic} {queue : List Word}
    {s : Stack} {n : Nat} {log : Array Event} (past : Array Event) :
    run settings d hd queue s n (past ++ log) = (run settings d hd queue s n log).since past := by
  fun_induction run settings d hd queue s n log with
  | case1 s n log =>
    rw [run_nil]
    rfl
  | case2 s n log w rest limit hlim =>
    rw [run_cons_of_limit hlim]
    rfl
  | case3 s n log w rest hlim log' queue' s' hdis ih =>
    rw [run_cons hlim, hdis, ← Array.append_push]
    exact ih
  | case4 s n log w rest hlim log' words s' hdis | case5 s n log w rest hlim log' f hdis =>
    rw [run_cons hlim, hdis, ← Array.append_push]
    rfl

namespace Session

theorem conclude_since (s : Session) (r : Stopped) (past : Array Event) :
    s.conclude (r.since past) = (s.conclude r).since past := by
  obtain ⟨ending, n, log⟩ := r
  cases ending with
  | finished st => rfl
  | fault f => simp [Stopped.since, conclude, abort, Outcome.since]
  | defining words st =>
    simp only [Stopped.since]
    cases hx : s.dictionary.define words with
    | error f =>
      rw [conclude_defining_of_error hx, conclude_defining_of_error hx]
      simp [Outcome.since]
    | ok x =>
      rw [conclude_defining_of_ok hx, conclude_defining_of_ok hx]
      simp [Outcome.since]

/-- The end of a run brings its own stack and count. -/
theorem conclude_of_stack_steps (s : Session) (st : Stack) (n : Nat) (r : Stopped) :
    { s with stack := st, steps := n }.conclude r = s.conclude r := by
  obtain ⟨ending, m, log⟩ := r
  cases ending <;> rfl

/-- A line in a session that has just run other words goes on with the run. -/
theorem evalLine_since (s : Session) (st : Stack) (n : Nat) (log : Array Event) (line : String) :
    ({ s with stack := st, steps := n }.evalLine line).since log =
      s.conclude (run s.settings s.dictionary s.acyclic (tokenize line) st n log) := by
  rw [evalLine, stopped, conclude_of_stack_steps, ← conclude_since, ← run_since,
    Array.append_empty]

end Session

/-! ## Two lines as one -/

/-- The outcome with one more line evaluated, unless there has been a fault. -/
def Outcome.andThen (o : Outcome) (line : String) : Outcome :=
  match o.result with
  | .ok () => (o.session.evalLine line).since o.events
  | .error _ => o

namespace Session

variable {s : Session} {first : String} {c : Char}

/-- **Where a line is broken does not matter before a definition is met.** Let a line be cut at any
blank. If the part before the cut opens no definition, the line does what the two parts do as lines
of their own: if the first part succeeds, the whole has the result, the session and the journal of
both, one after the other; if the first part fails, the whole fails for the same cause, with the
same session and the same journal. -/
theorem line_break_does_not_matter (hs : s.Reachable) (hc : isBlank c = true)
    (hdef : definitionStarts s.dictionary (s.evalLine first).events = 0)
    (second : String) :
    s.evalLine (first.push c ++ second) = (s.evalLine first).andThen second := by
  have hwords : tokenize (first.push c ++ second) = tokenize first ++ tokenize second :=
    tokenize_append_blank hc (by simp)
  have hnone : (s.ending first).definitions = 0 := by
    rw [← definitionStarts_evalLine hs.wellFormed, hdef]
  rw [evalLine, evalLine, stopped, hwords, run_append, ← stopped]
  unfold ending at hnone
  generalize s.stopped first = r at hnone ⊢
  obtain ⟨ending, n, log⟩ := r
  cases ending with
  | finished st => exact (evalLine_since s st n log second).symm
  | fault f => rfl
  | defining words st => exact absurd hnone Nat.one_ne_zero

/-- A line cut at an ideographic space, between a call and a definition, and one cut at a tab,
behind a division by zero. -/
theorem line_break_does_not_matter_to_cube :
    cubeSession.evalLine ("2 cube".push '\u3000' ++ ": c cube ;") =
        (cubeSession.evalLine "2 cube").andThen ": c cube ;" ∧
      (cubeSession.evalLine ("2 cube".push '\u3000' ++ ": c cube ;")).session.dictionary.names =
        ["CUBE", "SQ", "C"] ∧
      cubeSession.evalLine ("2 0 /".push '\t' ++ "7") = (cubeSession.evalLine "2 0 /").andThen "7" ∧
      (cubeSession.evalLine ("2 0 /".push '\t' ++ "7")).result = .error .divideByZero := by
  have hcall :
      definitionStarts cubeSession.dictionary (cubeSession.evalLine "2 cube").events = 0 := by cbv
  have hzero :
      definitionStarts cubeSession.dictionary (cubeSession.evalLine "2 0 /").events = 0 := by cbv
  have hok := line_break_does_not_matter (c := '\u3000') reachable_cubeSession rfl hcall
  have herror := line_break_does_not_matter (c := '\t') reachable_cubeSession rfl hzero
  refine ⟨hok ": c cube ;", ?_, herror "7", ?_⟩
  · rw [hok]
    cbv
  · rw [herror]
    cbv

end Session

end WordCalc
