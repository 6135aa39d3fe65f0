import WordCalc.Dictionary.Acyclic
import WordCalc.Token

/-!
# Running the words of a line

The pending words of a line form a queue. The word at its head is counted, checked against the
limit and dispatched: a literal, an operator or a shuffle acts on the stack, a defined word puts
its body in front of the queue, and the start of a definition takes what is left of the line.
`dispatch` says what one word does and `run` goes on until the line is done.

A dictionary does not change while a line runs, since a definition is the last thing a line does.
So an acyclic dictionary is all that a run needs to end: each word that is dispatched lowers the
costs of the pending words (`costs_of_dispatch`).
-/

namespace WordCalc

/-! ## Settings -/

/-- The settings of a session. -/
structure Settings where
  zeroCheck : ZeroCheck := .divisionOnly
  /-- The greatest number of words that the session may count; without it there is no limit. -/
  maxSteps : Option Nat := none
  deriving DecidableEq

/-- The limit, if `steps` counted words exceed it. -/
def Settings.exceededLimit? (s : Settings) (steps : Nat) : Option Nat :=
  s.maxSteps.filter fun limit => limit < steps

namespace Settings

variable {s : Settings} {limit steps : Nat}

theorem exceededLimit?_of_maxSteps_none (h : s.maxSteps = none) :
    s.exceededLimit? steps = none := by
  rw [exceededLimit?, h]
  rfl

theorem exceededLimit?_of_le (h : s.maxSteps = some limit) (hn : steps ≤ limit) :
    s.exceededLimit? steps = none := by
  simp [exceededLimit?, h, hn]

theorem exceededLimit?_of_lt (h : s.maxSteps = some limit) (hn : limit < steps) :
    s.exceededLimit? steps = some limit := by
  simp [exceededLimit?, h, hn]

end Settings

/-! ## One word -/

/-- What a dispatched word leads to. -/
inductive Effect where
  /-- The line goes on with the given pending words. -/
  | next (queue : List Word) (stack : Stack)
  /-- The given words, the rest of the line, are to be recorded. -/
  | define (words : List Word) (stack : Stack)
  | fault (f : Fault)

/-- The line goes on with `queue` if the stack could be changed. -/
def Effect.ofStack (queue : List Word) : Except Fault Stack → Effect
  | .ok s => next queue s
  | .error f => fault f

/-- What a token does, with `queue` still to come. -/
def Token.effect (t : Token) (check : ZeroCheck) (queue : List Word) (s : Stack) : Effect :=
  match t with
  | literal c => .next queue (s.push [c])
  | operator op => .ofStack queue (op.onStack check s)
  | shuffle sh => .ofStack queue (sh.onStack s)
  | call _ body => .next (body ++ queue) s
  | defBegin => .define queue s
  | defEnd => .fault (.undefinedWord Dictionary.endMark)
  | unknown w => .fault (.undefinedWord w)

/-- What the word `w` does, with `queue` still to come. -/
def dispatch (check : ZeroCheck) (d : Dictionary) (w : Word) (queue : List Word) (s : Stack) :
    Effect :=
  match classify d w with
  | .ok t => t.effect check queue s
  | .error f => .fault f

/-- A word that lets the line go on leaves the queue as it is or puts its own body in front. -/
theorem queue_of_dispatch {check : ZeroCheck} {d : Dictionary} {w : Word}
    {queue queue' : List Word} {s s' : Stack}
    (h : dispatch check d w queue s = .next queue' s') :
    queue' = queue ∨ ∃ body, d.body? w = some body ∧ queue' = body ++ queue := by
  unfold dispatch at h
  split at h
  · rename_i t ht
    cases t with
    | literal c => cases h; exact .inl rfl
    | operator op =>
      simp only [Token.effect] at h
      cases ho : op.onStack check s <;> rw [ho] at h <;> cases h
      exact .inl rfl
    | shuffle sh =>
      simp only [Token.effect] at h
      cases ho : sh.onStack s <;> rw [ho] at h <;> cases h
      exact .inl rfl
    | call name body =>
      cases h
      exact .inr ⟨body, (body?_of_classify_call ht).2, rfl⟩
    | defBegin => cases h
    | defEnd => cases h
    | unknown w => cases h
  · cases h

/-- A word that opens a definition takes the queue for it and leaves the stack as it is. -/
theorem define_of_dispatch {check : ZeroCheck} {d : Dictionary} {w : Word}
    {queue words : List Word} {s s' : Stack}
    (h : dispatch check d w queue s = .define words s') : words = queue ∧ s' = s := by
  unfold dispatch at h
  split at h
  · rename_i t ht
    cases t with
    | operator op =>
      simp only [Token.effect] at h
      cases ho : op.onStack check s <;> rw [ho] at h <;> cases h
    | shuffle sh =>
      simp only [Token.effect] at h
      cases ho : sh.onStack s <;> rw [ho] at h <;> cases h
    | defBegin =>
      cases h
      exact ⟨rfl, rfl⟩
    | literal c | call name body | defEnd | unknown w => cases h
  · cases h

/-- A dispatched word lowers the costs of the pending words. -/
theorem costs_of_dispatch {check : ZeroCheck} {d : Dictionary} (hd : d.Acyclic) {w : Word}
    {queue queue' : List Word} {s s' : Stack}
    (h : dispatch check d w queue s = .next queue' s') :
    d.costs hd queue' < d.costs hd (w :: queue) := by
  rcases queue_of_dispatch h with rfl | ⟨body, hb, rfl⟩
  · rw [Dictionary.costs_cons]
    have := Dictionary.cost_pos hd w
    omega
  · exact Dictionary.costs_body_lt hd hb queue

/-! ## All words -/

/-- How the words of a line come to an end. -/
inductive Ending where
  /-- All words are done. -/
  | finished (stack : Stack)
  /-- A definition has been met; `words` are the words after its start. -/
  | defining (words : List Word) (stack : Stack)
  | fault (f : Fault)

/-- A run that has come to its end: how, with how many words counted, and what happened. -/
structure Stopped where
  ending : Ending
  steps : Nat
  log : Array Event

/-- Runs the words of `queue`. The journal grows at the end of `log`. -/
def run (settings : Settings) (d : Dictionary) (hd : d.Acyclic) (queue : List Word) (s : Stack)
    (steps : Nat) (log : Array Event) : Stopped :=
  match queue with
  | [] => ⟨.finished s, steps, log⟩
  | w :: rest =>
    match settings.exceededLimit? (steps + 1) with
    | some limit => ⟨.fault (.stepLimit limit), steps + 1, log⟩
    | none =>
      let log := log.push (.dispatched w s.depth)
      match _ : dispatch settings.zeroCheck d w rest s with
      | .next queue s => run settings d hd queue s (steps + 1) log
      | .define words s => ⟨.defining words s, steps + 1, log⟩
      | .fault f => ⟨.fault f, steps + 1, log⟩
termination_by d.costs hd queue
decreasing_by exact costs_of_dispatch hd ‹_›

variable {settings : Settings} {d : Dictionary} {hd : d.Acyclic} {w : Word} {rest : List Word}
  {s : Stack} {steps : Nat} {log : Array Event}

@[simp]
theorem run_nil : run settings d hd [] s steps log = ⟨.finished s, steps, log⟩ := by
  rw [run]

/-- A word that the limit refuses is counted but not dispatched. -/
theorem run_cons_of_limit {limit : Nat} (h : settings.exceededLimit? (steps + 1) = some limit) :
    run settings d hd (w :: rest) s steps log = ⟨.fault (.stepLimit limit), steps + 1, log⟩ := by
  rw [run, h]

/-- A word within the limit is dispatched, and its effect says how the line goes on. -/
theorem run_cons (h : settings.exceededLimit? (steps + 1) = none) :
    run settings d hd (w :: rest) s steps log =
      match dispatch settings.zeroCheck d w rest s with
      | .next queue s' =>
        run settings d hd queue s' (steps + 1) (log.push (.dispatched w s.depth))
      | .define words s' =>
        ⟨.defining words s', steps + 1, log.push (.dispatched w s.depth)⟩
      | .fault f => ⟨.fault f, steps + 1, log.push (.dispatched w s.depth)⟩ := by
  rw [run, h]
  dsimp only
  split <;> rename_i he <;> rw [he]

end WordCalc
