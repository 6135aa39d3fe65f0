import WordCalc.Proofs.Reachable

/-!
# The evaluation round by round

A small-step machine for a session in the middle of a line. Its state is the data of the session
and the queue of pending words; one round takes the head of the queue and lets it act. Nothing
about the machine makes a line come to an end: its dictionary may be any dictionary, a body may
put its own name in front of the queue again, and the loop goes on after a definition with
whatever the queue then holds.

The loop has a parameter: which definition the words after a begin mark enter (`roundBy`). The loop
of a session, `Machine.round`, asks `Dictionary.define`.

`run` says in one recursion what the rounds do one after another. That it leaves nothing out is
`returns_evalLine`: on the data of a session the loop comes to an end, with the result, the data
and the events of `Session.evalLine`. A machine that lines have led to from a fresh one is
therefore a session between two lines (`Reachable.exists_session`).
-/

namespace WordCalc

/-- A session in the middle of a line, without any proof about its dictionary. -/
structure Machine where
  settings : Settings
  stack : Stack
  dictionary : Dictionary
  /-- The words counted since the session began. -/
  steps : Nat
  /-- The pending words. -/
  queue : List Word
  /-- What has happened in this line. -/
  log : Array Event

/-- What one round leads to: the loop goes on, or it returns. -/
inductive Round
  | again (m : Machine)
  | returned (result : Except Fault Unit) (m : Machine)

namespace Machine

/-- The machine of a session that has evaluated nothing. -/
def fresh (settings : Settings) : Machine :=
  ⟨settings, .empty, .empty, 0, [], #[]⟩

/-- Puts the words of a line behind the pending words. -/
def load (m : Machine) (line : String) : Machine :=
  { m with queue := m.queue ++ tokenize line, log := #[] }

/-- A fault empties the stack and the queue. -/
def giveUp (m : Machine) (f : Fault) : Round :=
  .returned (.error f)
    { m with stack := .empty, queue := [], log := m.log.push (.aborted f) }

section Define

variable (define : Dictionary → List Word → Except Fault Definition)

/-- Records the definition that `define` makes of the words. -/
def recordBy (m : Machine) (words : List Word) : Round :=
  match define m.dictionary words with
  | .ok x =>
    .again { m with
      dictionary := m.dictionary.insert x
      log := m.log.push (.recorded x.name (unwords x.body) (m.dictionary.contains x.name)) }
  | .error f => m.giveUp f

/-- What the effect of a word leads to. A definition takes all pending words. -/
def actBy (m : Machine) : Effect → Round
  | .next queue s => .again { m with queue := queue, stack := s }
  | .define words s => { m with queue := [], stack := s }.recordBy define words
  | .fault f => m.giveUp f

/-- One round of the loop that records by `define`. -/
def roundBy (m : Machine) : Round :=
  match m.queue with
  | [] => .returned (.ok ()) m
  | w :: rest =>
    match m.settings.exceededLimit? (m.steps + 1) with
    | some limit => { m with steps := m.steps + 1 }.giveUp (.stepLimit limit)
    | none =>
      { m with steps := m.steps + 1, log := m.log.push (.dispatched w m.stack.depth) }.actBy define
        (dispatch m.settings.zeroCheck m.dictionary w rest m.stack)

end Define

/-- One round of the loop. -/
def round (m : Machine) : Round := m.roundBy Dictionary.define

end Machine

/-- After the round, finitely many further rounds of the loop that records by `define` lead to the
return of `r`, with the machine in the state `m`. -/
inductive Round.ReturnsBy (define : Dictionary → List Word → Except Fault Definition) :
    Round → Except Fault Unit → Machine → Prop
  | returned (r : Except Fault Unit) (m : Machine) : ReturnsBy define (.returned r m) r m
  | again {m m' : Machine} {r : Except Fault Unit} (h : ReturnsBy define (m.roundBy define) r m') :
      ReturnsBy define (.again m) r m'

/-- The loop that records by `define`, started in `m`, comes to an end: it returns `r` and leaves
the machine in the state `m'`. -/
def Machine.ReturnsBy (define : Dictionary → List Word → Except Fault Definition) (m : Machine)
    (r : Except Fault Unit) (m' : Machine) : Prop :=
  (m.roundBy define).ReturnsBy define r m'

/-- After the round, finitely many further rounds lead to the return of `r`, with the machine in
the state `m`. -/
def Round.Returns (o : Round) (r : Except Fault Unit) (m : Machine) : Prop :=
  o.ReturnsBy Dictionary.define r m

/-- The loop started in `m` comes to an end: it returns `r` and leaves the machine in the state
`m'`. -/
def Machine.Returns (m : Machine) (r : Except Fault Unit) (m' : Machine) : Prop :=
  m.round.Returns r m'

section Returns

variable {define : Dictionary → List Word → Except Fault Definition} {o : Round}
  {r r' : Except Fault Unit} {m m' : Machine}

/-- The loop has one outcome. -/
theorem Round.ReturnsBy.unique (h : o.ReturnsBy define r m) (h' : o.ReturnsBy define r' m') :
    r = r' ∧ m = m' := by
  induction h with
  | returned r m =>
    cases h'
    exact ⟨rfl, rfl⟩
  | again h ih =>
    cases h' with
    | again h' => exact ih h'

theorem Round.Returns.unique (h : o.Returns r m) (h' : o.Returns r' m') : r = r' ∧ m = m' :=
  ReturnsBy.unique h h'

/-- A machine without pending words returns at once. -/
theorem Machine.returnsBy_of_queue_nil (h : m.queue = []) : m.ReturnsBy define (.ok ()) m := by
  have hround : m.roundBy define = .returned (.ok ()) m := by simp [Machine.roundBy, h]
  rw [Machine.ReturnsBy, hround]
  exact .returned _ _

end Returns

/-! ## The rounds of a line -/

/-- What is left to do once the pending words have been run. -/
def Stopped.settleBy (define : Dictionary → List Word → Except Fault Definition)
    (settings : Settings) (d : Dictionary) : Stopped → Round
  | ⟨.finished s, n, log⟩ => .returned (.ok ()) ⟨settings, s, d, n, [], log⟩
  | ⟨.defining words s, n, log⟩ => (Machine.mk settings s d n [] log).recordBy define words
  | ⟨.fault f, n, log⟩ => (Machine.mk settings .empty d n [] log).giveUp f

section Settle

variable {define : Dictionary → List Word → Except Fault Definition} {settings : Settings}
  {d : Dictionary} {words : List Word} {s : Stack} {n : Nat} {log : Array Event}

/-- A definition that is made is recorded. It has taken all pending words, so the next round
returns. -/
theorem Stopped.returnsBy_settleBy_of_ok {x : Definition} (h : define d words = .ok x) :
    (settleBy define settings d ⟨.defining words s, n, log⟩).ReturnsBy define (.ok ())
      ⟨settings, s, d.insert x, n, [],
        log.push (.recorded x.name (unwords x.body) (d.contains x.name))⟩ := by
  rw [settleBy, Machine.recordBy, h]
  exact .again (Machine.returnsBy_of_queue_nil rfl)

theorem Stopped.returnsBy_settleBy_of_error {f : Fault} (h : define d words = .error f) :
    (settleBy define settings d ⟨.defining words s, n, log⟩).ReturnsBy define (.error f)
      ⟨settings, .empty, d, n, [], log.push (.aborted f)⟩ := by
  rw [settleBy, Machine.recordBy, h]
  exact .returned _ _

end Settle

/-- The rounds of the loop do what `run` does, up to the round that ends the run. -/
theorem returnsBy_of_run (define : Dictionary → List Word → Except Fault Definition)
    (settings : Settings) (d : Dictionary) (hd : d.Acyclic) (queue : List Word) (s : Stack)
    (steps : Nat) (log : Array Event) {r : Except Fault Unit} {m' : Machine}
    (h : ((run settings d hd queue s steps log).settleBy define settings d).ReturnsBy define r m') :
    (Machine.mk settings s d steps queue log).ReturnsBy define r m' := by
  fun_induction run settings d hd queue s steps log with
  | case1 s steps log => exact h
  | case2 s steps log w rest limit hlim =>
    have hround : (Machine.mk settings s d steps (w :: rest) log).roundBy define =
        (Machine.mk settings .empty d (steps + 1) [] log).giveUp (.stepLimit limit) := by
      simp [Machine.roundBy, hlim, Machine.giveUp]
    rw [Machine.ReturnsBy, hround]
    exact h
  | case3 s steps log w rest hlim log' queue' s' hdis ih =>
    have hround : (Machine.mk settings s d steps (w :: rest) log).roundBy define =
        .again ⟨settings, s', d, steps + 1, queue', log'⟩ := by
      simp [Machine.roundBy, hlim, hdis, Machine.actBy, log']
    rw [Machine.ReturnsBy, hround]
    exact .again (ih h)
  | case4 s steps log w rest hlim log' words s' hdis =>
    have hround : (Machine.mk settings s d steps (w :: rest) log).roundBy define =
        (Machine.mk settings s' d (steps + 1) [] log').recordBy define words := by
      simp [Machine.roundBy, hlim, hdis, Machine.actBy, log']
    rw [Machine.ReturnsBy, hround]
    exact h
  | case5 s steps log w rest hlim log' f hdis =>
    have hround : (Machine.mk settings s d steps (w :: rest) log).roundBy define =
        (Machine.mk settings .empty d (steps + 1) [] log').giveUp f := by
      simp [Machine.roundBy, hlim, hdis, Machine.actBy, Machine.giveUp, log']
    rw [Machine.ReturnsBy, hround]
    exact h

/-- A machine without pending words answers a line by settling the run of its words. -/
theorem Machine.returnsBy_load {define : Dictionary → List Word → Except Fault Definition}
    {m m' : Machine} {line : String} {r : Except Fault Unit} {stopped : Stopped}
    (hq : m.queue = []) (hd : m.dictionary.Acyclic)
    (hrun : run m.settings m.dictionary hd (tokenize line) m.stack m.steps #[] = stopped)
    (h : (stopped.settleBy define m.settings m.dictionary).ReturnsBy define r m') :
    (m.load line).ReturnsBy define r m' := by
  have hload : m.load line =
      ⟨m.settings, m.stack, m.dictionary, m.steps, tokenize line, #[]⟩ := by
    rw [Machine.load, hq]
    rfl
  rw [hload]
  exact returnsBy_of_run define _ _ hd _ _ _ _ (hrun ▸ h)

/-! ## Sessions as machines -/

namespace Session

/-- The session as a machine between two lines: no word is pending. -/
def machine (s : Session) (log : Array Event) : Machine :=
  ⟨s.settings, s.stack, s.dictionary, s.steps, [], log⟩

/-- A machine between two lines is one session. -/
theorem machine_injective {s t : Session} {log log' : Array Event}
    (h : s.machine log = t.machine log') : s = t := by
  cases s
  cases t
  simp only [machine, Machine.mk.injEq] at h
  obtain ⟨rfl, rfl, rfl, rfl, -, -⟩ := h
  rfl

/-- **The loop does what `Session.evalLine` says.** On the data of a session and any line it
comes to an end, with the result, the session and the events of the outcome, and without pending
words. -/
theorem returns_evalLine (s : Session) (log : Array Event) (line : String) :
    ((s.machine log).load line).Returns (s.evalLine line).result
      ((s.evalLine line).session.machine (s.evalLine line).events) := by
  have h := s.ends_evalLine line
  generalize s.evalLine line = o at h
  cases h with
  | finished hrun | fault hrun =>
    exact Machine.returnsBy_load rfl s.acyclic hrun (.returned _ _)
  | rejected hrun hf =>
    exact Machine.returnsBy_load rfl s.acyclic hrun (Stopped.returnsBy_settleBy_of_error hf)
  | recorded hrun hx =>
    exact Machine.returnsBy_load rfl s.acyclic hrun (Stopped.returnsBy_settleBy_of_ok hx)

end Session

/-- Lines have led to the machine from a fresh one. -/
inductive Machine.Reachable : Machine → Prop
  | fresh (settings : Settings) : Reachable (fresh settings)
  | line {m m' : Machine} {r : Except Fault Unit} (hm : Reachable m) (line : String)
      (h : (m.load line).Returns r m') : Reachable m'

/-- A reachable machine is a reachable session between two lines. -/
theorem Machine.Reachable.exists_session {m : Machine} (hm : m.Reachable) :
    ∃ s : Session, s.Reachable ∧ s.machine m.log = m := by
  induction hm with
  | fresh settings => exact ⟨.fresh settings, .fresh settings, rfl⟩
  | @line m m' r hm line h ih =>
    obtain ⟨s, hs, hm⟩ := ih
    obtain ⟨-, rfl⟩ := (hm ▸ s.returns_evalLine m.log line).unique h
    exact ⟨(s.evalLine line).session, hs.line line, rfl⟩

/-- Every reachable session is a reachable machine. -/
theorem Session.Reachable.exists_machine {s : Session} (hs : s.Reachable) :
    ∃ log, (s.machine log).Reachable := by
  induction hs with
  | fresh settings => exact ⟨#[], .fresh settings⟩
  | @line s hs line ih =>
    obtain ⟨log, hm⟩ := ih
    exact ⟨_, hm.line line (s.returns_evalLine log line)⟩

end WordCalc
