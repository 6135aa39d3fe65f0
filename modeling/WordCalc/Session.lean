import WordCalc.Run

/-!
# Sessions

A session keeps a stack, a dictionary and a count of its words, and evaluates one line after
another. A fault empties the stack and gives up the line; the dictionary and the count stay, and
the dictionary is the one from before the line, since a definition is the last thing a line does.
-/

namespace WordCalc

/-- A session between two lines. Its dictionary is acyclic, so every line comes to an end. -/
structure Session where
  settings : Settings
  stack : Stack
  dictionary : Dictionary
  /-- The words counted since the session began. -/
  steps : Nat
  acyclic : dictionary.Acyclic

/-- What an evaluation leads to: how it ended, the session after it, and what happened. -/
structure Outcome where
  result : Except Fault Unit
  session : Session
  events : Array Event

namespace Session

/-- A session that has evaluated nothing. -/
def fresh (settings : Settings) : Session :=
  ⟨settings, .empty, .empty, 0, Dictionary.acyclic_empty⟩

/-- Gives up a line: the stack is emptied and the fault goes into the journal. -/
def abort (s : Session) (f : Fault) (log : Array Event) : Outcome :=
  ⟨.error f, { s with stack := .empty }, log.push (.aborted f)⟩

/-- Settles a line that ends with a definition, where `r` is what the words of the definition
came to. -/
def settle (s : Session) (words : List Word) (log : Array Event) :
    (r : Except Fault Definition) → s.dictionary.define words = r → Outcome
  | .error f, _ => s.abort f log
  | .ok x, h =>
    ⟨.ok (), { s with
      dictionary := s.dictionary.insert x
      acyclic := Dictionary.acyclic_insert_of_define s.acyclic h },
      log.push (.recorded x.name (unwords x.body) (s.dictionary.contains x.name))⟩

/-- Records the definition that `words` enter. -/
def define (s : Session) (words : List Word) (log : Array Event) : Outcome :=
  s.settle words log (s.dictionary.define words) rfl

theorem define_of_error {s : Session} {words : List Word} {log : Array Event} {f : Fault}
    (h : s.dictionary.define words = .error f) : s.define words log = s.abort f log := by
  have key : ∀ r (e : s.dictionary.define words = r), r = .error f →
      s.settle words log r e = s.abort f log := by
    rintro _ _ rfl
    rfl
  exact key _ rfl h

theorem define_of_ok {s : Session} {words : List Word} {log : Array Event} {x : Definition}
    (h : s.dictionary.define words = .ok x) :
    s.define words log =
      ⟨.ok (), { s with
        dictionary := s.dictionary.insert x
        acyclic := Dictionary.acyclic_insert_of_define s.acyclic h },
        log.push (.recorded x.name (unwords x.body) (s.dictionary.contains x.name))⟩ := by
  have key : ∀ r (e : s.dictionary.define words = r) (hr : r = .ok x),
      s.settle words log r e = ⟨.ok (), { s with
        dictionary := s.dictionary.insert x
        acyclic := Dictionary.acyclic_insert_of_define s.acyclic (e.trans hr) },
        log.push (.recorded x.name (unwords x.body) (s.dictionary.contains x.name))⟩ := by
    rintro _ _ rfl
    rfl
  exact key _ rfl h

/-- The end that the words of a line run to. -/
def stopped (s : Session) (line : String) : Stopped :=
  run s.settings s.dictionary s.acyclic (tokenize line) s.stack s.steps #[]

/-- Concludes a line whose words have come to their end. -/
def conclude (s : Session) : Stopped → Outcome
  | ⟨.finished stack, steps, log⟩ => ⟨.ok (), { s with stack := stack, steps := steps }, log⟩
  | ⟨.defining rest stack, steps, log⟩ =>
    { s with stack := stack, steps := steps }.define rest log
  | ⟨.fault f, steps, log⟩ => { s with steps := steps }.abort f log

/-- Evaluates one line. -/
def evalLine (s : Session) (line : String) : Outcome :=
  s.conclude (s.stopped line)

/-- Evaluates lines up to the first that has a fault. The journal grows at the end of `log`. -/
def evalLinesOnto (s : Session) (log : Array Event) : List String → Outcome
  | [] => ⟨.ok (), s, log.push (.finished s.stack.depth s.dictionary.size s.steps)⟩
  | line :: lines =>
    match s.evalLine line with
    | ⟨.ok (), s, events⟩ => s.evalLinesOnto (log ++ events) lines
    | ⟨.error f, s, events⟩ => ⟨.error f, s, log ++ events⟩

/-- Evaluates lines up to the first that has a fault. -/
def evalLines (s : Session) (lines : List String) : Outcome :=
  s.evalLinesOnto #[] lines

end Session

/-- The stack, bottom first, that the lines leave in a session of their own. -/
def evaluate (settings : Settings) (lines : List String) : Except Fault (List Cell) :=
  let outcome := (Session.fresh settings).evalLines lines
  outcome.result.map fun _ => outcome.session.stack.toList

example : evaluate {} [": sq dup * ;", "3 sq"] = .ok [9] := by cbv

/-- A line that fails ends the evaluation, and the lines after it are not read. -/
example : evaluate {} ["1 2 +", "* 5", ": 3 4 ;"] = .error .stackUnderflow := by cbv

end WordCalc
