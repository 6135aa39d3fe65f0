import WordCalc.Proofs.Reachable

/-!
# Counting in the journal

Two counts of a journal: the words that were dispatched (`dispatches`), and those among them that
opened a definition (`definitionStarts`). The first is tied to the costs of the pending words: a
run dispatches at most as many words as they cost (`Runs.dispatches_le`), and exactly as many if it
comes to its end (`Runs.dispatches_of_finished`). The second tells how a run ended: a definition is
opened once if the run ends with one, and else never (`Runs.definitionStarts_eq`).
-/

namespace WordCalc

namespace Event

/-- Whether the event is the dispatch of a word. -/
def isDispatch : Event → Bool
  | dispatched .. => true
  | _ => false

/-- Whether the event is the dispatch of a word that opens a definition in `d`. -/
def opensDefinition (d : Dictionary) : Event → Bool
  | dispatched w _ =>
    match classify d w with
    | .ok .defBegin => true
    | _ => false
  | _ => false

/-- Whether the event is the record of a definition. -/
def isRecord : Event → Bool
  | recorded .. => true
  | _ => false

end Event

/-- The number of words dispatched. -/
def dispatches (log : Array Event) : Nat := log.countP Event.isDispatch

/-- The number of words dispatched that opened a definition in `d`. -/
def definitionStarts (d : Dictionary) (log : Array Event) : Nat :=
  log.countP (Event.opensDefinition d)

/-- The number of definitions recorded. -/
def records (log : Array Event) : Nat := log.countP Event.isRecord

/-- The number of definitions that a run ends with. -/
def Ending.definitions : Ending → Nat
  | defining .. => 1
  | _ => 0

@[simp] theorem dispatches_empty : dispatches #[] = 0 := rfl

@[simp] theorem definitionStarts_empty (d : Dictionary) : definitionStarts d #[] = 0 := rfl

theorem dispatches_push (log : Array Event) (e : Event) :
    dispatches (log.push e) = dispatches log + if e.isDispatch then 1 else 0 := Array.countP_push

theorem definitionStarts_push (d : Dictionary) (log : Array Event) (e : Event) :
    definitionStarts d (log.push e) =
      definitionStarts d log + if e.opensDefinition d then 1 else 0 := Array.countP_push

theorem records_push (log : Array Event) (e : Event) :
    records (log.push e) = records log + if e.isRecord then 1 else 0 := Array.countP_push

@[simp] theorem dispatches_push_dispatched (log : Array Event) (w : Word) (n : Nat) :
    dispatches (log.push (.dispatched w n)) = dispatches log + 1 := dispatches_push ..

section Opening

variable {d : Dictionary} {w : Word} {body : List Word} (n : Nat)

theorem opensDefinition_beginMark (h : d.body? Token.beginMark = none) :
    (Event.dispatched Token.beginMark n).opensDefinition d = true := by
  simp [Event.opensDefinition, classify_beginMark h]

theorem opensDefinition_of_body? (hnum : d.NoNumerals) (h : d.body? w = some body) :
    (Event.dispatched w n).opensDefinition d = false := by
  simp [Event.opensDefinition, classify_of_body? hnum h]

/-- A word other than the begin mark opens no definition. -/
theorem opensDefinition_of_ne (hw : w ≠ Token.beginMark) :
    (Event.dispatched w n).opensDefinition d = false := by
  simp only [Event.opensDefinition]
  split
  · rename_i h
    exact absurd (text_of_classify h nofun).symm hw
  · rfl

end Opening

namespace Runs

variable {settings : Settings} {d : Dictionary} {queue : List Word} {s : Stack} {n : Nat}
  {log : Array Event} {r : Stopped}

/-- A run dispatches at most as many words as the pending words cost. -/
theorem dispatches_le (h : Runs settings d queue s n log r) (hd : d.Acyclic) :
    dispatches r.log ≤ dispatches log + d.costs hd queue := by
  induction h with
  | finished s n log => simp
  | limit hlim => simp
  | @call w body rest s n log r hlim hb hr ih =>
    rw [Dictionary.costs_append] at ih
    rw [Dictionary.costs_cons, Dictionary.cost_of_body? hd hb]
    simp only [dispatches_push_dispatched] at ih
    omega
  | @define rest s n log hlim hb =>
    rw [Dictionary.costs_cons, Dictionary.cost_of_not_defined hd hb]
    simp only [dispatches_push_dispatched]
    omega
  | @step w rest s s' n log r hlim hb hw hs hr ih =>
    rw [Dictionary.costs_cons, Dictionary.cost_of_not_defined hd hb]
    simp only [dispatches_push_dispatched] at ih
    omega
  | @fault w rest s n log f hlim hb hw hs =>
    rw [Dictionary.costs_cons, Dictionary.cost_of_not_defined hd hb]
    simp only [dispatches_push_dispatched]
    omega

/-- A run that comes to its end dispatches exactly as many words as the pending words cost. -/
theorem dispatches_of_finished (h : Runs settings d queue s n log r) (hd : d.Acyclic) {st : Stack}
    (hf : r.ending = .finished st) : dispatches r.log = dispatches log + d.costs hd queue := by
  induction h with
  | finished s n log => simp
  | limit hlim => cases hf
  | @call w body rest s n log r hlim hb hr ih =>
    rw [ih hf, dispatches_push_dispatched, Dictionary.costs_append, Dictionary.costs_cons,
      Dictionary.cost_of_body? hd hb]
    omega
  | define hlim hb => cases hf
  | @step w rest s s' n log r hlim hb hw hs hr ih =>
    rw [ih hf, dispatches_push_dispatched, Dictionary.costs_cons,
      Dictionary.cost_of_not_defined hd hb]
    omega
  | fault hlim hb hw hs => cases hf

/-- A run opens a definition once if it ends with one, and else never. -/
theorem definitionStarts_eq (h : Runs settings d queue s n log r) (hnum : d.NoNumerals) :
    definitionStarts d r.log = definitionStarts d log + r.ending.definitions := by
  induction h with
  | finished s n log => simp [Ending.definitions]
  | limit hlim => simp [Ending.definitions]
  | call hlim hb hr ih => simp [ih, definitionStarts_push, opensDefinition_of_body? _ hnum hb]
  | define hlim hb =>
    simp [definitionStarts_push, opensDefinition_beginMark _ hb, Ending.definitions]
  | step hlim hb hw hs hr ih => simp [ih, definitionStarts_push, opensDefinition_of_ne _ hw]
  | fault hlim hb hw hs =>
    simp [definitionStarts_push, opensDefinition_of_ne _ hw, Ending.definitions]

/-- A run itself records nothing. -/
theorem records_eq (h : Runs settings d queue s n log r) : records r.log = records log := by
  induction h with
  | finished s n log | limit hlim => rfl
  | call hlim hb hr ih | step hlim hb hw hs hr ih => simpa [records_push, Event.isRecord] using ih
  | define hlim hb | fault hlim hb hw hs => simp [records_push, Event.isRecord]

/-- A run counts each of its words. -/
theorem le_steps (h : Runs settings d queue s n log r) : n ≤ r.steps := by
  induction h with
  | finished s n log => exact Nat.le_refl n
  | limit hlim | define hlim hb | fault hlim hb hw hs => exact Nat.le_succ _
  | call hlim hb hr ih | step hlim hb hw hs hr ih => exact Nat.le_of_succ_le ih

/-- A run that does not come to its end has counted a word. -/
theorem lt_steps (h : Runs settings d queue s n log r) (hf : ∀ st, r.ending ≠ .finished st) :
    n < r.steps := by
  cases h with
  | finished => exact absurd rfl (hf s)
  | limit hlim | define hlim hb | fault hlim hb hw hs => exact Nat.lt_succ_self n
  | call hlim hb hr | step hlim hb hw hs hr => exact hr.le_steps

end Runs

/-! ## The journal of a line -/

namespace Session

variable {s : Session}

/-- A line opens a definition once if it ends with one, and else never. -/
theorem definitionStarts_evalLine (hwf : s.dictionary.WellFormed) (line : String) :
    definitionStarts s.dictionary (s.evalLine line).events = (s.ending line).definitions := by
  have hends := s.ends_evalLine line
  generalize s.evalLine line = o at hends
  cases hends with
  | finished hrun | fault hrun | rejected hrun hf | recorded hrun hx =>
    have heq := (runs_stopped hwf hrun).definitionStarts_eq hwf.noNumerals
    simpa [definitionStarts_push, Event.opensDefinition, ending, hrun] using heq

/-- A line dispatches at most as many words as its words cost. -/
theorem dispatches_evalLine_le (hwf : s.dictionary.WellFormed) (line : String) :
    dispatches (s.evalLine line).events ≤ s.dictionary.costs s.acyclic (tokenize line) := by
  have hends := s.ends_evalLine line
  generalize s.evalLine line = o at hends
  cases hends with
  | finished hrun | fault hrun | rejected hrun hf | recorded hrun hx =>
    have hle := (runs_stopped hwf hrun).dispatches_le s.acyclic
    simpa [dispatches_push, Event.isDispatch] using hle

/-- A line that succeeds without opening a definition dispatches exactly as many. -/
theorem dispatches_evalLine_eq (hwf : s.dictionary.WellFormed) (line : String)
    (hok : (s.evalLine line).result = .ok ())
    (hdef : definitionStarts s.dictionary (s.evalLine line).events = 0) :
    dispatches (s.evalLine line).events = s.dictionary.costs s.acyclic (tokenize line) := by
  rw [definitionStarts_evalLine hwf] at hdef
  have hends := s.ends_evalLine line
  generalize s.evalLine line = o at hends hok
  cases hends with
  | finished hrun => simpa using (runs_stopped hwf hrun).dispatches_of_finished s.acyclic rfl
  | fault hrun | rejected hrun hf => cases hok
  | recorded hrun hx => simp [ending, hrun, Ending.definitions] at hdef

end Session

end WordCalc
