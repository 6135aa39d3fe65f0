import WordCalc.Proofs.Reachable

/-!
# The history of a session

A session is used through calls: a single line, or a sequence of lines that is given up at the first
line with a fault. Its history is the session after the calls and the journal of all of them. A
fault ends a call but not the history.

A sequence of lines adds nothing to its lines but the event at its end (`evalLines_cons_of_ok`,
`evalLines_cons_of_error`). So what a line keeps, and the event at the end of a sequence keeps,
holds of every history (`History.after_induction`).
-/

namespace WordCalc

/-! ## Sequences of lines -/

namespace Session

variable {s : Session}

/-- What has been logged before the lines stands in front of their journal. -/
theorem evalLinesOnto_eq_since (s : Session) (log : Array Event) (lines : List String) :
    s.evalLinesOnto log lines = (s.evalLines lines).since log := by
  have key (past : Array Event) :
      s.evalLinesOnto (log ++ past) lines = (s.evalLinesOnto past lines).since log := by
    induction lines generalizing s past with
    | nil => simp [evalLinesOnto, Outcome.since]
    | cons line lines ih =>
      cases hr : (s.evalLine line).result with
      | ok u =>
        rw [evalLinesOnto_cons_of_ok hr, evalLinesOnto_cons_of_ok hr, Array.append_assoc]
        exact ih _ _
      | error f =>
        rw [evalLinesOnto_cons_of_error hr, evalLinesOnto_cons_of_error hr]
        simp [Outcome.since]
  have h := key #[]
  rwa [Array.append_empty] at h

@[simp]
theorem evalLines_nil (s : Session) :
    s.evalLines [] = ⟨.ok (), s, #[.finished s.stack.depth s.dictionary.size s.steps]⟩ := rfl

/-- A line without a fault makes way for the next ones. -/
theorem evalLines_cons_of_ok {line : String} (h : (s.evalLine line).result = .ok ())
    (lines : List String) :
    s.evalLines (line :: lines) =
      ((s.evalLine line).session.evalLines lines).since (s.evalLine line).events := by
  rw [evalLines, evalLinesOnto_cons_of_ok h, Array.empty_append, evalLinesOnto_eq_since]

/-- A sequence of lines is given up with the first line that has a fault. -/
theorem evalLines_cons_of_error {line : String} {f : Fault}
    (h : (s.evalLine line).result = .error f) (lines : List String) :
    s.evalLines (line :: lines) = s.evalLine line := by
  rw [evalLines, evalLinesOnto_cons_of_error h, Array.empty_append, ← h]

end Session

/-! ## Calls -/

/-- A call of a session. -/
inductive Call where
  | line (line : String)
  /-- Lines, up to the first that has a fault. -/
  | lines (lines : List String)

/-- What a call of the session leads to. -/
def Session.answer (s : Session) : Call → Outcome
  | .line line => s.evalLine line
  | .lines lines => s.evalLines lines

/-- A call leads from a reachable session to a reachable one. -/
theorem Session.Reachable.answer {s : Session} (hs : s.Reachable) (call : Call) :
    (s.answer call).session.Reachable := by
  cases call with
  | line l => exact hs.line l
  | lines ls => exact hs.evalLinesOnto #[] ls

/-- A session and the journal of all that has happened in it. -/
structure History where
  session : Session
  journal : Array Event

namespace History

/-- The history of a session that has evaluated nothing. -/
def fresh (settings : Settings) : History := ⟨.fresh settings, #[]⟩

/-- The history that goes on with an outcome of its session. -/
def extend (h : History) (o : Outcome) : History := ⟨o.session, h.journal ++ o.events⟩

/-- The history after the calls, whether or not some of them had a fault. -/
def after (h : History) (calls : List Call) : History :=
  calls.foldl (fun h call => h.extend (h.session.answer call)) h

/-- The history at the end of a sequence of lines without a fault. -/
def finish (h : History) : History :=
  ⟨h.session, h.journal.push (.finished h.session.stack.depth h.session.dictionary.size
    h.session.steps)⟩

theorem extend_evalLines_nil (h : History) : h.extend (h.session.evalLines []) = h.finish := by
  simp [extend, finish]

theorem extend_since (h : History) (o o' : Outcome) :
    h.extend (o'.since o.events) = (h.extend o).extend o' := by
  simp [extend, Outcome.since]

variable {motive : History → Prop}

/-- What holds after a line and at the end of the lines holds after a sequence of lines. -/
theorem extend_evalLines
    (line : ∀ h : History, h.session.Reachable → motive h →
      ∀ line, motive (h.extend (h.session.evalLine line)))
    (finish : ∀ h : History, motive h → motive h.finish)
    {h : History} (hs : h.session.Reachable) (hm : motive h) (lines : List String) :
    motive (h.extend (h.session.evalLines lines)) := by
  induction lines generalizing h with
  | nil => exact h.extend_evalLines_nil ▸ finish h hm
  | cons l lines ih =>
    have hl := line h hs hm l
    cases hr : (h.session.evalLine l).result with
    | ok u =>
      rw [Session.evalLines_cons_of_ok hr, extend_since]
      exact ih (hs.line l) hl
    | error f => rwa [Session.evalLines_cons_of_error hr]

/-- **Induction on histories**: what holds of a fresh session, and is kept by every line and by the
event at the end of a sequence of lines, holds after all calls. -/
theorem after_induction (settings : Settings) (fresh : motive (fresh settings))
    (line : ∀ h : History, h.session.Reachable → motive h →
      ∀ line, motive (h.extend (h.session.evalLine line)))
    (finish : ∀ h : History, motive h → motive h.finish) (calls : List Call) :
    motive ((History.fresh settings).after calls) := by
  have key (h : History) (hs : h.session.Reachable) (hm : motive h) : motive (h.after calls) := by
    induction calls generalizing h with
    | nil => exact hm
    | cons call calls ih =>
      refine ih _ (hs.answer call) ?_
      cases call with
      | line l => exact line h hs hm l
      | lines ls => exact extend_evalLines line finish hs hm ls
  exact key _ (.fresh settings) fresh

/-- Calls lead from a fresh session to reachable ones. -/
theorem reachable (settings : Settings) (calls : List Call) :
    ((fresh settings).after calls).session.Reachable :=
  after_induction (motive := fun h => h.session.Reachable) settings (.fresh settings)
    (fun _ hs _ line => hs.line line) (fun _ hs => hs) calls

/-- Calls leave the settings as they are. -/
theorem settings_after (settings : Settings) (calls : List Call) :
    ((fresh settings).after calls).session.settings = settings := by
  refine after_induction (motive := fun h => h.session.settings = settings) settings rfl
    (fun h _ hm line => ?_) (fun h hm => hm) calls
  exact (Session.settings_evalLine h.session line).trans hm

end History

end WordCalc
