import WordCalc.Proofs.Runs
import WordCalc.Session

/-!
# Reachable sessions

A session is reachable when lines have led to it from a fresh one, whatever its settings and
however many of the lines had a fault. A line leaves the dictionary as it is or inserts one
definition into it (`dictionary_evalLine`), so the dictionary of a reachable session is recorded
and well-formed.

A line is the run of its words (`stopped`) and a conclusion (`conclude`), which alone can change the
dictionary. What holds of lines is proved for runs first and then carried over the conclusion.
-/

namespace WordCalc

/-- The outcome with the events `past` in front of its journal. -/
def Outcome.since (o : Outcome) (past : Array Event) : Outcome :=
  { o with events := past ++ o.events }

namespace Session

/-- Lines have led to the session from a fresh one. -/
inductive Reachable : Session → Prop
  | fresh (settings : Settings) : Reachable (fresh settings)
  | line {s : Session} (hs : Reachable s) (line : String) : Reachable (s.evalLine line).session

/-! ## How a line is concluded -/

section Defining

variable {s : Session} {words : List Word} {st : Stack} {n : Nat} {log : Array Event}

/-- A definition that is rejected gives up the line. -/
theorem conclude_defining_of_error {f : Fault} (h : s.dictionary.define words = .error f) :
    s.conclude ⟨.defining words st, n, log⟩ =
      ⟨.error f, { s with stack := .empty, steps := n }, log.push (.aborted f)⟩ :=
  define_of_error (s := { s with stack := st, steps := n }) h

/-- A definition that is accepted is inserted into the dictionary. -/
theorem conclude_defining_of_ok {x : Definition} (h : s.dictionary.define words = .ok x) :
    s.conclude ⟨.defining words st, n, log⟩ =
      ⟨.ok (), ⟨s.settings, st, s.dictionary.insert x, n,
          Dictionary.acyclic_insert_of_define s.acyclic h⟩,
        log.push (.recorded x.name (unwords x.body) (s.dictionary.contains x.name))⟩ :=
  define_of_ok (s := { s with stack := st, steps := n }) h

end Defining

/-- The session under other settings. -/
def withSettings (s : Session) (settings : Settings) : Session :=
  { s with settings := settings }

/-- Beyond the run of the words the settings make no difference. -/
theorem conclude_withSettings (s : Session) (settings : Settings) (r : Stopped) :
    (s.withSettings settings).conclude r =
      ⟨(s.conclude r).result, (s.conclude r).session.withSettings settings,
        (s.conclude r).events⟩ := by
  obtain ⟨ending, n, log⟩ := r
  cases ending with
  | finished st | fault f => rfl
  | defining words st =>
    cases hx : s.dictionary.define words with
    | error f =>
      rw [conclude_defining_of_error hx,
        conclude_defining_of_error (s := s.withSettings settings) hx]
      rfl
    | ok x =>
      rw [conclude_defining_of_ok hx, conclude_defining_of_ok (s := s.withSettings settings) hx]
      rfl

/-- A line whose words run alike under other settings does the same under them. -/
theorem evalLine_withSettings {s : Session} {settings : Settings} {line : String}
    (h : (s.withSettings settings).stopped line = s.stopped line) :
    (s.withSettings settings).evalLine line =
      ⟨(s.evalLine line).result, (s.evalLine line).session.withSettings settings,
        (s.evalLine line).events⟩ := by
  rw [evalLine, h, conclude_withSettings, ← evalLine]

/-! ## The four ways in which a line ends -/

/-- How the words of a line come to an end. -/
def ending (s : Session) (line : String) : Ending :=
  (s.stopped line).ending

/-- `s.Ends line o`: the line leads the session `s` to the outcome `o`. -/
inductive Ends (s : Session) (line : String) : Outcome → Prop
  /-- All words are done. -/
  | finished {st : Stack} {n : Nat} {log : Array Event}
      (hrun : s.stopped line = ⟨.finished st, n, log⟩) :
      Ends s line ⟨.ok (), { s with stack := st, steps := n }, log⟩
  /-- A word has a fault, or the limit refuses it. -/
  | fault {f : Fault} {n : Nat} {log : Array Event} (hrun : s.stopped line = ⟨.fault f, n, log⟩) :
      Ends s line ⟨.error f, { s with stack := .empty, steps := n }, log.push (.aborted f)⟩
  /-- The line ends with a definition, which is rejected. -/
  | rejected {words : List Word} {st : Stack} {n : Nat} {log : Array Event} {f : Fault}
      (hrun : s.stopped line = ⟨.defining words st, n, log⟩)
      (hf : s.dictionary.define words = .error f) :
      Ends s line ⟨.error f, { s with stack := .empty, steps := n }, log.push (.aborted f)⟩
  /-- The line ends with a definition, which is recorded. -/
  | recorded {words : List Word} {st : Stack} {n : Nat} {log : Array Event} {x : Definition}
      (hrun : s.stopped line = ⟨.defining words st, n, log⟩)
      (hx : s.dictionary.define words = .ok x) :
      Ends s line
        ⟨.ok (), ⟨s.settings, st, s.dictionary.insert x, n,
            Dictionary.acyclic_insert_of_define s.acyclic hx⟩,
          log.push (.recorded x.name (unwords x.body) (s.dictionary.contains x.name))⟩

theorem ends_evalLine (s : Session) (line : String) : s.Ends line (s.evalLine line) := by
  rw [evalLine]
  rcases hrun : s.stopped line with ⟨ending, n, log⟩
  cases ending with
  | finished st => exact .finished hrun
  | fault f => exact .fault hrun
  | defining words st =>
    cases hx : s.dictionary.define words with
    | error f =>
      rw [conclude_defining_of_error hx]
      exact .rejected hrun hx
    | ok x =>
      rw [conclude_defining_of_ok hx]
      exact .recorded hrun hx

variable {s : Session}

/-- The words of a line run by the rules. -/
theorem runs_stopped (hwf : s.dictionary.WellFormed) {line : String} {r : Stopped}
    (hrun : s.stopped line = r) :
    Runs s.settings s.dictionary (tokenize line) s.stack s.steps #[] r :=
  hrun ▸ runs_run s.settings hwf.noNumerals s.acyclic (tokenize line) s.stack s.steps #[]

/-- A line whose words run into a fault has that fault. -/
theorem result_of_fault {line : String} {f : Fault} (h : s.ending line = .fault f) :
    (s.evalLine line).result = .error f := by
  rw [evalLine]
  unfold ending at h
  generalize s.stopped line = r at h
  obtain ⟨ending, n, log⟩ := r
  obtain rfl : ending = .fault f := h
  rfl

/-- A line leaves the dictionary as it is or inserts one accepted definition. -/
theorem dictionary_evalLine (s : Session) (line : String) :
    (s.evalLine line).session.dictionary = s.dictionary ∨
      ∃ words x, s.dictionary.define words = .ok x ∧
        (s.evalLine line).session.dictionary = s.dictionary.insert x := by
  have h := s.ends_evalLine line
  generalize s.evalLine line = o at h
  cases h with
  | finished hrun => exact .inl rfl
  | fault hrun => exact .inl rfl
  | rejected hrun hf => exact .inl rfl
  | recorded hrun hx => exact .inr ⟨_, _, hx, rfl⟩

/-- A line leaves the settings as they are. -/
theorem settings_evalLine (s : Session) (line : String) :
    (s.evalLine line).session.settings = s.settings := by
  have hends := s.ends_evalLine line
  generalize s.evalLine line = o at hends
  cases hends <;> rfl

/-- A line counts the words that its run counts. -/
theorem steps_evalLine (s : Session) (line : String) :
    (s.evalLine line).session.steps = (s.stopped line).steps := by
  have hends := s.ends_evalLine line
  generalize s.evalLine line = o at hends
  cases hends with
  | finished hrun | fault hrun | rejected hrun hf | recorded hrun hx => rw [hrun]

/-! ## Invariants of reachable sessions -/

theorem Reachable.recorded (hs : s.Reachable) : s.dictionary.Recorded := by
  induction hs with
  | fresh settings => exact .empty
  | @line s hs line ih =>
    rcases dictionary_evalLine s line with he | ⟨words, x, hx, he⟩
    · exact he ▸ ih
    · exact he ▸ ih.record (Dictionary.record_of_define_ok hx)

theorem Reachable.wellFormed (hs : s.Reachable) : s.dictionary.WellFormed :=
  hs.recorded.wellFormed

/-! ## A session after several lines -/

/-- The session after the lines, whether or not some of them had a fault. -/
def after (s : Session) (lines : List String) : Session :=
  lines.foldl (fun s line => (s.evalLine line).session) s

@[simp] theorem after_nil (s : Session) : s.after [] = s := rfl

@[simp] theorem after_cons (s : Session) (line : String) (lines : List String) :
    s.after (line :: lines) = (s.evalLine line).session.after lines := rfl

theorem Reachable.after (hs : s.Reachable) (lines : List String) : (s.after lines).Reachable := by
  induction lines generalizing s with
  | nil => exact hs
  | cons line lines ih => exact ih (hs.line line)

theorem settings_after (s : Session) (lines : List String) :
    (s.after lines).settings = s.settings := by
  induction lines generalizing s with
  | nil => rfl
  | cons line lines ih => rw [after_cons, ih, settings_evalLine]

/-- A line without a fault makes way for the next one. -/
theorem evalLinesOnto_cons_of_ok {line : String} (h : (s.evalLine line).result = .ok ())
    (log : Array Event) (lines : List String) :
    s.evalLinesOnto log (line :: lines) =
      (s.evalLine line).session.evalLinesOnto (log ++ (s.evalLine line).events) lines := by
  rw [evalLinesOnto]
  split
  · rename_i he
    rw [he]
  · rename_i he
    rw [he] at h
    cases h

/-- A line with a fault is the last one. -/
theorem evalLinesOnto_cons_of_error {line : String} {f : Fault}
    (h : (s.evalLine line).result = .error f) (log : Array Event) (lines : List String) :
    s.evalLinesOnto log (line :: lines) =
      ⟨.error f, (s.evalLine line).session, log ++ (s.evalLine line).events⟩ := by
  rw [evalLinesOnto]
  split
  · rename_i he
    rw [he] at h
    cases h
  · rename_i he
    rw [he] at h ⊢
    cases h
    rfl

theorem Reachable.evalLinesOnto (hs : s.Reachable) (log : Array Event) (lines : List String) :
    (s.evalLinesOnto log lines).session.Reachable := by
  induction lines generalizing s log with
  | nil => exact hs
  | cons line lines ih =>
    have hline := hs.line line
    rw [Session.evalLinesOnto]
    split
    · rename_i he
      rw [he] at hline
      exact ih hline _
    · rename_i he
      rwa [he] at hline

end Session

/-- A session with a word whose body calls a word that was defined later. -/
def cubeSession : Session :=
  (((Session.fresh {}).evalLine ": CUBE SQ * ;").session.evalLine ": SQ DUP DUP * ;").session

theorem reachable_cubeSession : cubeSession.Reachable :=
  ((Session.Reachable.fresh {}).line _).line _

theorem settings_cubeSession : cubeSession.settings = {} := by
  rw [cubeSession, Session.settings_evalLine, Session.settings_evalLine]
  rfl

end WordCalc
