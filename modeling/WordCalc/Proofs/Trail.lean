import Mathlib
import WordCalc.Proofs.Depth
import WordCalc.Proofs.History
import WordCalc.Proofs.Journal

/-!
# The shape of a journal

A run writes nothing into the journal but the words that it dispatches, its *trail*
(`Runs.exists_trail`). The trail tells where the stack stood at each word, and how many words have
been counted: all that the limit has let through. The conclusion of a line adds one event at most,
the record of a definition or the fault that gives up the line (`Session.exists_closing`), and the
end of a sequence of lines adds the event that says so.

`journal_has_shape` puts this together for lines, sequences of lines and whole histories.
-/

namespace WordCalc

/-! ## Words that the limit lets through -/

/-- Of `n` counted words, those that the limit lets through. -/
def Settings.admitted (settings : Settings) (n : Nat) : Nat :=
  match settings.maxSteps with
  | none => n
  | some limit => min n limit

namespace Settings

variable {settings : Settings} {limit n : Nat}

@[simp]
theorem admitted_zero (settings : Settings) : settings.admitted 0 = 0 := by
  unfold admitted
  split <;> simp

theorem admitted_le (settings : Settings) (n : Nat) : settings.admitted n ≤ n := by
  unfold admitted
  split
  · exact Nat.le_refl n
  · exact Nat.min_le_left n _

theorem admitted_le_of_maxSteps (h : settings.maxSteps = some limit) :
    settings.admitted n ≤ limit := by
  rw [admitted, h]
  exact Nat.min_le_right n limit

theorem admitted_succ_of_none (h : settings.exceededLimit? (n + 1) = none) :
    settings.admitted (n + 1) = settings.admitted n + 1 := by
  unfold admitted
  cases hm : settings.maxSteps with
  | none => rfl
  | some limit =>
    have hle : n + 1 ≤ limit := by simpa [exceededLimit?, hm] using h
    dsimp only
    omega

theorem admitted_succ_of_some (h : settings.exceededLimit? (n + 1) = some limit) :
    settings.admitted (n + 1) = settings.admitted n := by
  unfold admitted
  cases hm : settings.maxSteps with
  | none =>
    rw [exceededLimit?_of_maxSteps_none hm] at h
    cases h
  | some m =>
    have hlt : m < n + 1 := by
      by_contra hle
      rw [exceededLimit?_of_le hm (Nat.le_of_not_lt hle)] at h
      cases h
    dsimp only
    omega

end Settings

/-- The words that the fault leaves counted but not dispatched: the limit refuses one. -/
def Fault.refusals : Fault → Nat
  | stepLimit _ => 1
  | _ => 0

/-- The words that have been counted but not dispatched at the end of a run. -/
def Ending.refusals : Ending → Nat
  | fault f => f.refusals
  | _ => 0

/-- The words that a call has counted but not dispatched. -/
def Outcome.refusals (o : Outcome) : Nat :=
  match o.result with
  | .ok () => 0
  | .error f => f.refusals

/-- A word that is dispatched is not refused. -/
theorem Plain.refusals_of_step {check : ZeroCheck} {s : Stack} {w : Word} {f : Fault}
    (h : step check s w = .error f) : f.refusals = 0 := by
  unfold step at h
  split at h
  · cases h
  · rcases Operator.fault_of_onStack_error h with rfl | rfl | rfl <;> rfl
  · rw [Shuffle.fault_of_onStack_error h]
    rfl
  · cases h
    rfl
  · rename_i hc
    cases h
    rw [fault_of_classify_error hc]
    rfl

/-- A definition is rejected for its own sake, not by the limit. -/
theorem Dictionary.refusals_of_define {d : Dictionary} (hd : d.Acyclic) {words : List Word}
    {f : Fault} (h : d.define words = .error f) : f.refusals = 0 := by
  unfold define at h
  split at h
  · cases h
    rfl
  · rw [expand_eq_flat hd] at h
    dsimp only at h
    split_ifs at h <;> cases h <;> rfl

/-! ## The trail of a run -/

/-- The words that a run dispatches, in order, each with the depth of the stack that it meets. -/
abbrev Trail := List (Word × Nat)

/-- The trail as the journal tells it. -/
def Trail.events (t : Trail) : List Event := t.map fun p => .dispatched p.1 p.2

/-- `t` is the trail of a run that starts on a stack of the given depth, with `n` words counted and
the journal `log`, and comes to the end `r`. -/
structure IsTrail (settings : Settings) (depth n : Nat) (log : Array Event) (r : Stopped)
    (t : Trail) : Prop where
  log_eq : r.log = log ++ t.events.toArray
  head_depth : ∀ p ∈ t.head?, p.2 = depth
  depths : t.IsChain fun p q => p.2 ≤ q.2 + 1 ∧ q.2 ≤ p.2 + 1
  steps_eq : r.steps = n + t.length + r.ending.refusals
  admitted_eq : settings.admitted r.steps = settings.admitted n + t.length

namespace IsTrail

variable {settings : Settings} {depth depth' n : Nat} {log : Array Event} {r : Stopped} {t : Trail}
  {w : Word}

/-- A run that has come to its end has no trail to go. -/
theorem nil (h : r.ending.refusals = 0) : IsTrail settings depth r.steps r.log r [] :=
  ⟨by simp [Trail.events], nofun, .nil, by simp [h], by simp⟩

/-- A word that is dispatched stands at the head of the trail. -/
theorem cons (hlim : settings.exceededLimit? (n + 1) = none)
    (hdepth : depth ≤ depth' + 1 ∧ depth' ≤ depth + 1)
    (h : IsTrail settings depth' (n + 1) (log.push (.dispatched w depth)) r t) :
    IsTrail settings depth n log r ((w, depth) :: t) where
  log_eq := by rw [h.log_eq]; simp [Trail.events]
  head_depth := by simp
  depths := by
    refine h.depths.cons fun q hq => ?_
    rw [h.head_depth q hq]
    exact hdepth
  steps_eq := by rw [h.steps_eq, List.length_cons]; omega
  admitted_eq := by
    rw [h.admitted_eq, Settings.admitted_succ_of_none hlim, List.length_cons]
    omega

/-- A word that is dispatched and ends the run is the whole trail. -/
theorem singleton {e : Ending} (hlim : settings.exceededLimit? (n + 1) = none)
    (h : e.refusals = 0) :
    IsTrail settings depth n log ⟨e, n + 1, log.push (.dispatched w depth)⟩ [(w, depth)] :=
  cons hlim ⟨Nat.le_succ depth, Nat.le_succ depth⟩
    (nil (r := ⟨e, n + 1, log.push (.dispatched w depth)⟩) h)

theorem toList_log (h : IsTrail settings depth n #[] r t) : r.log.toList = t.events := by
  simp [h.log_eq]

end IsTrail

namespace Runs

variable {settings : Settings} {d : Dictionary} {queue words : List Word} {s st : Stack} {n : Nat}
  {log : Array Event} {r : Stopped}

/-- **A run leaves a trail**, and nothing else in the journal. -/
theorem exists_trail (h : Runs settings d queue s n log r) :
    ∃ t, IsTrail settings s.depth n log r t := by
  induction h with
  | finished s n log => exact ⟨[], .nil (r := ⟨.finished s, n, log⟩) rfl⟩
  | @limit w rest s n limit log hlim =>
    exact ⟨[], by simp [Trail.events], nofun, .nil, rfl, Settings.admitted_succ_of_some hlim⟩
  | call hlim hb hr ih =>
    obtain ⟨t, ht⟩ := ih
    exact ⟨_, .cons hlim ⟨Nat.le_succ _, Nat.le_succ _⟩ ht⟩
  | define hlim hb => exact ⟨_, .singleton hlim rfl⟩
  | step hlim hb hw hs hr ih =>
    obtain ⟨t, ht⟩ := ih
    have hdepth := Plain.depth_step hs
    exact ⟨_, .cons hlim ⟨hdepth.2, hdepth.1⟩ ht⟩
  | fault hlim hb hw hs => exact ⟨_, .singleton hlim (Plain.refusals_of_step hs)⟩

/-- The last word before a definition is the begin mark. -/
theorem back?_of_defining (h : Runs settings d queue s n log r)
    (he : r.ending = .defining words st) :
    ∃ depth, r.log.back? = some (.dispatched Token.beginMark depth) := by
  induction h with
  | @define rest s n log hlim hb => exact ⟨s.depth, Array.back?_push⟩
  | call hlim hb hr ih => exact ih he
  | step hlim hb hw hs hr ih => exact ih he
  | finished | limit | fault => cases he

end Runs

/-! ## The journal of a line -/

namespace Session

variable {s : Session} {line : String} {x y : Definition}

/-- The line writes `x` into the dictionary: its words end with a definition, which is accepted
as `x`. -/
def Writes (s : Session) (line : String) (x : Definition) : Prop :=
  ∃ words st, s.ending line = .defining words st ∧ s.dictionary.define words = .ok x

theorem Writes.unique (hx : s.Writes line x) (hy : s.Writes line y) : x = y := by
  obtain ⟨words, st, he, hx⟩ := hx
  obtain ⟨words', st', he', hy⟩ := hy
  cases he.symm.trans he'
  exact Except.ok.inj (hx.symm.trans hy)

/-- What a line with the given result leaves of the dictionary, and the events that close its
journal. -/
inductive Closes (s : Session) (line : String) :
    Except Fault Unit → Dictionary → List Event → Prop
  | done (hw : ∀ x, ¬ s.Writes line x) : Closes s line (.ok ()) s.dictionary []
  | aborted (f : Fault) (hw : ∀ x, ¬ s.Writes line x) :
      Closes s line (.error f) s.dictionary [.aborted f]
  | recorded (x : Definition) (hw : s.Writes line x) :
      Closes s line (.ok ()) (s.dictionary.insert x)
        [.recorded x.name (unwords x.body) (s.dictionary.contains x.name)]

namespace Closes

variable {r : Except Fault Unit} {d : Dictionary} {closing : List Event}

theorem closing_cases (h : s.Closes line r d closing) :
    closing = [] ∨ (∃ name body redefined, closing = [.recorded name body redefined]) ∨
      ∃ f, closing = [.aborted f] := by
  cases h with
  | done hw => exact .inl rfl
  | aborted f hw => exact .inr (.inr ⟨f, rfl⟩)
  | recorded x hw => exact .inr (.inl ⟨_, _, _, rfl⟩)

theorem aborted_iff (h : s.Closes line r d closing) (f : Fault) :
    closing = [.aborted f] ↔ r = .error f := by
  cases h <;> simp

theorem recorded_iff (h : s.Closes line r d closing) :
    (∃ name body redefined, closing = [.recorded name body redefined]) ↔ ∃ x, s.Writes line x := by
  cases h with
  | done hw | aborted f hw => simpa using hw
  | recorded x hw => exact ⟨fun _ => ⟨x, hw⟩, fun _ => ⟨_, _, _, rfl⟩⟩

theorem of_writes (h : s.Closes line r d closing) (hx : s.Writes line x) :
    closing = [.recorded x.name (unwords x.body) (s.dictionary.contains x.name)] ∧
      d = s.dictionary.insert x := by
  cases h with
  | done hw | aborted f hw => exact absurd hx (hw x)
  | recorded y hy =>
    obtain rfl := hx.unique hy
    exact ⟨rfl, rfl⟩

theorem of_not_writes (h : s.Closes line r d closing) (hw : ∀ x, ¬ s.Writes line x) :
    d = s.dictionary := by
  cases h with
  | done _ | aborted f _ => rfl
  | recorded x hx => exact absurd hx (hw x)

end Closes

/-- **One event at most closes the journal of a line**: the record of the definition that it writes
or the fault that gives it up. -/
theorem exists_closing (s : Session) (line : String) :
    ∃ closing, s.Closes line (s.evalLine line).result (s.evalLine line).session.dictionary closing ∧
      (s.evalLine line).events.toList = (s.stopped line).log.toList ++ closing := by
  have hends := s.ends_evalLine line
  generalize s.evalLine line = o at hends
  cases hends with
  | finished hrun =>
    refine ⟨[], .done ?_, by simp [hrun]⟩
    rintro x ⟨words, st, he, -⟩
    rw [ending, hrun] at he
    cases he
  | @fault f n log hrun =>
    refine ⟨[.aborted f], .aborted f ?_, by simp [hrun]⟩
    rintro x ⟨words, st, he, -⟩
    rw [ending, hrun] at he
    cases he
  | @rejected words st n log f hrun hf =>
    refine ⟨[.aborted f], .aborted f ?_, by simp [hrun]⟩
    rintro x ⟨words', st', he, hx⟩
    rw [ending, hrun] at he
    cases he
    rw [hf] at hx
    cases hx
  | @recorded words st n log x hrun hx =>
    exact ⟨_, .recorded x ⟨words, st, by rw [ending, hrun], hx⟩, by simp [hrun]⟩

/-- A call refuses the words that its run refuses, for a definition is not rejected by the limit. -/
theorem refusals_evalLine (s : Session) (line : String) :
    (s.evalLine line).refusals = (s.stopped line).ending.refusals := by
  have hends := s.ends_evalLine line
  generalize s.evalLine line = o at hends
  cases hends with
  | finished hrun | fault hrun | recorded hrun hx =>
    rw [hrun]
    rfl
  | rejected hrun hf =>
    rw [hrun]
    exact Dictionary.refusals_of_define s.acyclic hf

/-- The words of a line leave a trail, and with what closes it, it is the journal of the line. -/
theorem exists_trail_closing (hwf : s.dictionary.WellFormed) (line : String) :
    ∃ t closing, IsTrail s.settings s.stack.depth s.steps #[] (s.stopped line) t ∧
      s.Closes line (s.evalLine line).result (s.evalLine line).session.dictionary closing ∧
      (s.evalLine line).events.toList = t.events ++ closing := by
  obtain ⟨t, ht⟩ := (runs_stopped hwf rfl).exists_trail
  obtain ⟨closing, hclose, hevents⟩ := s.exists_closing line
  exact ⟨t, closing, ht, hclose, by rw [hevents, ht.toList_log]⟩

/-- The journal of a line: the trail `t` of its words and the events that close it. -/
structure LineJournal (s : Session) (line : String) (t : Trail) (closing : List Event) : Prop where
  events_eq : (s.evalLine line).events.toList = t.events ++ closing
  closing_cases : closing = [] ∨
    (∃ name body redefined, closing = [.recorded name body redefined]) ∨
    ∃ f, closing = [.aborted f]
  /-- The journal ends with a fault if the line does, and with the same one. -/
  aborted_iff : ∀ f, closing = [.aborted f] ↔ (s.evalLine line).result = .error f
  /-- The journal ends with a record if the line writes into the dictionary. -/
  recorded_iff : (∃ name body redefined, closing = [.recorded name body redefined]) ↔
    ∃ x, s.Writes line x
  /-- The record is that of the definition, which is what the dictionary receives. -/
  of_writes : ∀ x, s.Writes line x →
    closing = [.recorded x.name (unwords x.body) (s.dictionary.contains x.name)] ∧
      (s.evalLine line).session.dictionary = s.dictionary.insert x
  /-- The last word before a record is the begin mark. -/
  mark_last : ∀ x, s.Writes line x →
    ∃ depth, t.events.getLast? = some (.dispatched Token.beginMark depth)
  of_not_writes : (∀ x, ¬ s.Writes line x) →
    (s.evalLine line).session.dictionary = s.dictionary
  /-- All counted words are in the trail, but for one that the limit refuses. -/
  steps_eq : (s.evalLine line).session.steps =
    s.steps + t.length + (s.evalLine line).refusals
  /-- All words that the limit lets through are in the trail. -/
  admitted_eq : s.settings.admitted (s.evalLine line).session.steps =
    s.settings.admitted s.steps + t.length
  head_depth : ∀ p ∈ t.head?, p.2 = s.stack.depth
  depths : t.IsChain fun p q => p.2 ≤ q.2 + 1 ∧ q.2 ≤ p.2 + 1

/-- **The journal of a line** is the trail of its words and what closes it. -/
theorem exists_lineJournal (hwf : s.dictionary.WellFormed) (line : String) :
    ∃ t closing, s.LineJournal line t closing := by
  obtain ⟨t, closing, ht, hclose, hevents⟩ := exists_trail_closing hwf line
  refine ⟨t, closing, ?_⟩
  exact {
    events_eq := hevents
    closing_cases := hclose.closing_cases
    aborted_iff := hclose.aborted_iff
    recorded_iff := hclose.recorded_iff
    of_writes := fun x hx => hclose.of_writes hx
    mark_last := by
      rintro x ⟨words, st, he, -⟩
      rw [← ht.toList_log, Array.getLast?_toList]
      exact (runs_stopped hwf rfl).back?_of_defining he
    of_not_writes := hclose.of_not_writes
    steps_eq := by
      rw [steps_evalLine, refusals_evalLine]
      exact ht.steps_eq
    admitted_eq := by
      rw [steps_evalLine]
      exact ht.admitted_eq
    head_depth := ht.head_depth
    depths := ht.depths }

/-- The dispatches of a line are the words of its trail. -/
theorem LineJournal.dispatches_eq {t : Trail} {closing : List Event}
    (h : s.LineJournal line t closing) : dispatches (s.evalLine line).events = t.length := by
  have htrail : t.events.countP Event.isDispatch = t.length := by
    rw [Trail.events, List.countP_map, List.countP_eq_length]
    exact fun p _ => rfl
  have hclosing : closing.countP Event.isDispatch = 0 := by
    rcases h.closing_cases with rfl | ⟨name, body, redefined, rfl⟩ | ⟨f, rfl⟩ <;> rfl
  rw [dispatches, ← Array.countP_toList, h.events_eq, List.countP_append, htrail, hclosing,
    Nat.add_zero]

/-! ## The journal of a sequence of lines -/

/-- None of the lines has a fault, one after another. -/
def Succeeds (s : Session) : List String → Prop
  | [] => True
  | line :: lines => (s.evalLine line).result = .ok () ∧ (s.evalLine line).session.Succeeds lines

/-- Lines without a fault are evaluated to the last, and the journal ends with what they leave. -/
theorem evalLines_of_succeeds {lines : List String} (h : s.Succeeds lines) :
    (s.evalLines lines).result = .ok () ∧ (s.evalLines lines).session = s.after lines ∧
      (s.evalLines lines).events.back? = some (.finished (s.after lines).stack.depth
        (s.after lines).dictionary.size (s.after lines).steps) := by
  induction lines generalizing s with
  | nil => exact ⟨rfl, rfl, rfl⟩
  | cons line lines ih =>
    obtain ⟨hok, hlines⟩ := h
    obtain ⟨hresult, hsession, hback⟩ := ih hlines
    rw [evalLines_cons_of_ok hok]
    refine ⟨hresult, hsession, ?_⟩
    rw [Outcome.since, Array.back?_append, hback, Option.some_or]
    rfl

/-- Lines of which one has a fault are given up, and the journal ends with the fault. -/
theorem evalLines_of_not_succeeds (hs : s.Reachable) {lines : List String}
    (h : ¬ s.Succeeds lines) :
    ∃ f, (s.evalLines lines).result = .error f ∧
      (s.evalLines lines).events.back? = some (.aborted f) := by
  induction lines generalizing s with
  | nil => exact absurd trivial h
  | cons line lines ih =>
    cases hr : (s.evalLine line).result with
    | ok u =>
      obtain ⟨f, hresult, hback⟩ := ih (hs.line line) fun hlines => h ⟨hr, hlines⟩
      rw [evalLines_cons_of_ok hr]
      refine ⟨f, hresult, ?_⟩
      rw [Outcome.since, Array.back?_append, hback, Option.some_or]
    | error f =>
      obtain ⟨t, closing, hj⟩ := exists_lineJournal hs.wellFormed line
      rw [evalLines_cons_of_error hr]
      refine ⟨f, hr, ?_⟩
      rw [← Array.getLast?_toList, hj.events_eq, (hj.aborted_iff f).mpr hr,
        List.getLast?_concat]

end Session

/-! ## The journal of a history -/

theorem dispatches_append (past log : Array Event) :
    dispatches (past ++ log) = dispatches past + dispatches log := Array.countP_append

/-- **The journal holds all words that the limit has let through**, however many calls there were
and however many of them had a fault. -/
theorem History.dispatches_journal (settings : Settings) (calls : List Call) :
    dispatches ((fresh settings).after calls).journal =
      settings.admitted ((fresh settings).after calls).session.steps := by
  refine (after_induction (motive := fun h => h.session.settings = settings ∧
    dispatches h.journal = settings.admitted h.session.steps) settings ⟨rfl, ?_⟩ ?_ ?_ calls).2
  · exact (settings.admitted_zero).symm
  · rintro h hs ⟨rfl, hcount⟩ line
    obtain ⟨t, closing, hj⟩ := Session.exists_lineJournal hs.wellFormed line
    refine ⟨h.session.settings_evalLine line, ?_⟩
    rw [extend, dispatches_append, hcount, hj.dispatches_eq, hj.admitted_eq]
  · rintro h ⟨hset, hcount⟩
    refine ⟨hset, ?_⟩
    rw [finish, dispatches_push, hcount]
    rfl

/-- **The shape of a journal.** The journal of a line in a reachable session is a trail of
dispatched words, closed by nothing, by one record or by one fault. It is closed by a fault exactly
if the line fails, and with that fault; and by a record exactly if the line writes into the
dictionary, in which case the last word is a begin mark. The trail has as many words as have been
counted, less the one that the limit refuses; it starts at the depth of the stack before the line,
and the depth changes by one cell at most from word to word.

A sequence of lines ends with the event that it is finished exactly if no line has a fault, and the
event tells the depth, the number of definitions and the count of the session then.

Over the whole life of a session under a limit, the words dispatched are as many as the words
counted, up to the limit. -/
theorem journal_has_shape :
    (∀ s : Session, s.Reachable → ∀ line : String, ∃ (t : Trail) (closing : List Event),
      s.LineJournal line t closing) ∧
      (∀ s : Session, s.Reachable → ∀ lines : List String,
        let o := s.evalLines lines
        ((∃ depth definitions steps, o.events.back? = some (.finished depth definitions steps)) ↔
            s.Succeeds lines) ∧
          (s.Succeeds lines → o.result = .ok () ∧ o.session = s.after lines ∧
            o.events.back? = some (.finished o.session.stack.depth o.session.dictionary.size
              o.session.steps))) ∧
      ∀ (check : ZeroCheck) (limit : Nat) (calls : List Call),
        let h := (History.fresh ⟨check, some limit⟩).after calls
        dispatches h.journal = min h.session.steps limit := by
  refine ⟨fun s hs line => Session.exists_lineJournal hs.wellFormed line, fun s hs lines => ?_,
    fun check limit calls => History.dispatches_journal ⟨check, some limit⟩ calls⟩
  intro o
  have hfinished (h : s.Succeeds lines) : o.result = .ok () ∧ o.session = s.after lines ∧
      o.events.back? = some (.finished o.session.stack.depth o.session.dictionary.size
        o.session.steps) := by
    obtain ⟨hresult, hsession, hback⟩ := Session.evalLines_of_succeeds h
    refine ⟨hresult, hsession, ?_⟩
    rw [hback, ← hsession]
  refine ⟨⟨?_, fun h => ⟨_, _, _, (hfinished h).2.2⟩⟩, hfinished⟩
  rintro ⟨depth, definitions, steps, hback⟩
  by_contra h
  obtain ⟨f, -, hf⟩ := Session.evalLines_of_not_succeeds hs h
  cases hback.symm.trans hf

/-- A line that defines a word behind a call, lines that succeed, and a session that goes on after
its limit has been met. -/
theorem journal_has_shape_of_definition :
    (∃ t closing, cubeSession.LineJournal "2 CUBE : C CUBE ;" t closing ∧ t.length = 8 ∧
      closing = [.recorded "C" "DUP DUP * *" false]) ∧
      (cubeSession.evalLines ["7 DUP"]).events.back? = some (.finished 2 2 4) ∧
      dispatches ((History.fresh ⟨.divisionOnly, some 2⟩).after
        [.lines ["1", "2 +"], .line "7"]).journal = 2 := by
  obtain ⟨hline, hlines, hlimit⟩ := journal_has_shape
  refine ⟨?_, ?_, ?_⟩
  · obtain ⟨t, closing, hj⟩ := hline cubeSession reachable_cubeSession "2 CUBE : C CUBE ;"
    have hwrites : cubeSession.Writes "2 CUBE : C CUBE ;" ⟨"C", ["DUP", "DUP", "*", "*"]⟩ :=
      ⟨["C", "CUBE", ";"], ⟨#[8]⟩, by cbv, by cbv⟩
    have hcount : dispatches (cubeSession.evalLine "2 CUBE : C CUBE ;").events = 8 := by cbv
    have hrecord : cubeSession.dictionary.contains "C" = false := by cbv
    refine ⟨t, closing, hj, by rw [← hj.dispatches_eq, hcount], ?_⟩
    rw [(hj.of_writes _ hwrites).1, hrecord]
    rfl
  · have hsucceeds : cubeSession.Succeeds ["7 DUP"] := ⟨by cbv, trivial⟩
    have hstate : ((cubeSession.evalLines ["7 DUP"]).session.stack.depth,
        (cubeSession.evalLines ["7 DUP"]).session.dictionary.size,
        (cubeSession.evalLines ["7 DUP"]).session.steps) = (2, 2, 4) := by cbv
    simp only [Prod.mk.injEq] at hstate
    obtain ⟨hdepth, hsize, hsteps⟩ := hstate
    rw [((hlines cubeSession reachable_cubeSession _).2 hsucceeds).2.2, hdepth, hsize, hsteps]
  · have hsteps : ((History.fresh ⟨.divisionOnly, some 2⟩).after
        [.lines ["1", "2 +"], .line "7"]).session.steps = 4 := by cbv
    rw [hlimit .divisionOnly 2 _, hsteps]
    decide

end WordCalc
