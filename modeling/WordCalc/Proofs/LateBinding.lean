import Mathlib
import WordCalc.Proofs.Dictionary.LateBinding
import WordCalc.Proofs.Rounds
import WordCalc.Proofs.Splicing

/-!
# Expanding at the definition and binding late

A session expands a body when it records it. The loop that records by `Dictionary.enter` keeps the
words as they were entered instead, so that a call runs through the calls in its body. The two
differ when a word is redefined, and in nothing that a user of the session can see when no word is:
then they give the same results and the same stacks, hold the same names, and every word has the
same full expansion in both dictionaries (`lateBinding_agrees`).

The two queues differ in the middle of a line, but they stand for the same words in the end
(`Runs.flat_ending`). Where a definition starts they hold the same words, since no body has a begin
mark in it: the mark is one of the line's own, and so is all that stands behind it
(`Runs.defining_eq`). So a line ends alike in both (`Session.LateBound.ending_run`).
-/

namespace WordCalc

/-! ## Where a definition starts -/

/-- The words behind the first begin mark. -/
def wordsBehindMark (ws : List Word) : List Word :=
  (ws.dropWhile fun w => w ≠ Token.beginMark).tail

theorem wordsBehindMark_append {ps ws : List Word} (hp : Token.beginMark ∉ ps) :
    wordsBehindMark (ps ++ ws) = wordsBehindMark ws := by
  rw [wordsBehindMark, List.dropWhile_append_of_pos, wordsBehindMark]
  intro w hw
  exact decide_eq_true fun h => hp (h ▸ hw)

theorem wordsBehindMark_cons {w : Word} {ws : List Word} (hw : w ≠ Token.beginMark) :
    wordsBehindMark (w :: ws) = wordsBehindMark ws := by
  simp [wordsBehindMark, hw]

/-- If no body has a begin mark in it, the definition that a run ends with consists of the words
behind the first begin mark of its line. -/
theorem Runs.defining_eq {settings : Settings} {d : Dictionary} {queue words : List Word}
    {s st : Stack} {n : Nat} {log : Array Event} {r : Stopped}
    (h : Runs settings d queue s n log r) (ha : d.Avoids Token.beginMark)
    (he : r.ending = .defining words st) : words = wordsBehindMark queue := by
  induction h with
  | finished | limit hlim | fault hlim hb hw hs => cases he
  | @call w body rest s n log r hlim hb hr ih =>
    obtain ⟨hw, hbody⟩ := ha w body hb
    rw [ih he, wordsBehindMark_append hbody, wordsBehindMark_cons hw]
  | @define rest s n log hlim hb =>
    cases he
    simp [wordsBehindMark]
  | step hlim hb hw hs hr ih => rw [ih he, wordsBehindMark_cons hw]

/-! ## Answers to several lines -/

/-- The loop that records by `define` answers the lines one after another: for each line its result
and the machine after it. -/
inductive Machine.AnswersBy (define : Dictionary → List Word → Except Fault Definition) :
    Machine → List String → List (Except Fault Unit × Machine) → Prop
  | nil (m : Machine) : AnswersBy define m [] []
  | cons {m m' : Machine} {line : String} {lines : List String} {r : Except Fault Unit}
      {answers : List (Except Fault Unit × Machine)} (h : (m.load line).ReturnsBy define r m')
      (hrest : AnswersBy define m' lines answers) :
      AnswersBy define m (line :: lines) ((r, m') :: answers)

theorem Machine.AnswersBy.unique {define : Dictionary → List Word → Except Fault Definition}
    {m : Machine} {lines : List String} {answers answers' : List (Except Fault Unit × Machine)}
    (h : m.AnswersBy define lines answers) (h' : m.AnswersBy define lines answers') :
    answers = answers' := by
  induction h generalizing answers' with
  | nil m =>
    cases h'
    rfl
  | cons h hrest ih =>
    cases h' with
    | cons h' hrest' =>
      obtain ⟨rfl, rfl⟩ := Round.ReturnsBy.unique h h'
      rw [ih hrest']

namespace Session

variable {s : Session} {m : Machine} {line : String}

/-- The outcomes of the lines, evaluated one after another whether or not they have a fault. -/
def outcomes (s : Session) : List String → List Outcome
  | [] => []
  | line :: lines => s.evalLine line :: (s.evalLine line).session.outcomes lines

/-- If the line records a definition, its name is new, its name is not the begin mark, and none of
its other words is. -/
def DefinesNew (s : Session) (line : String) : Prop :=
  ∀ (name : Word) (words : List Word) (st : Stack) (d : Dictionary),
    s.ending line = .defining (name :: words) st → s.dictionary.record (name :: words) = .ok d →
      name ∉ s.dictionary.names ∧ name ≠ Token.beginMark ∧ Token.beginMark ∉ words

/-- Every line records a new definition or none. -/
def AllNew (s : Session) : List String → Prop
  | [] => True
  | line :: lines => s.DefinesNew line ∧ (s.evalLine line).session.AllNew lines

/-! ## The simulation -/

/-- The machine has the data of the session, but its bodies as they were entered. Neither dictionary
knows the begin mark. -/
structure LateBound (s : Session) (m : Machine) : Prop where
  settings : m.settings = s.settings
  stack : m.stack = s.stack
  queue : m.queue = []
  acyclic : m.dictionary.Acyclic
  agree : Dictionary.Agree s.dictionary m.dictionary s.acyclic acyclic
  avoids : s.dictionary.Avoids Token.beginMark
  avoids_late : m.dictionary.Avoids Token.beginMark

theorem lateBound_fresh (settings : Settings) : LateBound (fresh settings) (.fresh settings) where
  settings := rfl
  stack := rfl
  queue := rfl
  acyclic := Dictionary.acyclic_empty
  agree := ⟨rfl, fun _ => rfl⟩
  avoids := Dictionary.avoids_empty _
  avoids_late := Dictionary.avoids_empty _

/-- The words of a line come to the same end in both: the queues stand for the same words, and where
a definition starts they hold the same ones. -/
theorem LateBound.ending_run (h : LateBound s m) (hs : s.Reachable)
    (hm : s.settings.maxSteps = none) (he : m.dictionary.Acyclic) (line : String) :
    (run s.settings m.dictionary he (tokenize line) s.stack m.steps #[]).ending =
      s.ending line := by
  have hnum : m.dictionary.NoNumerals := fun v hv =>
    hs.wellFormed.not_numeral v (h.agree.names ▸ hv)
  have hlate := runs_run s.settings hnum he (tokenize line) s.stack m.steps #[]
  have hflat := hlate.flat_ending hm he
  rw [h.agree.flat, ← flat_ending hs.wellFormed hm line] at hflat
  cases hending : s.ending line with
  | finished st =>
    rw [hending] at hflat
    exact Ending.mapWords_eq_finished hflat
  | fault f =>
    rw [hending] at hflat
    exact Ending.mapWords_eq_fault hflat
  | defining words st =>
    rw [hending] at hflat
    obtain ⟨words', hdefining, -⟩ := Ending.mapWords_eq_defining hflat
    rw [hdefining, hlate.defining_eq h.avoids_late hdefining,
      (runs_stopped hs.wellFormed rfl).defining_eq h.avoids hending]

/-- **A line keeps the two together**: the late-binding loop ends on it with the result of the
session. -/
theorem LateBound.evalLine (h : LateBound s m) (hs : s.Reachable) (hm : s.settings.maxSteps = none)
    (hnew : s.DefinesNew line) :
    ∃ m', (m.load line).ReturnsBy Dictionary.enter (s.evalLine line).result m' ∧
      LateBound (s.evalLine line).session m' := by
  have hending (he : m.dictionary.Acyclic) := h.ending_run hs hm he line
  obtain ⟨settings, stack, e, steps, queue, log₀⟩ := m
  obtain ⟨rfl, rfl, hqueue, he, hagree, havoids, havoids'⟩ := h
  rcases hlate : run s.settings e he (tokenize line) s.stack steps #[] with ⟨ending', n', log'⟩
  replace hending : ending' = s.ending line := by rw [← hending he, hlate]
  have hends := s.ends_evalLine line
  generalize s.evalLine line = o at hends
  cases hends with
  | @finished st n log hrun =>
    obtain rfl : ending' = .finished st := by rw [hending, ending, hrun]
    exact ⟨⟨s.settings, st, e, n', [], log'⟩,
      Machine.returnsBy_load hqueue he hlate (.returned _ _),
      rfl, rfl, rfl, he, hagree, havoids, havoids'⟩
  | @fault f n log hrun =>
    obtain rfl : ending' = .fault f := by rw [hending, ending, hrun]
    exact ⟨⟨s.settings, .empty, e, n', [], log'.push (.aborted f)⟩,
      Machine.returnsBy_load hqueue he hlate (.returned _ _),
      rfl, rfl, rfl, he, hagree, havoids, havoids'⟩
  | @rejected words st n log f hrun hf =>
    obtain rfl : ending' = .defining words st := by rw [hending, ending, hrun]
    exact ⟨⟨s.settings, .empty, e, n', [], log'.push (.aborted f)⟩,
      Machine.returnsBy_load hqueue he hlate
        (Stopped.returnsBy_settleBy_of_error (hagree.enter_of_error hf)),
      rfl, rfl, rfl, he, hagree, havoids, havoids'⟩
  | @recorded words st n log x hrun hx =>
    obtain rfl : ending' = .defining words st := by rw [hending, ending, hrun]
    obtain ⟨ws, rfl, -⟩ := Dictionary.define_eq_ok_iff.mp hx
    obtain ⟨hname, hmark, hws⟩ := hnew x.name (ws ++ [Dictionary.endMark]) st _
      (by rw [ending, hrun]) (Dictionary.record_of_define_ok hx)
    have hv : Token.beginMark ∉ x.name :: (ws ++ [Dictionary.endMark]) := by
      rw [List.mem_cons, not_or]
      exact ⟨Ne.symm hmark, hws⟩
    obtain ⟨y, he', hy, hagree', ha, ha'⟩ := hagree.insert_of_define havoids havoids' hx hname hv
    exact ⟨⟨s.settings, st, e.insert y, n', [],
        log'.push (.recorded y.name (unwords y.body) (e.contains y.name))⟩,
      Machine.returnsBy_load hqueue he hlate (Stopped.returnsBy_settleBy_of_ok hy),
      rfl, rfl, rfl, he', hagree', ha, ha'⟩

end Session

/-! ## Sessions -/

/-- An answer of a loop looks like the outcome of a session: result, stack, names, and the full
expansion of every word. -/
def Outcome.LooksLike (o : Outcome) (answer : Except Fault Unit × Machine) : Prop :=
  answer.1 = o.result ∧ answer.2.stack = o.session.stack ∧
    answer.2.dictionary.names = o.session.dictionary.names ∧
    ∀ w, ∃ ws, o.session.dictionary.expand [w] = .ok ws ∧ answer.2.dictionary.expand [w] = .ok ws

namespace Session

variable {s : Session} {m : Machine}

theorem LateBound.expand (h : LateBound s m) (w : Word) :
    ∃ ws, s.dictionary.expand [w] = .ok ws ∧ m.dictionary.expand [w] = .ok ws :=
  ⟨_, Dictionary.expand_eq_flat s.acyclic [w],
    by rw [Dictionary.expand_eq_flat h.acyclic, h.agree.flat]⟩

/-- Line by line the late-binding loop answers what the session does. -/
theorem LateBound.exists_answers (h : LateBound s m) (hs : s.Reachable)
    (hm : s.settings.maxSteps = none) {lines : List String} (hnew : s.AllNew lines) :
    ∃ answers, m.AnswersBy Dictionary.enter lines answers ∧
      List.Forall₂ Outcome.LooksLike (s.outcomes lines) answers := by
  induction lines generalizing s m with
  | nil => exact ⟨[], .nil m, .nil⟩
  | cons line lines ih =>
    obtain ⟨hline, hrest⟩ := hnew
    obtain ⟨m', hreturns, h'⟩ := h.evalLine hs hm hline
    have hm' : (s.evalLine line).session.settings.maxSteps = none := by rwa [settings_evalLine]
    obtain ⟨answers, hanswers, hlook⟩ := ih h' (hs.line line) hm' hrest
    exact ⟨_, .cons hreturns hanswers,
      .cons ⟨rfl, h'.stack, h'.agree.names, h'.expand⟩ hlook⟩

/-- **Expanding at the definition agrees with late binding when nothing is redefined.** In a fresh
session without a limit, let no recorded definition name a word that is defined, name the begin mark
or have one in its body. The loop that keeps bodies as they were entered then has one sequence of
answers to the lines, and after every line result, stack, names and the full expansion of every word
are those of the session. -/
theorem lateBinding_agrees (check : ZeroCheck) (lines : List String)
    (hnew : (fresh ⟨check, none⟩).AllNew lines) :
    ∃ answers,
      (∀ answers', (Machine.fresh ⟨check, none⟩).AnswersBy Dictionary.enter lines answers' ↔
        answers' = answers) ∧
      List.Forall₂ Outcome.LooksLike ((fresh ⟨check, none⟩).outcomes lines) answers := by
  obtain ⟨answers, hanswers, hlook⟩ :=
    (lateBound_fresh ⟨check, none⟩).exists_answers (.fresh _) rfl hnew
  refine ⟨answers, fun answers' => ⟨fun h => h.unique hanswers, ?_⟩, hlook⟩
  rintro rfl
  exact hanswers

/-- `A` calls `B`, which is defined later, and `C` calls both. -/
theorem lateBinding_agrees_on_forward_reference :
    (fresh {}).AllNew [": A B 1 ;", ": B 2 ;", ": C A B ;", "C + +"] ∧
      ∃ answers,
        (Machine.fresh {}).AnswersBy Dictionary.enter [": A B 1 ;", ": B 2 ;", ": C A B ;", "C + +"]
          answers ∧
        List.Forall₂ Outcome.LooksLike
          ((fresh {}).outcomes [": A B 1 ;", ": B 2 ;", ": C A B ;", "C + +"]) answers := by
  have hA : (fresh {}).ending ": A B 1 ;" = .defining ["A", "B", "1", ";"] .empty := by cbv
  have hB : ((fresh {}).after [": A B 1 ;"]).ending ": B 2 ;" =
      .defining ["B", "2", ";"] .empty := by cbv
  have hBnames : ((fresh {}).after [": A B 1 ;"]).dictionary.names = ["A"] := by cbv
  have hC : ((fresh {}).after [": A B 1 ;", ": B 2 ;"]).ending ": C A B ;" =
      .defining ["C", "A", "B", ";"] .empty := by cbv
  have hCnames : ((fresh {}).after [": A B 1 ;", ": B 2 ;"]).dictionary.names = ["A", "B"] := by cbv
  have hlast : ((fresh {}).after [": A B 1 ;", ": B 2 ;", ": C A B ;"]).ending "C + +" =
      .finished ⟨#[5]⟩ := by cbv
  have hnew : (fresh {}).AllNew [": A B 1 ;", ": B 2 ;", ": C A B ;", "C + +"] := by
    refine ⟨?_, ?_, ?_, ?_, trivial⟩
    · intro name words st d h _
      cases hA.symm.trans h
      decide
    · intro name words st d h _
      cases hB.symm.trans h
      exact ⟨fun hmem => absurd (hBnames ▸ hmem) (by decide), by decide, by decide⟩
    · intro name words st d h _
      cases hC.symm.trans h
      exact ⟨fun hmem => absurd (hCnames ▸ hmem) (by decide), by decide, by decide⟩
    · intro name words st d h _
      cases hlast.symm.trans h
  obtain ⟨answers, hanswers, hlook⟩ := lateBinding_agrees .divisionOnly _ hnew
  exact ⟨hnew, answers, (hanswers answers).mpr rfl, hlook⟩

end Session

end WordCalc
