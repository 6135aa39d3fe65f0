import Mathlib
import WordCalc.Proofs.Arithmetic
import WordCalc.Proofs.Depth
import WordCalc.Proofs.Splicing

/-!
# Stack effects

How deep the stack is at any place of a line is decided by the words alone, whatever the cells are.
A literal gains one cell; an operator needs two cells and loses one; a shuffle needs its arity.
`need` and `gain` say this for every word, and the depth that words lead to is the depth before them
and all that they gain (`depthAfter`, `Plain.depth_run`).

A stack that is too low is found in the same way: the plain machine reports it at the first word
that needs more cells than there are (`Plain.run_eq_underflow_iff`). The one exception is an
operator that finds a zero as the only cell where the zero check covers it, since this check comes
first.

By the full expansion this carries over to lines (`Session.depth_follows_words`).
-/

namespace WordCalc

/-! ## Stacks that are too low -/

/-- A top without another cell below it is alone. -/
theorem Stack.toList_eq_singleton_iff {s : Stack} {c : Cell} :
    s.toList = [c] ↔ s.depth < 2 ∧ s.top? = some c := by
  rw [top?_eq_getLast?, ← length_toList]
  rcases List.eq_nil_or_concat' s.toList with h | ⟨cells, last, h⟩
  · simp [h]
  · rw [h]
    cases cells with
    | nil => simp
    | cons c' cells => simp

/-- An operator finds the stack too low unless the zero check stops it first, at a zero that is
alone. -/
theorem Operator.onStack_eq_underflow_iff {op : Operator} {check : ZeroCheck} {s : Stack} :
    op.onStack check s = .error .stackUnderflow ↔
      s.depth < 2 ∧ ¬ (check.covers op = true ∧ s.toList = [0]) := by
  have halone : s.depth < 2 →
      ((check.covers op = true ∧ s.toList = [0]) ↔ op.Refused check s) := by
    intro hlow
    rw [Stack.toList_eq_singleton_iff, ZeroCheck.covers_iff, Refused]
    tauto
  by_cases hzero : op.Refused check s
  · rw [onStack_of_refused hzero]
    exact iff_of_false nofun fun ⟨hlow, h⟩ => h ((halone hlow).mpr hzero)
  · rw [onStack_eq_stackUnderflow_iff hzero]
    exact ⟨fun hlow => ⟨hlow, fun h => hzero ((halone hlow).mp h)⟩, And.left⟩

theorem Shuffle.onStack_eq_underflow_iff {sh : Shuffle} {s : Stack} :
    sh.onStack s = .error .stackUnderflow ↔ s.depth < sh.arity := by
  unfold onStack
  cases hpop : s.popN sh.arity with
  | ok r =>
    have hbefore := Stack.depth_of_popN hpop
    have hdeep : ¬ s.depth < sh.arity := by omega
    simp [hdeep]
  | error f =>
    obtain ⟨hlow, rfl⟩ := Stack.popN_eq_error_iff.mp hpop
    simp [hlow]

/-! ## Needs and gains -/

namespace Token

/-- The number of cells that the token needs on the stack. -/
def need : Token → ℕ
  | operator _ | shuffle .swap | shuffle .copySecond => 2
  | shuffle .dup | shuffle .drop => 1
  | literal _ | defBegin | defEnd | call _ _ | unknown _ => 0

/-- The number of cells by which the token makes the stack deeper. -/
def gain : Token → ℤ
  | literal _ | shuffle .dup | shuffle .copySecond => 1
  | operator _ | shuffle .drop => -1
  | shuffle .swap | defBegin | defEnd | call _ _ | unknown _ => 0

theorem need_shuffle (sh : Shuffle) : (shuffle sh).need = sh.arity := by
  cases sh <;> rfl

theorem gain_shuffle (sh : Shuffle) : (shuffle sh).gain = sh.yield - sh.arity := by
  cases sh <;> rfl

end Token

namespace Plain

/-- The number of cells that the word needs on the stack. -/
def need (w : Word) : ℕ :=
  match classify .empty w with
  | .ok t => t.need
  | .error _ => 0

/-- The number of cells by which the word makes the stack deeper. -/
def gain (w : Word) : ℤ :=
  match classify .empty w with
  | .ok t => t.gain
  | .error _ => 0

/-- The depth that the words lead to from a depth of `n`. -/
def depthAfter (n : ℤ) (ws : List Word) : ℤ := n + (ws.map gain).sum

/-- The word is an operator or a shuffle. -/
def TakesCells (w : Word) : Prop :=
  (∃ op : Operator, w = op.symbol) ∨ ∃ sh : Shuffle, w = sh.symbol

/-- The word is an operator that the zero check covers. -/
def Covered (check : ZeroCheck) (w : Word) : Prop :=
  ∃ op : Operator, w = op.symbol ∧ check.covers op = true

variable {check : ZeroCheck} {s s' : Stack} {w : Word} {ws ps rest : List Word} {f : Fault}

@[simp]
theorem depthAfter_nil (n : ℤ) : depthAfter n [] = n := by
  simp [depthAfter]

@[simp]
theorem depthAfter_cons (n : ℤ) (w : Word) (ws : List Word) :
    depthAfter n (w :: ws) = depthAfter (n + gain w) ws := by
  simp [depthAfter, add_assoc]

/-! ## Words -/

theorem symbol_of_classify_operator {op : Operator} (h : classify .empty w = .ok (.operator op)) :
    w = op.symbol :=
  (text_of_classify h nofun).symm

theorem symbol_of_classify_shuffle {sh : Shuffle} (h : classify .empty w = .ok (.shuffle sh)) :
    w = sh.symbol :=
  (text_of_classify h nofun).symm

theorem isNumeral_of_classify_literal {c : Cell} (h : classify .empty w = .ok (.literal c)) :
    isNumeral w = true :=
  Numeral.isNumeral_iff.mpr ⟨_, classify_eq_literal_iff.mp h⟩

/-- **A word that succeeds** is a literal, an operator or a shuffle. It has found the cells that it
needs, and has made the stack deeper by what it gains. -/
theorem step_ok (h : step check s w = .ok s') :
    (isNumeral w = true ∨ TakesCells w) ∧ need w ≤ s.depth ∧ (s'.depth : ℤ) = s.depth + gain w := by
  unfold step at h
  unfold need gain
  split at h
  · rename_i c hc
    cases h
    simp [hc, Token.need, Token.gain, isNumeral_of_classify_literal hc]
  · rename_i op hc
    obtain ⟨v, rest, -, hpop, -⟩ := Operator.exists_of_onStack_ok h
    have hbefore := Stack.depth_of_popN hpop
    have hafter := Operator.depth_onStack h
    simp only [hc, Token.need, Token.gain]
    exact ⟨.inr (.inl ⟨op, symbol_of_classify_operator hc⟩), by omega, by omega⟩
  · rename_i sh hc
    obtain ⟨v, rest, hpop, -⟩ := Shuffle.exists_of_onStack_ok h
    have hbefore := Stack.depth_of_popN hpop
    have hafter := Shuffle.depth_onStack h
    simp only [hc, Token.need_shuffle, Token.gain_shuffle]
    exact ⟨.inr (.inr ⟨sh, symbol_of_classify_shuffle hc⟩), by omega, by omega⟩
  · cases h
  · cases h

theorem covered_operator_iff {op : Operator} :
    Covered check op.symbol ↔ check.covers op = true := by
  constructor
  · rintro ⟨op', hop, hcovers⟩
    have hclass := classify_operator (Dictionary.body?_empty op.symbol)
    rw [hop, classify_operator (Dictionary.body?_empty _)] at hclass
    cases hclass
    exact hcovers
  · exact fun hcovers => ⟨op, rfl, hcovers⟩

theorem not_covered_shuffle (sh : Shuffle) : ¬ Covered check sh.symbol := by
  rintro ⟨op, hop, -⟩
  have hclass := classify_shuffle (Dictionary.body?_empty sh.symbol)
  rw [hop, classify_operator (Dictionary.body?_empty _)] at hclass
  cases hclass

theorem step_operator_eq_underflow_iff (op : Operator) :
    step check s op.symbol = .error .stackUnderflow ↔
      s.depth < need op.symbol ∧ ¬ (Covered check op.symbol ∧ s.toList = [0]) := by
  have hclass := classify_operator (Dictionary.body?_empty op.symbol)
  simp only [step, need, hclass, Token.need, covered_operator_iff]
  exact Operator.onStack_eq_underflow_iff

theorem step_shuffle_eq_underflow_iff (sh : Shuffle) :
    step check s sh.symbol = .error .stackUnderflow ↔
      s.depth < need sh.symbol ∧ ¬ (Covered check sh.symbol ∧ s.toList = [0]) := by
  have hclass := classify_shuffle (Dictionary.body?_empty sh.symbol)
  simp only [step, need, hclass, Token.need_shuffle, not_covered_shuffle, false_and,
    not_false_eq_true, and_true]
  exact Shuffle.onStack_eq_underflow_iff

/-- No other word asks how deep the stack is. -/
theorem takesCells_of_underflow (h : step check s w = .error .stackUnderflow) : TakesCells w := by
  unfold step at h
  split at h
  · cases h
  · rename_i op hc
    exact .inl ⟨op, symbol_of_classify_operator hc⟩
  · rename_i sh hc
    exact .inr ⟨sh, symbol_of_classify_shuffle hc⟩
  · cases h
  · rename_i f hc
    cases h
    cases fault_of_classify_error hc

/-- **A word finds the stack too low** when it needs more cells than there are, unless it is an
operator that the zero check stops first. -/
theorem step_eq_underflow_iff :
    step check s w = .error .stackUnderflow ↔
      TakesCells w ∧ s.depth < need w ∧ ¬ (Covered check w ∧ s.toList = [0]) := by
  constructor
  · intro h
    have htakes := takesCells_of_underflow h
    refine ⟨htakes, ?_⟩
    rcases htakes with ⟨op, rfl⟩ | ⟨sh, rfl⟩
    · exact (step_operator_eq_underflow_iff op).mp h
    · exact (step_shuffle_eq_underflow_iff sh).mp h
  · rintro ⟨⟨op, rfl⟩ | ⟨sh, rfl⟩, h⟩
    · exact (step_operator_eq_underflow_iff op).mpr h
    · exact (step_shuffle_eq_underflow_iff sh).mpr h

/-- A covered operator is stopped by a zero that is alone. -/
theorem step_of_covered (hw : Covered check w) (hs : s.toList = [0]) :
    step check s w = .error .divideByZero := by
  obtain ⟨op, rfl, hcovers⟩ := hw
  obtain ⟨-, htop⟩ := Stack.toList_eq_singleton_iff.mp hs
  rw [step, classify_operator (Dictionary.body?_empty _)]
  exact Operator.onStack_of_refused ⟨htop, ZeroCheck.covers_iff.mp hcovers⟩

/-! ## Sequences of words -/

theorem run_append (check : ZeroCheck) (s : Stack) (ps ws : List Word) :
    run check s (ps ++ ws) =
      match run check s ps with
      | .ok s' => run check s' ws
      | .error f => .error f := by
  rw [run, List.foldlM_append]
  show (run check s ps >>= fun s' => run check s' ws) = _
  cases run check s ps <;> rfl

/-- **The words decide the depth** that they lead to. -/
theorem depth_run (h : run check s ws = .ok s') : (s'.depth : ℤ) = depthAfter s.depth ws := by
  induction ws generalizing s with
  | nil =>
    cases h
    simp
  | cons w ws ih =>
    rw [run_cons] at h
    cases hstep : step check s w with
    | error f =>
      rw [hstep] at h
      cases h
    | ok st =>
      rw [hstep] at h
      obtain ⟨-, -, hdepth⟩ := step_ok hstep
      rw [depthAfter_cons, ← hdepth]
      exact ih h

/-- A fault of a sequence of words is the fault of the first word that has one. -/
theorem run_eq_error_iff :
    run check s ws = .error f ↔
      ∃ ps w rest st, ws = ps ++ w :: rest ∧ run check s ps = .ok st ∧
        step check st w = .error f := by
  constructor
  · intro h
    induction ws generalizing s with
    | nil => cases h
    | cons w ws ih =>
      rw [run_cons] at h
      cases hstep : step check s w with
      | error g =>
        rw [hstep] at h
        cases h
        exact ⟨[], w, ws, s, rfl, rfl, hstep⟩
      | ok s' =>
        rw [hstep] at h
        obtain ⟨ps, v, rest, st, rfl, hps, hv⟩ := ih h
        exact ⟨w :: ps, v, rest, st, rfl, by rw [run_cons, hstep]; exact hps, hv⟩
  · rintro ⟨ps, w, rest, st, rfl, hps, hw⟩
    simp only [run_append, hps, run_cons, hw]

/-- Where words succeed, each of them is known and finds the cells that it needs. -/
theorem needs_of_run_ok (h : run check s (ps ++ w :: rest) = .ok s') :
    (isNumeral w = true ∨ TakesCells w) ∧ (need w : ℤ) ≤ depthAfter s.depth ps := by
  rw [run_append] at h
  cases hps : run check s ps with
  | error f =>
    rw [hps] at h
    cases h
  | ok st =>
    simp only [hps, run_cons] at h
    cases hw : step check st w with
    | error f =>
      rw [hw] at h
      cases h
    | ok st' =>
      obtain ⟨hknown, hneed, -⟩ := step_ok hw
      rw [← depth_run hps]
      exact ⟨hknown, by exact_mod_cast hneed⟩

/-- **Words find the stack too low** at the first one that needs more cells than the words before it
have left. -/
theorem run_eq_underflow_iff :
    run check s ws = .error .stackUnderflow ↔
      ∃ ps w rest st, ws = ps ++ w :: rest ∧ run check s ps = .ok st ∧ TakesCells w ∧
        depthAfter s.depth ps < need w ∧ ¬ (Covered check w ∧ st.toList = [0]) := by
  rw [run_eq_error_iff]
  simp only [step_eq_underflow_iff]
  refine exists_congr fun ps => exists_congr fun w => exists_congr fun rest =>
    exists_congr fun st => and_congr_right fun _ => and_congr_right fun hps =>
    and_congr_right fun _ => and_congr_left fun _ => ?_
  rw [← depth_run hps, Nat.cast_lt]

end Plain

/-! ## Lines -/

namespace Session

variable {s : Session}

/-- **The words of a line decide its depths.** Let `ws` be the full expansion of the words of a line
in a reachable session without a limit, with no begin mark in it.

If the line succeeds, each word of `ws` is a literal, an operator or a shuffle, the words before it
leave the cells that it needs, and the stack ends with the depth that `ws` leads to.

The line fails because the stack is too low if and only if some word of `ws` is met without a fault
and is an operator or a shuffle that needs more cells than the words before it leave; except that an
operator covered by the zero check, at a zero that is alone on the stack, divides by zero
instead. -/
theorem depth_follows_words (hs : s.Reachable) (hm : s.settings.maxSteps = none) (line : String) :
    ∃ ws, s.dictionary.expand (tokenize line) = .ok ws ∧
      (Token.beginMark ∉ ws →
        ((s.evalLine line).result = .ok () →
          (∀ ps w rest, ws = ps ++ w :: rest →
            (isNumeral w = true ∨ Plain.TakesCells w) ∧
              (Plain.need w : ℤ) ≤ Plain.depthAfter s.stack.depth ps) ∧
            ((s.evalLine line).session.stack.depth : ℤ) =
              Plain.depthAfter s.stack.depth ws) ∧
          ((s.evalLine line).result = .error .stackUnderflow ↔
            ∃ ps w rest st, ws = ps ++ w :: rest ∧
              Plain.run s.settings.zeroCheck s.stack ps = .ok st ∧ Plain.TakesCells w ∧
              Plain.depthAfter s.stack.depth ps < Plain.need w ∧
              ¬ (Plain.Covered s.settings.zeroCheck w ∧ st.toList = [0])) ∧
          ∀ ps w rest st, ws = ps ++ w :: rest →
            Plain.run s.settings.zeroCheck s.stack ps = .ok st →
            Plain.Covered s.settings.zeroCheck w → st.toList = [0] →
            (s.evalLine line).result = .error .divideByZero) := by
  refine ⟨_, Dictionary.expand_eq_flat s.acyclic _, fun hmark => ?_⟩
  obtain ⟨hgives, -⟩ := evalLine_of_not_mem_flat hs.wellFormed hm hmark
  generalize s.dictionary.flat s.acyclic (tokenize line) = ws at hgives
  rw [← Plain.run_eq_underflow_iff]
  refine ⟨fun hok => ?_, hgives.error_iff, ?_⟩
  · have hrun := hgives.eq_ok hok
    refine ⟨fun ps w rest hws => ?_, Plain.depth_run hrun⟩
    rw [hws] at hrun
    exact Plain.needs_of_run_ok hrun
  · intro ps w rest st hws hps hw hst
    rw [hgives.error_iff, Plain.run_eq_error_iff]
    exact ⟨ps, w, rest, st, hws, hps, Plain.step_of_covered hw hst⟩

/-- A call that leaves one cell; an operator behind it, which finds the stack too low; and a
division whose one cell is a zero. -/
theorem depth_follows_words_of_cube :
    cubeSession.Reachable ∧ cubeSession.settings.maxSteps = none ∧
      (cubeSession.evalLine "2 CUBE").session.stack.depth = 1 ∧
      (cubeSession.evalLine "2 CUBE +").result = .error .stackUnderflow ∧
      (cubeSession.evalLine "0 /").result = .error .divideByZero := by
  have hm : cubeSession.settings.maxSteps = none := by rw [settings_cubeSession]
  have hcube : cubeSession.dictionary.expand (tokenize "2 CUBE") =
      .ok ["2", "DUP", "DUP", "*", "*"] := by cbv
  have hadd : cubeSession.dictionary.expand (tokenize "2 CUBE +") =
      .ok ["2", "DUP", "DUP", "*", "*", "+"] := by cbv
  have hdiv : cubeSession.dictionary.expand (tokenize "0 /") = .ok ["0", "/"] := by cbv
  have hok : (cubeSession.evalLine "2 CUBE").result = .ok () := by cbv
  have hone : Plain.depthAfter cubeSession.stack.depth ["2", "DUP", "DUP", "*", "*"] = 1 := by cbv
  have htwo : Plain.need "+" = 2 := by cbv
  have hcovers : cubeSession.settings.zeroCheck.covers .div = true := by
    rw [settings_cubeSession]
    rfl
  obtain ⟨ws, hws, hline⟩ := depth_follows_words reachable_cubeSession hm "2 CUBE"
  obtain rfl : ws = _ := Except.ok.inj (hws.symm.trans hcube)
  obtain ⟨-, hdepth⟩ := (hline (by decide)).1 hok
  obtain ⟨ws, hws, hline⟩ := depth_follows_words reachable_cubeSession hm "2 CUBE +"
  obtain rfl : ws = _ := Except.ok.inj (hws.symm.trans hadd)
  obtain ⟨-, hlow, -⟩ := hline (by decide)
  obtain ⟨ws, hws, hline⟩ := depth_follows_words reachable_cubeSession hm "0 /"
  obtain rfl : ws = _ := Except.ok.inj (hws.symm.trans hdiv)
  obtain ⟨-, -, hzero⟩ := hline (by decide)
  refine ⟨reachable_cubeSession, hm, ?_, hlow.mpr ?_, ?_⟩
  · rw [hone] at hdepth
    exact_mod_cast hdepth
  · refine ⟨["2", "DUP", "DUP", "*", "*"], "+", [], ⟨#[8]⟩, rfl, by cbv, .inl ⟨.add, rfl⟩, ?_, ?_⟩
    · rw [hone, htwo]
      decide
    · rintro ⟨-, hcells⟩
      cases hcells
  · exact hzero ["0"] "/" [] ⟨#[0]⟩ rfl (by cbv) ⟨.div, rfl, hcovers⟩ rfl

end Session

end WordCalc
