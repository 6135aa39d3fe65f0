import Mathlib
import WordCalc.Proofs.Arithmetic
import WordCalc.Proofs.Reachable

/-!
# The strict zero check

Division refuses a zero on top of the stack whatever the settings say. Under the strict check the
other three operators refuse it too, before they ask for a second cell or for room in the result.
This is all that the check does: a word that is not one of the three, or does not find a zero on
top, does the same under both settings (`dispatch_strict_of_not_onZero`).

So the strict and the lax evaluation of the same lines go together word by word until the lax one
dispatches one of the three on a zero. If it never does, they come to the same end
(`evalLinesOnto_strict_of_not_onZero`). If it does, the strict one ends there
(`evalLinesOnto_strict_of_onZero`).
-/

namespace WordCalc

/-! ## Words under the two checks -/

/-- The word `w` means an operator other than division, and the stack has a zero on top. -/
def OnZero (d : Dictionary) (w : Word) (s : Stack) : Prop :=
  ∃ op, classify d w = .ok (.operator op) ∧ op ≠ .div ∧ s.top? = some 0

section Words

variable {op : Operator} {d : Dictionary} {w : Word} {queue : List Word} {s : Stack}

theorem Operator.onStack_strict_of_zero (h : s.top? = some 0) :
    op.onStack .anyOperator s = .error .divideByZero :=
  onStack_of_refused ⟨h, .inr rfl⟩

theorem Operator.onStack_strict_of_not_zero (h : op = .div ∨ s.top? ≠ some 0) :
    op.onStack .anyOperator s = op.onStack .divisionOnly s := by
  rcases h with rfl | h
  · rfl
  · simp [onStack, h]

/-- The strict check refuses one of the three operators on a zero. -/
theorem dispatch_strict_of_onZero (h : OnZero d w s) :
    dispatch .anyOperator d w queue s = .fault .divideByZero := by
  obtain ⟨op, hop, -, hzero⟩ := h
  simp only [dispatch, hop, Token.effect, Operator.onStack_strict_of_zero hzero, Effect.ofStack]

/-- Anything else does the same under both checks. -/
theorem dispatch_strict_of_not_onZero (h : ¬ OnZero d w s) :
    dispatch .anyOperator d w queue s = dispatch .divisionOnly d w queue s := by
  unfold dispatch
  cases hc : classify d w with
  | error f => rfl
  | ok t =>
    cases t with
    | operator op =>
      have hop : op = .div ∨ s.top? ≠ some 0 := by
        by_contra hne
        rw [not_or, not_not] at hne
        exact h ⟨op, hc, hne.1, hne.2⟩
      simp only [Token.effect, Operator.onStack_strict_of_not_zero hop]
    | literal c | shuffle sh | call name body | defBegin | defEnd | unknown v => rfl

end Words

/-! ## Runs under the two checks -/

/-- `Dispatches settings d queue s n w t`: with `n` words counted before, the run of the words of
`queue` on the stack `s` dispatches the word `w` when the stack is `t`. -/
inductive Dispatches (settings : Settings) (d : Dictionary) :
    List Word → Stack → Nat → Word → Stack → Prop
  /-- The first word, if the limit lets it pass. -/
  | first {w : Word} {rest : List Word} {s : Stack} {n : Nat}
      (hlim : settings.exceededLimit? (n + 1) = none) : Dispatches settings d (w :: rest) s n w s
  /-- A word that comes later, if the first word lets the line go on. -/
  | later {w v : Word} {rest queue : List Word} {s s' t : Stack} {n : Nat}
      (hlim : settings.exceededLimit? (n + 1) = none)
      (hdis : dispatch settings.zeroCheck d w rest s = .next queue s')
      (h : Dispatches settings d queue s' (n + 1) v t) : Dispatches settings d (w :: rest) s n v t

section Journal

variable {settings : Settings} {d : Dictionary} {hd : d.Acyclic} {w v : Word}
  {rest queue : List Word} {s s' t : Stack} {n k : Nat} {log : Array Event}

theorem dispatches_cons_of_next (hlim : settings.exceededLimit? (n + 1) = none)
    (hdis : dispatch settings.zeroCheck d w rest s = .next queue s') :
    Dispatches settings d (w :: rest) s n v t ↔
      v = w ∧ t = s ∨ Dispatches settings d queue s' (n + 1) v t := by
  constructor
  · intro h
    cases h with
    | first => exact .inl ⟨rfl, rfl⟩
    | later _ hdis' h =>
      cases hdis.symm.trans hdis'
      exact .inr h
  · rintro (⟨rfl, rfl⟩ | h)
    · exact .first hlim
    · exact .later hlim hdis h

theorem dispatches_cons_of_last (hlim : settings.exceededLimit? (n + 1) = none)
    (hdis : ∀ queue s', dispatch settings.zeroCheck d w rest s ≠ .next queue s') :
    Dispatches settings d (w :: rest) s n v t ↔ v = w ∧ t = s := by
  constructor
  · intro h
    cases h with
    | first => exact ⟨rfl, rfl⟩
    | later _ hdis' _ => exact absurd hdis' (hdis _ _)
  · rintro ⟨rfl, rfl⟩
    exact .first hlim

/-- **The journal of a run names the words that it dispatches**, each with the depth of the stack
at that moment. -/
theorem mem_log_run_iff :
    .dispatched v k ∈ (run settings d hd queue s n log).log ↔
      .dispatched v k ∈ log ∨ ∃ t, Dispatches settings d queue s n v t ∧ t.depth = k := by
  have hhead {w : Word} {s : Stack} :
      (∃ t, (v = w ∧ t = s) ∧ t.depth = k) ↔ Event.dispatched v k = .dispatched w s.depth := by
    simp [eq_comm]
  fun_induction run settings d hd queue s n log with
  | case1 s n log =>
    refine ⟨.inl, ?_⟩
    rintro (h | ⟨t, ht, -⟩)
    · exact h
    · cases ht
  | case2 s n log w rest limit hlim =>
    refine ⟨.inl, ?_⟩
    rintro (h | ⟨t, ht, -⟩)
    · exact h
    · cases ht with
      | first hlim' | later hlim' => cases hlim.symm.trans hlim'
  | case3 s n log w rest hlim log' queue' s' hdis ih =>
    refine ih.trans ?_
    simp only [dispatches_cons_of_next hlim hdis, log', Array.mem_push, or_and_right, exists_or,
      hhead, or_assoc]
  | case4 s n log w rest hlim log' words s' hdis | case5 s n log w rest hlim log' f hdis =>
    have hlast : ∀ queue s', dispatch settings.zeroCheck d w rest s ≠ .next queue s' := by
      simp [hdis]
    simp only [dispatches_cons_of_last hlim hlast, log', Array.mem_push, hhead]

end Journal

/-- The settings with the strict check. -/
def Settings.strict (settings : Settings) : Settings :=
  { settings with zeroCheck := .anyOperator }

section Runs

variable {settings : Settings} {d : Dictionary} {hd : d.Acyclic} {w : Word} {queue : List Word}
  {s t : Stack} {n : Nat} {log : Array Event}

theorem exceededLimit?_strict (settings : Settings) (n : Nat) :
    settings.strict.exceededLimit? n = settings.exceededLimit? n := rfl

/-- A run that dispatches one of the three operators on a zero ends there under the strict check,
or at an earlier such word. -/
theorem run_strict_of_onZero (hd : d.Acyclic) (hz : settings.zeroCheck = .divisionOnly)
    (h : Dispatches settings d queue s n w t) (hw : OnZero d w t) (log : Array Event) :
    (run settings.strict d hd queue s n log).ending = .fault .divideByZero := by
  induction h generalizing log with
  | @first w rest s n hlim =>
    rw [run_cons ((exceededLimit?_strict settings _).trans hlim)]
    simp only [Settings.strict, dispatch_strict_of_onZero hw]
  | @later w v rest queue s s' t n hlim hdis h ih =>
    rw [run_cons ((exceededLimit?_strict settings _).trans hlim)]
    by_cases hfirst : OnZero d w s
    · simp only [Settings.strict, dispatch_strict_of_onZero hfirst]
    · rw [hz] at hdis
      simp only [Settings.strict, dispatch_strict_of_not_onZero hfirst, hdis]
      exact ih hw _

/-- Any other run is the same under the strict check. -/
theorem run_strict_of_not_onZero (hz : settings.zeroCheck = .divisionOnly)
    (h : ∀ w t, Dispatches settings d queue s n w t → ¬ OnZero d w t) :
    run settings.strict d hd queue s n log = run settings d hd queue s n log := by
  have hstep {w : Word} {rest : List Word} {s : Stack} {n : Nat}
      (hlim : settings.exceededLimit? (n + 1) = none)
      (h : ∀ v t, Dispatches settings d (w :: rest) s n v t → ¬ OnZero d v t) :
      dispatch settings.strict.zeroCheck d w rest s = dispatch settings.zeroCheck d w rest s := by
    rw [hz]
    exact dispatch_strict_of_not_onZero (h w s (.first hlim))
  fun_induction run settings d hd queue s n log with
  | case1 s n log => rw [run_nil]
  | case2 s n log w rest limit hlim =>
    rw [run_cons_of_limit ((exceededLimit?_strict settings _).trans hlim)]
  | case3 s n log w rest hlim log' queue' s' hdis ih =>
    rw [run_cons ((exceededLimit?_strict settings _).trans hlim), hstep hlim h, hdis]
    exact ih fun v t hv => h v t (.later hlim hdis hv)
  | case4 s n log w rest hlim log' words s' hdis | case5 s n log w rest hlim log' f hdis =>
    rw [run_cons ((exceededLimit?_strict settings _).trans hlim), hstep hlim h, hdis]

end Runs

/-! ## Lines under the two checks -/

namespace Session

variable {s : Session} {line : String} {lines : List String}

/-- The session under the strict check. -/
def strict (s : Session) : Session := s.withSettings s.settings.strict

/-- `s.Dispatches lines d w t`: the evaluation of the lines, up to the first with a fault,
dispatches the word `w` when the dictionary is `d` and the stack is `t`. -/
inductive Dispatches : Session → List String → Dictionary → Word → Stack → Prop
  | line {s : Session} {line : String} {lines : List String} {w : Word} {t : Stack}
      (h : WordCalc.Dispatches s.settings s.dictionary (tokenize line) s.stack s.steps w t) :
      Dispatches s (line :: lines) s.dictionary w t
  | later {s : Session} {line : String} {lines : List String} {d : Dictionary} {w : Word}
      {t : Stack} (hok : (s.evalLine line).result = .ok ())
      (h : Dispatches (s.evalLine line).session lines d w t) :
      Dispatches s (line :: lines) d w t

theorem evalLine_strict_of_onZero (hz : s.settings.zeroCheck = .divisionOnly) {w : Word}
    {t : Stack}
    (h : WordCalc.Dispatches s.settings s.dictionary (tokenize line) s.stack s.steps w t)
    (hw : OnZero s.dictionary w t) : (s.strict.evalLine line).result = .error .divideByZero := by
  have hending : s.strict.ending line = .fault .divideByZero :=
    run_strict_of_onZero s.acyclic hz h hw #[]
  exact result_of_fault hending

theorem evalLine_strict_of_not_onZero (hz : s.settings.zeroCheck = .divisionOnly)
    (h : ∀ w t, WordCalc.Dispatches s.settings s.dictionary (tokenize line) s.stack s.steps w t →
      ¬ OnZero s.dictionary w t) :
    s.strict.evalLine line =
      ⟨(s.evalLine line).result, (s.evalLine line).session.strict, (s.evalLine line).events⟩ := by
  have hstopped : (s.withSettings s.settings.strict).stopped line = s.stopped line :=
    run_strict_of_not_onZero hz h
  simp only [strict, settings_evalLine]
  exact evalLine_withSettings hstopped

/-- If the lines dispatch one of the three operators on a zero, the strict check ends them. -/
theorem evalLinesOnto_strict_of_onZero (hz : s.settings.zeroCheck = .divisionOnly)
    {d : Dictionary} {w : Word} {t : Stack} (h : s.Dispatches lines d w t) (hw : OnZero d w t)
    (log : Array Event) :
    (s.strict.evalLinesOnto log lines).result = .error .divideByZero := by
  induction h generalizing log with
  | line h =>
    rw [evalLinesOnto_cons_of_error (evalLine_strict_of_onZero hz h hw)]
  | @later s line lines d w t hok h ih =>
    by_cases hline : ∃ v u,
        WordCalc.Dispatches s.settings s.dictionary (tokenize line) s.stack s.steps v u ∧
          OnZero s.dictionary v u
    · obtain ⟨v, u, hv, hzero⟩ := hline
      rw [evalLinesOnto_cons_of_error (evalLine_strict_of_onZero hz hv hzero)]
    · have hsame := evalLine_strict_of_not_onZero hz
        (fun v u hv hzero => hline ⟨v, u, hv, hzero⟩)
      have hok' : (s.strict.evalLine line).result = .ok () := by rw [hsame, hok]
      rw [evalLinesOnto_cons_of_ok hok', hsame]
      exact ih ((settings_evalLine s line).symm ▸ hz) hw _

/-- If they do not, the strict check changes nothing. -/
theorem evalLinesOnto_strict_of_not_onZero (hz : s.settings.zeroCheck = .divisionOnly)
    (h : ∀ d w t, s.Dispatches lines d w t → ¬ OnZero d w t) (log : Array Event) :
    s.strict.evalLinesOnto log lines =
      ⟨(s.evalLinesOnto log lines).result, (s.evalLinesOnto log lines).session.strict,
        (s.evalLinesOnto log lines).events⟩ := by
  induction lines generalizing s log with
  | nil => rfl
  | cons line lines ih =>
    have hsame := evalLine_strict_of_not_onZero hz fun w t hw => h s.dictionary w t (.line hw)
    cases hr : (s.evalLine line).result with
    | ok u =>
      have hr' : (s.strict.evalLine line).result = .ok u := by rw [hsame, hr]
      rw [evalLinesOnto_cons_of_ok hr, evalLinesOnto_cons_of_ok hr', hsame]
      exact ih ((settings_evalLine s line).symm ▸ hz) (fun d w t hw => h d w t (.later hr hw)) _
    | error f =>
      have hr' : (s.strict.evalLine line).result = .error f := by rw [hsame, hr]
      rw [evalLinesOnto_cons_of_error hr, evalLinesOnto_cons_of_error hr', hsame]

end Session

/-! ## Evaluations under the two checks -/

section Evaluate

variable {limit : Option Nat} {lines : List String}

theorem evaluate_strict_of_onZero {d : Dictionary} {w : Word} {t : Stack}
    (h : (Session.fresh ⟨.divisionOnly, limit⟩).Dispatches lines d w t) (hw : OnZero d w t) :
    evaluate ⟨.anyOperator, limit⟩ lines = .error .divideByZero := by
  have hresult := Session.evalLinesOnto_strict_of_onZero rfl h hw #[]
  show Except.map _
    ((Session.fresh ⟨.divisionOnly, limit⟩).strict.evalLinesOnto #[] lines).result = _
  rw [hresult]
  rfl

theorem evaluate_strict_of_not_onZero
    (h : ∀ d w t, (Session.fresh ⟨.divisionOnly, limit⟩).Dispatches lines d w t → ¬ OnZero d w t) :
    evaluate ⟨.anyOperator, limit⟩ lines = evaluate ⟨.divisionOnly, limit⟩ lines := by
  have hsame := Session.evalLinesOnto_strict_of_not_onZero rfl h #[]
  let o := (Session.fresh ⟨.divisionOnly, limit⟩).strict.evalLinesOnto #[] lines
  show o.result.map (fun _ => o.session.stack.toList) = _
  simp only [o]
  rw [hsame]
  rfl

/-- **The strict check only ever adds a division by zero.** Let the same lines be evaluated under
the strict check and under the lax one, with the same limit or none. The strict evaluation fails
with a division by zero, or it returns what the lax one returns, stack or fault.

The two differ only if the lax evaluation dispatches an addition, a subtraction or a multiplication
with a zero on top of the stack; and if it does, the strict one fails with a division by zero. -/
theorem strict_check_only_adds_divideByZero (limit : Option Nat) (lines : List String) :
    let strict := evaluate ⟨.anyOperator, limit⟩ lines
    let lax := evaluate ⟨.divisionOnly, limit⟩ lines
    let onZero := ∃ d w t, (Session.fresh ⟨.divisionOnly, limit⟩).Dispatches lines d w t ∧
      OnZero d w t
    (strict = .error .divideByZero ∨ strict = lax) ∧ (strict ≠ lax → onZero) ∧
      (onZero → strict = .error .divideByZero) := by
  intro strict lax onZero
  have hadds : onZero → strict = .error .divideByZero := by
    rintro ⟨d, w, t, h, hw⟩
    exact evaluate_strict_of_onZero h hw
  have hsame (hnot : ¬ onZero) : strict = lax :=
    evaluate_strict_of_not_onZero fun d w t h hw => hnot ⟨d, w, t, h, hw⟩
  refine ⟨?_, fun hne => ?_, hadds⟩
  · by_cases hzero : onZero
    · exact .inl (hadds hzero)
    · exact .inr (hsame hzero)
  · by_contra hnot
    exact hne (hsame hnot)

/-- Division is defined as addition, so it does not refuse the zero, and the strict check does. -/
theorem strict_check_only_adds_divideByZero_of_defined_division :
    evaluate ⟨.divisionOnly, some 9⟩ [": / + ;", "4 0 /"] = .ok [4] ∧
      evaluate ⟨.anyOperator, some 9⟩ [": / + ;", "4 0 /"] = .error .divideByZero ∧
      ∃ d w t, (Session.fresh ⟨.divisionOnly, some 9⟩).Dispatches [": / + ;", "4 0 /"] d w t ∧
        OnZero d w t := by
  have hlax : evaluate ⟨.divisionOnly, some 9⟩ [": / + ;", "4 0 /"] = .ok [4] := by cbv
  have hne : evaluate ⟨.anyOperator, some 9⟩ [": / + ;", "4 0 /"] ≠
      evaluate ⟨.divisionOnly, some 9⟩ [": / + ;", "4 0 /"] := by
    have hstrict : evaluate ⟨.anyOperator, some 9⟩ [": / + ;", "4 0 /"] =
        .error .divideByZero := by cbv
    simp [hstrict, hlax]
  obtain ⟨-, honly, hadds⟩ := strict_check_only_adds_divideByZero (some 9) [": / + ;", "4 0 /"]
  exact ⟨hlax, hadds (honly hne), honly hne⟩

end Evaluate

end WordCalc
