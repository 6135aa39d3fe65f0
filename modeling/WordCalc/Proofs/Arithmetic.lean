import Mathlib
import WordCalc.Proofs.Literals

/-!
# Exact arithmetic

What an operator does has four outcomes, which are tried in this order: the zero check stops it, the
stack is too low, the result does not fit a cell, or the result takes the place of the two topmost
cells. `Acts` has a rule for each, and `onStack` follows the rules (`acts_iff`). The result is the
mathematical one: the sum, the difference, the product, or the quotient rounded down
(`result?_exact`).
-/

namespace WordCalc

/-- A stack that is deep enough has two cells on another stack. -/
theorem Stack.exists_eq_push_pair {s : Stack} (h : ¬ s.depth < 2) :
    ∃ (rest : Stack) (l r : Cell), s = rest.push [l, r] := by
  rw [← length_toList] at h
  rcases List.eq_nil_or_concat' s.toList with hnil | ⟨init, r, hr⟩
  · simp [hnil] at h
  · rcases List.eq_nil_or_concat' init with rfl | ⟨below, l, rfl⟩
    · simp [hr] at h
    · refine ⟨⟨below.toArray⟩, l, r, ext_toList ?_⟩
      rw [toList_push, hr, List.append_assoc]
      rfl

theorem ZeroCheck.covers_iff {check : ZeroCheck} {op : Operator} :
    check.covers op = true ↔ op = .div ∨ check = .anyOperator := by
  cases check <;> simp [covers]

namespace Operator

variable {op : Operator} {check : ZeroCheck} {s rest : Stack} {l r c : Cell}
  {res : Except Fault Stack}

/-- The integer that the operator means. -/
def exact : Operator → ℤ → ℤ → ℤ
  | add, l, r => l + r
  | sub, l, r => l - r
  | mul, l, r => l * r
  | div, l, r => ⌊(l : ℚ) / r⌋

/-- The zero check stops the operator: there is a zero on top, and the operator is a division or the
check covers every operator. -/
def Refused (op : Operator) (check : ZeroCheck) (s : Stack) : Prop :=
  s.top? = some 0 ∧ (op = .div ∨ check = .anyOperator)

/-- `op.Acts check s res`: the operator makes `res` of the stack `s`. -/
inductive Acts (op : Operator) (check : ZeroCheck) (s : Stack) : Except Fault Stack → Prop
  | divideByZero (hzero : op.Refused check s) : Acts op check s (.error .divideByZero)
  | stackUnderflow (hzero : ¬ op.Refused check s) (hlow : s.depth < 2) :
      Acts op check s (.error .stackUnderflow)
  | integerOverflow {rest : Stack} {l r : Cell} (hzero : ¬ op.Refused check s)
      (hs : s = rest.push [l, r]) (hfits : ¬ Cell.Fits (op.exact l.toInt r.toInt)) :
      Acts op check s (.error .integerOverflow)
  | result {rest : Stack} {l r c : Cell} (hzero : ¬ op.Refused check s)
      (hs : s = rest.push [l, r]) (hc : c.toInt = op.exact l.toInt r.toInt) :
      Acts op check s (.ok (rest.push [c]))

/-! ## Results -/

/-- The quotient rounded down is the floor of the rational quotient. -/
theorem floor_div (a b : ℤ) : ⌊(a : ℚ) / b⌋ = a.fdiv b := by
  have pos (a : ℤ) (n : ℕ) : ⌊(a : ℚ) / n⌋ = a.fdiv n := by
    rw [Rat.floor_intCast_div_natCast, Int.fdiv_eq_ediv_of_nonneg a (Int.natCast_nonneg n)]
  obtain ⟨n, rfl | rfl⟩ := Int.eq_nat_or_neg b
  · exact_mod_cast pos a n
  · calc ⌊(a : ℚ) / ((-n : ℤ) : ℚ)⌋
        = ⌊((-a : ℤ) : ℚ) / n⌋ := by push_cast; rw [div_neg, neg_div]
      _ = (-a).fdiv n := pos (-a) n
      _ = a.fdiv (-n) := by rw [← Int.neg_fdiv_neg, neg_neg]

/-- **The results are exact**, except for a division by zero. -/
theorem result?_exact (hr : op = .div → r ≠ 0) :
    Cell.Exact (op.result? l r) (op.exact l.toInt r.toInt) := by
  cases op with
  | add => exact Cell.add?_exact l r
  | sub => exact Cell.sub?_exact l r
  | mul => exact Cell.mul?_exact l r
  | div =>
    rw [exact, floor_div]
    exact Cell.floorDiv?_exact (hr rfl)

/-- A division that is not refused does not divide by zero. -/
theorem ne_zero_of_not_refused (h : ¬ op.Refused check (rest.push [l, r])) : op = .div → r ≠ 0 := by
  rintro rfl rfl
  refine h ⟨?_, .inl rfl⟩
  rw [Stack.top?_eq_getLast?, Stack.toList_push]
  simp

/-! ## The operator follows the rules -/

theorem onStack_of_refused (h : op.Refused check s) :
    op.onStack check s = .error .divideByZero := by
  simp [onStack, h.1, ZeroCheck.covers_iff.mpr h.2]

theorem guard_of_not_refused (h : ¬ op.Refused check s) :
    ¬ (check.covers op && s.top? == some 0) = true := by
  rw [Bool.and_eq_true, ZeroCheck.covers_iff, beq_iff_eq]
  exact fun e => h e.symm

theorem onStack_of_low (h : ¬ op.Refused check s) (hlow : s.depth < 2) :
    op.onStack check s = .error .stackUnderflow := by
  have hpop : s.popN 2 = .error .stackUnderflow := Stack.popN_eq_error_iff.mpr ⟨hlow, rfl⟩
  rw [onStack, if_neg (guard_of_not_refused h), hpop]

theorem onStack_of_pair (h : ¬ op.Refused check (rest.push [l, r])) :
    op.onStack check (rest.push [l, r]) =
      match op.result? l r with
      | some c => .ok (rest.push [c])
      | none => .error .integerOverflow := by
  have hpop : (rest.push [l, r]).popN 2 = .ok (#v[l, r], rest) := rest.popN_push #v[l, r]
  rw [onStack, if_neg (guard_of_not_refused h), hpop]
  rfl

theorem onStack_of_not_fits (h : ¬ op.Refused check (rest.push [l, r]))
    (hfits : ¬ Cell.Fits (op.exact l.toInt r.toInt)) :
    op.onStack check (rest.push [l, r]) = .error .integerOverflow := by
  have hexact := result?_exact (l := l) (ne_zero_of_not_refused h)
  rw [onStack_of_pair h, hexact.eq_none_iff.mpr hfits]

theorem onStack_of_toInt_eq (h : ¬ op.Refused check (rest.push [l, r]))
    (hc : c.toInt = op.exact l.toInt r.toInt) :
    op.onStack check (rest.push [l, r]) = .ok (rest.push [c]) := by
  have hexact := result?_exact (l := l) (ne_zero_of_not_refused h)
  rw [onStack_of_pair h, (hexact c).mpr hc]

theorem Acts.onStack_eq (h : op.Acts check s res) : op.onStack check s = res := by
  cases h with
  | divideByZero hzero => exact onStack_of_refused hzero
  | stackUnderflow hzero hlow => exact onStack_of_low hzero hlow
  | integerOverflow hzero hs hfits =>
    subst hs
    exact onStack_of_not_fits hzero hfits
  | result hzero hs hc =>
    subst hs
    exact onStack_of_toInt_eq hzero hc

/-- There is a rule for any stack. -/
theorem exists_acts (op : Operator) (check : ZeroCheck) (s : Stack) :
    ∃ res, op.Acts check s res := by
  by_cases hzero : op.Refused check s
  · exact ⟨_, .divideByZero hzero⟩
  · by_cases hlow : s.depth < 2
    · exact ⟨_, .stackUnderflow hzero hlow⟩
    · obtain ⟨rest, l, r, hs⟩ := Stack.exists_eq_push_pair hlow
      by_cases hfits : Cell.Fits (op.exact l.toInt r.toInt)
      · obtain ⟨c, hc⟩ := Cell.exists_toInt_eq_iff.mpr hfits
        exact ⟨_, .result hzero hs hc⟩
      · exact ⟨_, .integerOverflow hzero hs hfits⟩

/-- **An operator follows the rules**, which have one outcome for any stack. -/
theorem acts_iff : op.Acts check s res ↔ op.onStack check s = res := by
  refine ⟨Acts.onStack_eq, fun h => ?_⟩
  obtain ⟨res', hacts⟩ := exists_acts op check s
  rw [← h, hacts.onStack_eq]
  exact hacts

/-! ## When each outcome arises -/

theorem onStack_eq_divideByZero_iff :
    op.onStack check s = .error .divideByZero ↔ op.Refused check s := by
  rw [← acts_iff]
  constructor
  · rintro ⟨⟩
    assumption
  · exact .divideByZero

theorem onStack_eq_stackUnderflow_iff (h : ¬ op.Refused check s) :
    op.onStack check s = .error .stackUnderflow ↔ s.depth < 2 := by
  rw [← acts_iff]
  constructor
  · rintro ⟨⟩
    assumption
  · exact .stackUnderflow h

theorem onStack_eq_integerOverflow_iff (h : ¬ op.Refused check (rest.push [l, r])) :
    op.onStack check (rest.push [l, r]) = .error .integerOverflow ↔
      ¬ Cell.Fits (op.exact l.toInt r.toInt) := by
  refine ⟨fun hover hfits => ?_, onStack_of_not_fits h⟩
  obtain ⟨c, hc⟩ := Cell.exists_toInt_eq_iff.mpr hfits
  rw [onStack_of_toInt_eq h hc] at hover
  cases hover

/-- The word that stands for an operator does what the operator does, where it is not defined. -/
theorem dispatch_operator {d : Dictionary} {queue : List Word} (hb : d.body? op.symbol = none) :
    dispatch check d op.symbol queue s = .ofStack queue (op.onStack check s) := by
  rw [dispatch, classify_operator hb]
  rfl

/-- **Operators are exact.** A word that stands for an operator and is not defined does what the
operator does to the stack. This divides by zero exactly when there is a zero on top, however deep
the stack is, and the operator is a division or the check covers every operator. Otherwise it finds
the stack too low exactly when there are fewer than two cells. Otherwise, with `l` below `r` on top,
it puts the sum, the difference, the product or the quotient rounded down of the two integers in
their place if this fits a cell, and overflows exactly when it does not.

No step inside a division fails. Once there is a truncated quotient, the divisor is not zero, the
remainder exists, and where the remainder is not zero the quotient minus one fits a cell. -/
theorem operators_are_exact (op : Operator) (check : ZeroCheck) (s : Stack) :
    (∀ (d : Dictionary) (queue : List Word), d.body? op.symbol = none →
        dispatch check d op.symbol queue s = .ofStack queue (op.onStack check s)) ∧
      (op.onStack check s = .error .divideByZero ↔
        s.top? = some 0 ∧ (op = .div ∨ check = .anyOperator)) ∧
      (¬ (s.top? = some 0 ∧ (op = .div ∨ check = .anyOperator)) →
        (op.onStack check s = .error .stackUnderflow ↔ s.depth < 2) ∧
          ∀ (rest : Stack) (l r : Cell), s = rest.push [l, r] →
            (Cell.Fits (op.exact l.toInt r.toInt) →
              ∃ c : Cell, c.toInt = op.exact l.toInt r.toInt ∧
                op.onStack check s = .ok (rest.push [c])) ∧
              (op.onStack check s = .error .integerOverflow ↔
                ¬ Cell.Fits (op.exact l.toInt r.toInt))) ∧
      ∀ l r q : Cell, Cell.div? l r = some q →
        r ≠ 0 ∧ q.toInt = l.toInt.tdiv r.toInt ∧
          ∃ m, Cell.rem? l r = some m ∧ m.toInt = l.toInt.tmod r.toInt ∧
            (m ≠ 0 → Cell.sub? q 1 = some (q - 1)) ∧
            Cell.floorDiv? l r =
              some (if m ≠ 0 ∧ decide (l < 0) ≠ decide (r < 0) then q - 1 else q) := by
  refine ⟨fun d queue => dispatch_operator, onStack_eq_divideByZero_iff,
    fun hzero => ⟨onStack_eq_stackUnderflow_iff hzero, ?_⟩, fun l r q => Cell.steps_of_div?⟩
  rintro rest l r rfl
  refine ⟨fun hfits => ?_, onStack_eq_integerOverflow_iff hzero⟩
  obtain ⟨c, hc⟩ := Cell.exists_toInt_eq_iff.mpr hfits
  exact ⟨c, hc, onStack_of_toInt_eq hzero hc⟩

/-- The least cell over `-1` is the one quotient that overflows, and over `3` it is rounded away
from zero. A zero on top that is alone is found before the stack is found too low. -/
theorem operators_are_exact_at_least_cell :
    dispatch .divisionOnly .empty "/" [] ⟨#[5, Int64.minValue, -1]⟩ =
        .fault .integerOverflow ∧
      div.onStack .divisionOnly ⟨#[5, Int64.minValue, 3]⟩ = .ok ⟨#[5, -3074457345618258603]⟩ ∧
      add.onStack .anyOperator ⟨#[0]⟩ = .error .divideByZero ∧
      add.onStack .divisionOnly ⟨#[0]⟩ = .error .stackUnderflow := by
  have hover : ¬ Cell.Fits (div.exact Int64.minValue.toInt (Int64.toInt (-1))) := by
    rw [exact, floor_div]
    decide
  have hdown : div.exact Int64.minValue.toInt (Int64.toInt 3) = -3074457345618258603 := by
    rw [exact, floor_div]
    decide
  obtain ⟨hdispatch, -, hoperands, -⟩ :=
    operators_are_exact .div .divisionOnly ⟨#[5, Int64.minValue, -1]⟩
  obtain ⟨-, hresult⟩ := hoperands (by decide)
  obtain ⟨-, hleast⟩ := hresult ⟨#[5]⟩ _ _ rfl
  obtain ⟨-, -, hoperands, -⟩ := operators_are_exact .div .divisionOnly ⟨#[5, Int64.minValue, 3]⟩
  obtain ⟨-, hresult⟩ := hoperands (by decide)
  obtain ⟨hfits, -⟩ := hresult ⟨#[5]⟩ _ _ rfl
  obtain ⟨c, hc, hthird⟩ := hfits (by rw [hdown]; decide)
  obtain rfl : c = -3074457345618258603 := Int64.toInt_inj.mp (hc.trans hdown)
  obtain ⟨-, hzero, -⟩ := operators_are_exact .add .anyOperator ⟨#[0]⟩
  obtain ⟨-, -, hlow, -⟩ := operators_are_exact .add .divisionOnly ⟨#[0]⟩
  refine ⟨?_, hthird, hzero.mpr (by decide), (hlow (by decide)).1.mpr (by decide)⟩
  exact (hdispatch .empty [] rfl).trans (by rw [hleast.mpr hover]; rfl)

end Operator

end WordCalc
