import WordCalc.Event

/-!
# The stack

A stack of cells, and the words that act on it. Lists of cells go on a stack and come off it in the
order in which they were pushed, so the last item of a list is the one nearest the top.
`Stack.toList` is the view that the operations are described by: bottom first.

* A *cell* is a signed word of 64 bits. The operations on cells give nothing where the result does
  not fit one: they never wrap around.
* An *operator* takes two cells off the stack, the left operand below the right one, and puts the
  result in their place. The zero check comes first: where it applies, a zero on top is refused even
  if it is the only cell.
* A *shuffle* copies, discards or reorders the topmost cells.
-/

namespace WordCalc

/-! ## Cells -/

/-- A value on the stack. -/
abbrev Cell := Int64

namespace Cell

/-- The cell that holds `n`, if one does. -/
def ofInt? (n : Int) : Option Cell :=
  if Int64.minValue.toInt ≤ n ∧ n ≤ Int64.maxValue.toInt then some (Int64.ofInt n) else none

/-- The sum, if it fits. -/
def add? (l r : Cell) : Option Cell :=
  if l.toBitVec.saddOverflow r.toBitVec then none else some (l + r)

/-- The difference, if it fits. -/
def sub? (l r : Cell) : Option Cell :=
  if l.toBitVec.ssubOverflow r.toBitVec then none else some (l - r)

/-- The product, if it fits. -/
def mul? (l r : Cell) : Option Cell :=
  if l.toBitVec.smulOverflow r.toBitVec then none else some (l * r)

/-- Machine words have no quotient and no remainder when the divisor is zero, and none for the least
cell over `-1`, which is the one quotient of two cells that does not fit. -/
def NoQuotient (l r : Cell) : Prop := r = 0 ∨ (l = Int64.minValue ∧ r = -1)

instance (l r : Cell) : Decidable (NoQuotient l r) :=
  inferInstanceAs (Decidable (r = 0 ∨ (l = Int64.minValue ∧ r = -1)))

/-- The quotient rounded towards zero, if there is one and it fits. -/
def div? (l r : Cell) : Option Cell :=
  if NoQuotient l r then none else some (l / r)

/-- The remainder of that division. -/
def rem? (l r : Cell) : Option Cell :=
  if NoQuotient l r then none else some (l % r)

/-- The quotient rounded down, if there is one and it fits. It is one less than the quotient rounded
towards zero when the division leaves a remainder and the signs differ. -/
def floorDiv? (l r : Cell) : Option Cell := do
  let quotient ← div? l r
  let remainder ← rem? l r
  return if remainder ≠ 0 ∧ decide (l < 0) ≠ decide (r < 0) then quotient - 1 else quotient

end Cell

/-- Every combination of signs rounds down. -/
example : Cell.floorDiv? 7 2 = some 3 ∧ Cell.floorDiv? (-7) 2 = some (-4) ∧
    Cell.floorDiv? 7 (-2) = some (-4) ∧ Cell.floorDiv? (-7) (-2) = some 3 ∧
    Cell.floorDiv? (-8) 2 = some (-4) ∧ Cell.floorDiv? Int64.minValue (-1) = none := by
  decide +kernel

/-! ## Stacks -/

/-- A stack; the last cell is the top. -/
structure Stack where
  cells : Array Cell
  deriving DecidableEq

namespace Stack

/-- The stack without cells. -/
def empty : Stack := ⟨#[]⟩

/-- The cells, bottom first. -/
def toList (s : Stack) : List Cell := s.cells.toList

/-- The number of cells. -/
def depth (s : Stack) : Nat := s.cells.size

/-- Whether there is no cell. -/
def isEmpty (s : Stack) : Bool := s.depth == 0

/-- Puts `items` on the stack, the last of them on top. -/
def push (s : Stack) (items : List Cell) : Stack := ⟨s.cells ++ items⟩

/-- The top, if there is one. -/
def top? (s : Stack) : Option Cell := s.cells.back?

/-- Takes the `n` topmost cells off, in the order in which they were pushed. -/
def popN (s : Stack) (n : Nat) : Except Fault (Vector Cell n × Stack) :=
  if h : n ≤ s.cells.size then
    .ok (⟨s.cells.extract (s.cells.size - n), by simp; omega⟩,
      ⟨s.cells.shrink (s.cells.size - n)⟩)
  else .error .stackUnderflow

/-- Takes the top off. -/
def pop (s : Stack) : Except Fault (Cell × Stack) :=
  match s.popN 1 with
  | .ok (v, rest) => .ok (v[0], rest)
  | .error f => .error f

/-- The top, which stays where it is. -/
def peek (s : Stack) : Except Fault Cell :=
  match s.top? with
  | some c => .ok c
  | none => .error .stackUnderflow

/-- The cells in decimal, bottom first, with one space between neighbours. -/
def text (s : Stack) : String :=
  separated " " (s.toList.map fun c => Numeral.write c.toInt)

@[simp]
theorem toList_empty : empty.toList = [] := rfl

@[simp]
theorem length_toList (s : Stack) : s.toList.length = s.depth := rfl

@[simp]
theorem toList_push (s : Stack) (items : List Cell) : (s.push items).toList = s.toList ++ items :=
  Array.toList_appendList

theorem ext_toList {s t : Stack} (h : s.toList = t.toList) : s = t := by
  cases s
  cases t
  exact congrArg Stack.mk (Array.toList_inj.mp h)

theorem top?_eq_getLast? (s : Stack) : s.top? = s.toList.getLast? := by
  rw [top?, toList, Array.back?_eq_getElem?, List.getLast?_eq_getElem?, Array.getElem?_toList,
    Array.length_toList]

/-- Nothing is lost and nothing is reordered: the cells that stay and the cells that come off are
the cells there were. -/
theorem toList_of_popN {s rest : Stack} {n : Nat} {v : Vector Cell n}
    (h : s.popN n = .ok (v, rest)) : s.toList = rest.toList ++ v.toList := by
  unfold popN at h
  split at h
  · cases h
    simp only [toList, Vector.toList_mk, Array.toList_shrink, Array.toList_extract,
      List.extract_eq_take_drop, ← Array.length_toList]
    rw [List.take_of_length_le (l := s.cells.toList.drop _) (by simp), List.take_append_drop]
  · cases h

/-- Taking cells off fails only where there are too few. -/
theorem popN_eq_error_iff {s : Stack} {n : Nat} {f : Fault} :
    s.popN n = .error f ↔ s.depth < n ∧ f = .stackUnderflow := by
  unfold popN depth
  split
  · rename_i h
    exact ⟨fun e => (nomatch e), fun e => absurd h (Nat.not_le.mpr e.1)⟩
  · rename_i h
    exact ⟨fun e => ⟨Nat.not_le.mp h, (Except.error.inj e).symm⟩, fun e => e.2 ▸ rfl⟩

/-- What was pushed last comes off first, in the order of the push. -/
theorem popN_push (s : Stack) {n : Nat} (v : Vector Cell n) :
    (s.push v.toList).popN n = .ok (v, s) := by
  cases h : (s.push v.toList).popN n with
  | error f =>
    have hd := (popN_eq_error_iff.mp h).1
    rw [← length_toList, toList_push, List.length_append, Vector.length_toList] at hd
    omega
  | ok r =>
    obtain ⟨v', rest⟩ := r
    have hl := toList_of_popN h
    rw [toList_push] at hl
    obtain ⟨hs, hv⟩ := List.append_inj' hl (by rw [Vector.length_toList, Vector.length_toList])
    rw [ext_toList hs, Vector.toList_inj.mp hv]

/-- Cells come off a stack exactly when they are the topmost ones. -/
theorem popN_eq_ok_iff {s rest : Stack} {n : Nat} {v : Vector Cell n} :
    s.popN n = .ok (v, rest) ↔ s.toList = rest.toList ++ v.toList := by
  refine ⟨toList_of_popN, fun h => ?_⟩
  have hpush : s = rest.push v.toList := ext_toList (h.trans (toList_push rest v.toList).symm)
  rw [hpush, popN_push]

end Stack

/-! ## Operators -/

/-- The operators that refuse a zero on top of the stack. -/
inductive ZeroCheck where
  /-- Division alone. -/
  | divisionOnly
  /-- All four. -/
  | anyOperator
  deriving DecidableEq

/-- An arithmetic word. -/
inductive Operator where
  | add
  | sub
  | mul
  | div
  deriving DecidableEq

/-- Whether the check covers the operator. -/
def ZeroCheck.covers : ZeroCheck → Operator → Bool
  | divisionOnly, op => op = .div
  | anyOperator, _ => true

namespace Operator

/-- The word that stands for the operator. -/
def symbol : Operator → Word
  | add => "+"
  | sub => "-"
  | mul => "*"
  | div => "/"

/-- The result on two cells, if it fits one. -/
def result? : Operator → Cell → Cell → Option Cell
  | add => Cell.add?
  | sub => Cell.sub?
  | mul => Cell.mul?
  | div => Cell.floorDiv?

/-- The stack after the operator. -/
def onStack (op : Operator) (check : ZeroCheck) (s : Stack) : Except Fault Stack :=
  if check.covers op && s.top? == some 0 then .error .divideByZero
  else
    match s.popN 2 with
    | .error f => .error f
    | .ok (v, rest) =>
      match op.result? v[0] v[1] with
      | some c => .ok (rest.push [c])
      | none => .error .integerOverflow

end Operator

/-! ## Shuffles -/

/-- A word that rearranges the top of the stack. -/
inductive Shuffle where
  /-- Copies the top. -/
  | dup
  /-- Discards the top. -/
  | drop
  /-- Exchanges the top and the cell below it. -/
  | swap
  /-- Copies the cell below the top. -/
  | copySecond
  deriving DecidableEq

namespace Shuffle

/-- The word that stands for the shuffle. -/
def symbol : Shuffle → Word
  | dup => "DUP"
  | drop => "DROP"
  | swap => "SWAP"
  | copySecond => "OVER"

/-- The number of cells that the shuffle takes off. -/
def arity : Shuffle → Nat
  | dup | drop => 1
  | swap | copySecond => 2

/-- What the shuffle puts back in place of the cells it took off. -/
def rearrange : (sh : Shuffle) → Vector Cell sh.arity → List Cell
  | dup, v => [v[0], v[0]]
  | drop, _ => []
  | swap, v => [v[1], v[0]]
  | copySecond, v => [v[0], v[1], v[0]]

/-- The stack after the shuffle. -/
def onStack (sh : Shuffle) (s : Stack) : Except Fault Stack :=
  match s.popN sh.arity with
  | .ok (v, rest) => .ok (rest.push (sh.rearrange v))
  | .error f => .error f

end Shuffle

end WordCalc
