import WordCalc.Proofs.Runs

/-!
# Depths

What a word does to the depth of the stack does not depend on the cells. An operator takes two cells
off and puts one on; a shuffle takes its arity off and puts its yield on; a literal puts one cell
on. So a word that acts on the stack changes the depth by one cell at most (`Plain.depth_step`).
-/

namespace WordCalc

/-! ## Pushing and popping -/

namespace Stack

variable {s rest : Stack}

@[simp]
theorem depth_empty : empty.depth = 0 := rfl

@[simp]
theorem depth_push (s : Stack) (items : List Cell) :
    (s.push items).depth = s.depth + items.length := by
  rw [← length_toList, toList_push, List.length_append, length_toList]

theorem depth_of_popN {n : Nat} {v : Vector Cell n} (h : s.popN n = .ok (v, rest)) :
    s.depth = rest.depth + n := by
  rw [← length_toList, toList_of_popN h, List.length_append, length_toList, Vector.length_toList]

end Stack

/-! ## Operators and shuffles -/

variable {s s' : Stack} {check : ZeroCheck} {f : Fault}

namespace Operator

variable {op : Operator}

/-- An operator that succeeds puts its result in the place of the two topmost cells. -/
theorem exists_of_onStack_ok (h : op.onStack check s = .ok s') :
    ∃ (v : Vector Cell 2) (rest : Stack) (c : Cell), s.popN 2 = .ok (v, rest) ∧
      s' = rest.push [c] := by
  unfold onStack at h
  split at h
  · cases h
  · split at h
    · cases h
    · rename_i v rest hpop
      split at h
      · rename_i c hc
        cases h
        exact ⟨v, rest, c, hpop, rfl⟩
      · cases h

/-- The faults of an operator. -/
theorem fault_of_onStack_error (h : op.onStack check s = .error f) :
    f = .divideByZero ∨ f = .stackUnderflow ∨ f = .integerOverflow := by
  unfold onStack at h
  split at h
  · cases h
    exact .inl rfl
  · split at h
    · rename_i hpop
      cases h
      exact .inr (.inl (Stack.popN_eq_error_iff.mp hpop).2)
    · split at h
      · cases h
      · cases h
        exact .inr (.inr rfl)

theorem depth_onStack (h : op.onStack check s = .ok s') : s'.depth + 1 = s.depth := by
  obtain ⟨v, rest, c, hpop, rfl⟩ := exists_of_onStack_ok h
  rw [Stack.depth_of_popN hpop, Stack.depth_push, List.length_singleton]

end Operator

namespace Shuffle

variable {sh : Shuffle}

/-- The number of cells that the shuffle puts back. -/
def yield : Shuffle → Nat
  | drop => 0
  | dup | swap => 2
  | copySecond => 3

theorem length_rearrange (sh : Shuffle) (v : Vector Cell sh.arity) :
    (sh.rearrange v).length = sh.yield := by
  cases sh <;> rfl

/-- A shuffle that succeeds puts the cells that it took off back in another way. -/
theorem exists_of_onStack_ok (h : sh.onStack s = .ok s') :
    ∃ (v : Vector Cell sh.arity) (rest : Stack), s.popN sh.arity = .ok (v, rest) ∧
      s' = rest.push (sh.rearrange v) := by
  unfold onStack at h
  split at h
  · rename_i v rest hpop
    cases h
    exact ⟨v, rest, hpop, rfl⟩
  · cases h

/-- The one fault of a shuffle. -/
theorem fault_of_onStack_error (h : sh.onStack s = .error f) : f = .stackUnderflow := by
  unfold onStack at h
  split at h
  · cases h
  · rename_i hpop
    cases h
    exact (Stack.popN_eq_error_iff.mp hpop).2

theorem depth_onStack (h : sh.onStack s = .ok s') : s'.depth + sh.arity = s.depth + sh.yield := by
  obtain ⟨v, rest, hpop, rfl⟩ := exists_of_onStack_ok h
  rw [Stack.depth_of_popN hpop, Stack.depth_push, length_rearrange]
  omega

/-- A shuffle puts back one cell less or one cell more than it takes off, or as many. -/
theorem yield_near_arity (sh : Shuffle) : sh.yield ≤ sh.arity + 1 ∧ sh.arity ≤ sh.yield + 1 := by
  cases sh <;> decide

end Shuffle

/-! ## Words -/

namespace Plain

variable {w : Word}

/-- **A word changes the depth by one cell at most.** -/
theorem depth_step (h : step check s w = .ok s') :
    s'.depth ≤ s.depth + 1 ∧ s.depth ≤ s'.depth + 1 := by
  unfold step at h
  split at h
  · cases h
    rw [Stack.depth_push, List.length_singleton]
    omega
  · have hd := Operator.depth_onStack h
    omega
  · rename_i sh _
    have hd := Shuffle.depth_onStack h
    have hy := sh.yield_near_arity
    omega
  · cases h
  · cases h

end Plain

end WordCalc
