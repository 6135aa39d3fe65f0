import Mathlib
import WordCalc.Proofs.Depth

/-!
# Stacks in place

The operations of a stack answer with a new stack. Here they are steps that change one stack in
place, as small programs: to take cells off is to look whether there are enough, to cut the topmost
ones away and to write them over a row of zeros; to take the top off is to take one cell off; to
look at the top is to take it off and to put it back. Such a step leaves a stack behind even where
it fails, so the programs also tell what becomes of the stack then.

In place and by value the operations are the same (`run_popN`, `run_pop`, `run_peek`), so what holds
of the answers holds of the programs: taking cells off and putting them on undo each other, two bulk
pops are one, and neither a pop that fails nor a look at the top leaves a trace
(`bulk_pops_compose`).
-/

namespace WordCalc

/-! ## Cells on and off -/

namespace Stack

variable {s mid rest : Stack} {n m : Nat} {c : Cell} {f : Fault}

theorem push_push (s : Stack) (lower upper : List Cell) :
    (s.push lower).push upper = s.push (lower ++ upper) :=
  ext_toList (by simp)

/-- Cells come off a stack exactly when it is the rest with these cells put on. -/
theorem popN_eq_ok_iff_push {v : Vector Cell n} :
    s.popN n = .ok (v, rest) ↔ s = rest.push v.toList := by
  rw [popN_eq_ok_iff, ← toList_push]
  exact ⟨ext_toList, fun h => h ▸ rfl⟩

/-- As many cells come off as there are. -/
theorem exists_popN_eq_ok (h : n ≤ s.depth) :
    ∃ (v : Vector Cell n) (rest : Stack), s.popN n = .ok (v, rest) := by
  cases hpop : s.popN n with
  | error f =>
    have hlow := (popN_eq_error_iff.mp hpop).1
    omega
  | ok r => exact ⟨r.1, r.2, rfl⟩

/-- Two bulk pops are one: what comes off second has been below what came off first. -/
theorem popN_add {v : Vector Cell n} {w : Vector Cell m} (hv : s.popN n = .ok (v, mid))
    (hw : mid.popN m = .ok (w, rest)) :
    s.popN (n + m) = .ok ((w ++ v).cast (Nat.add_comm m n), rest) := by
  rw [popN_eq_ok_iff_push] at hv hw ⊢
  rw [hv, hw, push_push, Vector.toList_cast, Vector.toList_append]

/-- Cells that come off, if any, end with the top. -/
theorem exists_last_of_popN {v : Vector Cell n} (hn : 0 < n) (h : s.popN n = .ok (v, rest)) :
    ∃ c, v.toList.getLast? = some c ∧ s.top? = some c := by
  have hv : v.toList ≠ [] := by
    rw [← List.length_pos_iff, Vector.length_toList]
    exact hn
  have hlast := List.getLast?_eq_some_getLast hv
  refine ⟨v.toList.getLast hv, hlast, ?_⟩
  rw [top?_eq_getLast?, toList_of_popN h, List.getLast?_append, hlast, Option.some_or]

/-- The top comes off exactly when the stack is the rest with it put on. -/
theorem pop_eq_ok_iff : s.pop = .ok (c, rest) ↔ s = rest.push [c] := by
  have hone : s.popN 1 = .ok (#v[c], rest) ↔ s = rest.push [c] := popN_eq_ok_iff_push
  rw [← hone, pop]
  cases s.popN 1 with
  | error f => simp
  | ok r =>
    obtain ⟨v, below⟩ := r
    have hv : v = #v[v[0]] := Vector.ext fun i hi => by simp [Nat.lt_one_iff.mp hi]
    rw [hv]
    simp

theorem pop_eq_error_iff : s.pop = .error f ↔ s.depth = 0 ∧ f = .stackUnderflow := by
  rw [← Nat.lt_one_iff, ← popN_eq_error_iff, pop]
  cases s.popN 1 <;> simp

theorem peek_eq_ok_iff : s.peek = .ok c ↔ s.top? = some c := by
  unfold peek
  cases s.top? <;> simp

/-- To look at the top is to take it off and to forget the rest. -/
theorem peek_eq_map_pop (s : Stack) : s.peek = s.pop.map Prod.fst := by
  cases hpop : s.pop with
  | error f =>
    obtain ⟨hd, rfl⟩ := pop_eq_error_iff.mp hpop
    have htop : s.top? = none := by
      rw [top?_eq_getLast?, List.getLast?_eq_none_iff, ← List.length_eq_zero_iff]
      exact hd
    rw [peek, htop, Except.map]
  | ok r =>
    rw [Except.map, peek_eq_ok_iff, pop_eq_ok_iff.mp hpop, top?_eq_getLast?, toList_push,
      List.getLast?_concat]

/-! ## What an answer makes of the old stack -/

/-- What an answer makes of `s` in place: a new stack replaces it, and a fault leaves it alone. -/
def settle {α : Type} (s : Stack) : Except Fault (α × Stack) → EStateM.Result Fault Stack α
  | .ok (a, rest) => .ok a rest
  | .error f => .error f s

section Settle

variable {α : Type} {r : Except Fault (α × Stack)} {a : α}

theorem settle_eq_ok_iff : s.settle r = .ok a rest ↔ r = .ok (a, rest) := by
  cases r <;> simp [settle, Prod.ext_iff]

theorem settle_eq_error_iff : s.settle r = .error f rest ↔ r = .error f ∧ rest = s := by
  cases r <;> simp [settle, eq_comm]

end Settle

end Stack

/-! ## Operations in place -/

/-- An operation on a stack in place. It leaves a stack behind whether it succeeds or fails. -/
abbrev InPlace (α : Type) := EStateM Fault Stack α

namespace InPlace

variable {s rest : Stack} {n m : Nat} {c : Cell} {f : Fault}

/-- Puts `items` on the stack, the last of them on top. -/
def push (items : List Cell) : InPlace Unit :=
  modify (·.push items)

/-- Cuts the stack down to its `height` lowest cells and answers with the others, bottom first. -/
def cutAt (height : Nat) : InPlace (Array Cell) :=
  modifyGet fun s => (s.cells.extract height, ⟨s.cells.shrink height⟩)

/-- The cells of `row`, each overwritten by the cell of `source` at its place, as far as there is
one. -/
def overwrite (row : Vector Cell n) (source : Array Cell) : Vector Cell n :=
  row.mapIdx fun i c => source.getD i c

/-- Takes the `n` topmost cells off, in the order in which they were pushed. -/
def popN (n : Nat) : InPlace (Vector Cell n) := do
  let s ← get
  if s.depth < n then
    throw .stackUnderflow
  else
    let cells ← cutAt (s.depth - n)
    return overwrite (Vector.replicate n 0) cells

/-- Takes the top off. -/
def pop : InPlace Cell := do
  let v ← popN 1
  return v.head

/-- Takes the top off and puts it back. -/
def peek : InPlace Cell := do
  let top ← pop
  push [top]
  return top

/-! ## In place and by value -/

/-- A source as long as the row leaves nothing of the row. -/
theorem overwrite_eq (row : Vector Cell n) {source : Array Cell} (h : source.size = n) :
    overwrite row source = ⟨source, h⟩ := by
  ext i hi
  simp [overwrite, Array.getD_eq_getD_getElem?, h, hi]

theorem run_push (items : List Cell) (s : Stack) :
    (push items).run s = .ok () (s.push items) := rfl

theorem run_popN (n : Nat) (s : Stack) : (popN n).run s = s.settle (s.popN n) := by
  rw [popN, EStateM.run_bind, EStateM.run_get]
  dsimp only
  by_cases h : s.depth < n
  · rw [if_pos h, Stack.popN_eq_error_iff.mpr ⟨h, rfl⟩]
    rfl
  · have hn : n ≤ s.cells.size := Nat.not_lt.mp h
    have hsize : (s.cells.extract (s.depth - n)).size = n := by
      rw [Array.size_extract_of_le (Nat.le_refl _)]
      exact Nat.sub_sub_self hn
    rw [if_neg h, EStateM.run_bind, cutAt, EStateM.run_modifyGet]
    dsimp only
    rw [EStateM.run_pure, overwrite_eq _ hsize, Stack.popN, dif_pos hn]
    rfl

theorem run_pop (s : Stack) : pop.run s = s.settle s.pop := by
  rw [pop, EStateM.run_bind, run_popN, Stack.pop]
  cases s.popN 1 <;> rfl

/-- The top that is put back completes the stack again. -/
theorem run_peek (s : Stack) : peek.run s = s.settle (s.peek.map (·, s)) := by
  rw [peek, EStateM.run_bind, run_pop, Stack.peek_eq_map_pop]
  cases hpop : s.pop with
  | error f => rfl
  | ok r =>
    have hs : s = r.2.push [r.1] := Stack.pop_eq_ok_iff.mp hpop
    exact congrArg (EStateM.Result.ok r.1) hs.symm

theorem run_popN_eq_ok_iff {v : Vector Cell n} :
    (popN n).run s = .ok v rest ↔ s.popN n = .ok (v, rest) := by
  rw [run_popN, Stack.settle_eq_ok_iff]

theorem run_popN_eq_error_iff :
    (popN n).run s = .error f rest ↔ s.depth < n ∧ f = .stackUnderflow ∧ rest = s := by
  rw [run_popN, Stack.settle_eq_error_iff, Stack.popN_eq_error_iff, and_assoc]

theorem run_peek_eq_ok_iff : peek.run s = .ok c rest ↔ s.top? = some c ∧ rest = s := by
  rw [run_peek, Stack.settle_eq_ok_iff, ← Stack.peek_eq_ok_iff]
  cases s.peek <;> simp [Except.map, eq_comm]

theorem run_peek_eq_error_iff :
    peek.run s = .error f rest ↔ s.depth = 0 ∧ f = .stackUnderflow ∧ rest = s := by
  rw [run_peek, Stack.settle_eq_error_iff, ← and_assoc, ← Stack.pop_eq_error_iff,
    Stack.peek_eq_map_pop]
  cases s.pop <;> simp [Except.map]

/-! ## Bulk pops -/

theorem exists_run_popN_eq_ok (h : n ≤ s.depth) :
    ∃ (v : Vector Cell n) (rest : Stack), (popN n).run s = .ok v rest := by
  obtain ⟨v, rest, hpop⟩ := Stack.exists_popN_eq_ok h
  exact ⟨v, rest, run_popN_eq_ok_iff.mpr hpop⟩

/-- To put the cells back that came off restores the stack. -/
theorem run_push_of_run_popN {v : Vector Cell n} (h : (popN n).run s = .ok v rest) :
    (push v.toList).run rest = .ok () s := by
  rw [run_push, ← Stack.popN_eq_ok_iff_push.mp (run_popN_eq_ok_iff.mp h)]

/-- To take the cells off that were put on restores the stack. -/
theorem run_push_popN (v : Vector Cell n) (s : Stack) :
    (do push v.toList; popN n).run s = .ok v s := by
  rw [EStateM.run_bind, run_push]
  exact run_popN_eq_ok_iff.mpr (s.popN_push v)

/-- Where there are enough cells for two pops there are enough for the second after the first, and
one pop does what both do. -/
theorem exists_run_popN_add (h : n + m ≤ s.depth) :
    ∃ (v : Vector Cell n) (w : Vector Cell m) (both : Vector Cell (n + m)) (mid rest : Stack),
      (popN n).run s = .ok v mid ∧ (popN m).run mid = .ok w rest ∧
        (popN (n + m)).run s = .ok both rest ∧ both.toList = w.toList ++ v.toList := by
  obtain ⟨v, mid, hv⟩ := Stack.exists_popN_eq_ok (Nat.le_of_add_right_le h)
  have hmid : m ≤ mid.depth := by
    rw [Stack.depth_of_popN hv] at h
    omega
  obtain ⟨w, rest, hw⟩ := Stack.exists_popN_eq_ok hmid
  refine ⟨v, w, _, mid, rest, run_popN_eq_ok_iff.mpr hv, run_popN_eq_ok_iff.mpr hw,
    run_popN_eq_ok_iff.mpr (Stack.popN_add hv hw), ?_⟩
  rw [Vector.toList_cast, Vector.toList_append]

/-- A look at the top shows the last of the cells that would come off. -/
theorem exists_run_peek_of_run_popN {v : Vector Cell n} (hn : 0 < n)
    (h : (popN n).run s = .ok v rest) :
    ∃ c, v.toList.getLast? = some c ∧ peek.run s = .ok c s := by
  obtain ⟨c, hlast, htop⟩ := Stack.exists_last_of_popN hn (run_popN_eq_ok_iff.mp h)
  exact ⟨c, hlast, run_peek_eq_ok_iff.mpr ⟨htop, rfl⟩⟩

/-- **Bulk pops compose and undo pushes.** In place the operations do what they do by value. To take
`n` cells off fails exactly when there are fewer, with an underflow, and then leaves the stack as it
is. Otherwise it succeeds, and to put the cells back restores the stack. The other way round, `n`
cells that are put on come off in the order of the push, which restores the stack as well. Where
there are `n + m` cells, to take them off at once leaves the same stack as to take off `n` and then
`m`, and answers with the second cells followed by the first.

A look at the top fails exactly on the empty stack. It never changes the stack, and it shows the
last of the cells that come off, where any do. -/
theorem bulk_pops_compose (s : Stack) (n m : Nat) :
    ((popN n).run s = s.settle (s.popN n) ∧ peek.run s = s.settle (s.peek.map (·, s)) ∧
        ∀ items, (push items).run s = .ok () (s.push items)) ∧
      (∀ (f : Fault) (left : Stack),
        (popN n).run s = .error f left ↔ s.depth < n ∧ f = .stackUnderflow ∧ left = s) ∧
      (n ≤ s.depth → ∃ (v : Vector Cell n) (rest : Stack),
        (popN n).run s = .ok v rest ∧ (push v.toList).run rest = .ok () s) ∧
      (∀ v : Vector Cell n, (do push v.toList; popN n).run s = .ok v s) ∧
      (n + m ≤ s.depth →
        ∃ (v : Vector Cell n) (w : Vector Cell m) (both : Vector Cell (n + m)) (mid rest : Stack),
          (popN n).run s = .ok v mid ∧ (popN m).run mid = .ok w rest ∧
            (popN (n + m)).run s = .ok both rest ∧ both.toList = w.toList ++ v.toList) ∧
      (∀ (f : Fault) (left : Stack),
        peek.run s = .error f left ↔ s.depth = 0 ∧ f = .stackUnderflow ∧ left = s) ∧
      (∀ (c : Cell) (left : Stack), peek.run s = .ok c left → left = s) ∧
      ∀ (v : Vector Cell n) (rest : Stack), 0 < n → (popN n).run s = .ok v rest →
        ∃ c, v.toList.getLast? = some c ∧ peek.run s = .ok c s := by
  refine ⟨⟨run_popN n s, run_peek s, fun items => run_push items s⟩,
    fun _ _ => run_popN_eq_error_iff, fun h => ?_, fun v => run_push_popN v s, exists_run_popN_add,
    fun _ _ => run_peek_eq_error_iff, fun _ _ h => (run_peek_eq_ok_iff.mp h).2,
    fun _ _ => exists_run_peek_of_run_popN⟩
  obtain ⟨v, rest, hpop⟩ := exists_run_popN_eq_ok h
  exact ⟨v, rest, hpop, run_push_of_run_popN hpop⟩

/-- Three cells come off in two rounds or at once, and a fourth does not. -/
theorem bulk_pops_compose_of_three_cells :
    let s : Stack := ⟨#[5, -1, 9]⟩
    (popN 4).run s = .error .stackUnderflow s ∧
      (popN 2).run s = .ok #v[-1, 9] ⟨#[5]⟩ ∧ (push [-1, 9]).run ⟨#[5]⟩ = .ok () s ∧
      (popN 1).run ⟨#[5]⟩ = .ok #v[5] .empty ∧ (popN 3).run s = .ok #v[5, -1, 9] .empty ∧
      peek.run s = .ok 9 s := by
  obtain ⟨-, hlow, -⟩ := bulk_pops_compose ⟨#[5, -1, 9]⟩ 4 0
  obtain ⟨-, -, hback, -, hboth, -, -, hpeek⟩ := bulk_pops_compose ⟨#[5, -1, 9]⟩ 2 1
  have htwo : (popN 2).run ⟨#[5, -1, 9]⟩ = .ok #v[-1, 9] ⟨#[5]⟩ := rfl
  have hone : (popN 1).run ⟨#[5]⟩ = .ok #v[5] .empty := rfl
  obtain ⟨v, rest, hpop, hpush⟩ := hback (by decide)
  obtain ⟨rfl, rfl⟩ := EStateM.Result.ok.inj (htwo.symm.trans hpop)
  obtain ⟨v, w, both, mid, rest, hv, hw, hthree, hjoin⟩ := hboth (by decide)
  obtain ⟨rfl, rfl⟩ := EStateM.Result.ok.inj (htwo.symm.trans hv)
  obtain ⟨rfl, rfl⟩ := EStateM.Result.ok.inj (hone.symm.trans hw)
  obtain rfl : both = #v[5, -1, 9] := Vector.toList_inj.mp hjoin
  obtain ⟨c, hlast, hlook⟩ := hpeek _ _ (by decide) htwo
  obtain rfl : 9 = c := Option.some.inj hlast
  exact ⟨(hlow _ _).mpr ⟨by decide, rfl, rfl⟩, htwo, hpush, hone, hthree, hlook⟩

end InPlace

end WordCalc
