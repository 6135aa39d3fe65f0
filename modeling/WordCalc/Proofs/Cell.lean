import Mathlib
import WordCalc.Stack

/-!
# Cells and integers

A cell holds an integer from `-2 ^ 63` to `2 ^ 63 - 1`, and there is a cell for each of these
(`exists_toInt_eq_iff`). An operation is *exact* when it gives the cell that holds its mathematical
result, and nothing if no cell does (`Exact`). The four operations are exact; for division the
result is the quotient rounded down (`floorDiv?_exact`).

Division works by the truncated quotient and the remainder, and takes one off the quotient where the
remainder is not zero and the signs differ. Where there is a quotient none of these steps fails
(`steps_of_div?`): the remainder exists, and a quotient that has to be corrected is not the least
cell, since a divisor that leaves a remainder is at least two in size.
-/

namespace WordCalc

namespace Cell

variable {c l r : Cell} {n : ℤ} {result : Option Cell}

/-- The integer lies in the range of a cell. -/
def Fits (n : ℤ) : Prop := -2 ^ 63 ≤ n ∧ n ≤ 2 ^ 63 - 1

instance (n : ℤ) : Decidable (Fits n) :=
  inferInstanceAs (Decidable (-2 ^ 63 ≤ n ∧ n ≤ 2 ^ 63 - 1))

theorem fits_toInt (c : Cell) : Fits c.toInt :=
  ⟨c.le_toInt, Int.le_sub_one_of_lt c.toInt_lt⟩

theorem toInt_ofInt_of_fits (h : Fits n) : (Int64.ofInt n).toInt = n :=
  Int64.toInt_ofInt_of_le h.1 (Int.lt_of_le_sub_one h.2)

/-- The integers that cells hold are those that fit. -/
theorem exists_toInt_eq_iff : (∃ c : Cell, c.toInt = n) ↔ Fits n := by
  constructor
  · rintro ⟨c, rfl⟩
    exact fits_toInt c
  · intro h
    exact ⟨Int64.ofInt n, toInt_ofInt_of_fits h⟩

/-! ## Exact results -/

/-- The result is the cell that holds `n`, or nothing if no cell does. -/
def Exact (result : Option Cell) (n : ℤ) : Prop :=
  ∀ c, result = some c ↔ c.toInt = n

theorem exact_some (h : c.toInt = n) : Exact (some c) n := by
  intro c'
  rw [Option.some.injEq, ← h, Int64.toInt_inj, eq_comm]

theorem exact_none (h : ¬ Fits n) : Exact none n := by
  intro c
  constructor
  · intro hc
    cases hc
  · rintro rfl
    exact absurd (fits_toInt c) h

theorem Exact.eq_none_iff (h : Exact result n) : result = none ↔ ¬ Fits n := by
  rw [Option.eq_none_iff_forall_ne_some, ← exists_toInt_eq_iff, not_exists]
  exact forall_congr' fun c => not_congr (h c)

/-- An operation is exact if it gives nothing only where the result does not fit. -/
theorem exact_ite {overflow : Prop} [Decidable overflow] (hover : overflow → ¬ Fits n)
    (hc : ¬ overflow → c.toInt = n) : Exact (if overflow then none else some c) n := by
  split
  · rename_i h
    exact exact_none (hover h)
  · rename_i h
    exact exact_some (hc h)

theorem ofInt?_exact (n : ℤ) : Exact (ofInt? n) n := by
  rw [ofInt?, ← ite_not]
  exact exact_ite id fun h => toInt_ofInt_of_fits (not_not.mp h)

theorem add?_exact (l r : Cell) : Exact (add? l r) (l.toInt + r.toInt) := by
  refine exact_ite (fun h => ?_) BitVec.toInt_add_of_not_saddOverflow
  simp [BitVec.saddOverflow] at h
  unfold Fits
  omega

theorem sub?_exact (l r : Cell) : Exact (sub? l r) (l.toInt - r.toInt) := by
  refine exact_ite (fun h => ?_) BitVec.toInt_sub_of_not_ssubOverflow
  simp [BitVec.ssubOverflow] at h
  unfold Fits
  omega

theorem mul?_exact (l r : Cell) : Exact (mul? l r) (l.toInt * r.toInt) := by
  refine exact_ite (fun h => ?_) BitVec.toInt_mul_of_not_smulOverflow
  simp [BitVec.smulOverflow] at h
  unfold Fits
  omega

theorem sub?_of_fits (h : Fits (l.toInt - r.toInt)) : sub? l r = some (l - r) := by
  have hsome : sub? l r ≠ none := fun e => (sub?_exact l r).eq_none_iff.mp e h
  unfold sub? at hsome ⊢
  split
  · rename_i hover
    rw [if_pos hover] at hsome
    exact absurd rfl hsome
  · rfl

/-! ## Division -/

theorem floorDiv?_of_noQuotient (h : NoQuotient l r) : floorDiv? l r = none := by
  rw [floorDiv?, div?, if_pos h]
  rfl

theorem floorDiv?_of_quotient (h : ¬ NoQuotient l r) :
    floorDiv? l r =
      some (if l % r ≠ 0 ∧ decide (l < 0) ≠ decide (r < 0) then l / r - 1 else l / r) := by
  rw [floorDiv?, div?, rem?, if_neg h, if_neg h]
  rfl

theorem toInt_div (h : ¬ NoQuotient l r) : (l / r).toInt = l.toInt.tdiv r.toInt := by
  rw [NoQuotient, not_or, not_and_or] at h
  rcases h.2 with hl | hr
  · exact Int64.toInt_div_of_ne_left l r hl
  · exact Int64.toInt_div_of_ne_right l r hr

theorem mod_eq_zero_iff : l % r = 0 ↔ l.toInt.tmod r.toInt = 0 := by
  rw [← Int64.toInt_mod, ← Int64.toInt_inj, Int64.toInt_zero]

theorem toInt_eq_zero_iff : r.toInt = 0 ↔ r = 0 := by
  rw [← Int64.toInt_inj, Int64.toInt_zero]

/-- Rounding down takes one off the truncated quotient where there is a remainder and the signs
differ. -/
theorem fdiv_eq_tdiv_sub {a b : ℤ} (hb : b ≠ 0) :
    a.fdiv b = a.tdiv b - if a.tmod b ≠ 0 ∧ decide (a < 0) ≠ decide (b < 0) then 1 else 0 := by
  rw [Int.fdiv_eq_tdiv]
  simp only [Int.dvd_iff_tmod_eq_zero]
  by_cases hm : a.tmod b = 0
  · simp [hm]
  · rcases lt_or_gt_of_ne hb with hneg | hpos
    · have hsign : b.sign = -1 := Int.sign_eq_neg_one_of_neg hneg
      grind
    · have hsign : b.sign = 1 := Int.sign_eq_one_of_pos hpos
      grind

/-- Where a remainder is left, the divisor is at least two in size and so halves what it divides. -/
theorem two_mul_natAbs_tdiv_le {a b : ℤ} (hb : b ≠ 0) (hm : a.tmod b ≠ 0) :
    2 * (a.tdiv b).natAbs ≤ a.natAbs := by
  have hone : b.natAbs ≠ 1 := by
    intro h
    rcases Int.natAbs_eq_iff.mp h with rfl | rfl <;> simp at hm
  have htwo : 2 ≤ b.natAbs := by omega
  calc 2 * (a.tdiv b).natAbs
      = 2 * (a.natAbs / b.natAbs) := by rw [Int.natAbs_tdiv]; rfl
    _ ≤ b.natAbs * (a.natAbs / b.natAbs) := Nat.mul_le_mul_right _ htwo
    _ ≤ a.natAbs := Nat.mul_div_le _ _

/-- A quotient that leaves a remainder is not the least cell: one can be taken off. -/
theorem fits_div_sub_one (h : ¬ NoQuotient l r) (hm : l % r ≠ 0) :
    Fits ((l / r).toInt - Int64.toInt 1) := by
  have hr : r.toInt ≠ 0 := fun e => h (.inl (toInt_eq_zero_iff.mp e))
  have hhalf := two_mul_natAbs_tdiv_le hr fun e => hm (mod_eq_zero_iff.mpr e)
  have hl := fits_toInt l
  rw [toInt_div h, Int64.toInt_one]
  unfold Fits at hl ⊢
  omega

/-- **No step of a division fails** once there is a truncated quotient. The divisor is not zero, the
remainder exists, and where it is not zero one can be taken off the quotient. -/
theorem steps_of_div? {q : Cell} (h : div? l r = some q) :
    r ≠ 0 ∧ q.toInt = l.toInt.tdiv r.toInt ∧
      ∃ m, rem? l r = some m ∧ m.toInt = l.toInt.tmod r.toInt ∧
        (m ≠ 0 → sub? q 1 = some (q - 1)) ∧
        floorDiv? l r = some (if m ≠ 0 ∧ decide (l < 0) ≠ decide (r < 0) then q - 1 else q) := by
  unfold div? at h
  split at h
  · cases h
  · rename_i hq
    cases h
    exact ⟨fun hr => hq (.inl hr), toInt_div hq, l % r, if_neg hq, Int64.toInt_mod l r,
      fun hm => sub?_of_fits (fits_div_sub_one hq hm), floorDiv?_of_quotient hq⟩

/-- **Division rounds down.** -/
theorem floorDiv?_exact (hr : r ≠ 0) : Exact (floorDiv? l r) (l.toInt.fdiv r.toInt) := by
  by_cases hq : NoQuotient l r
  · rw [floorDiv?_of_noQuotient hq]
    obtain rfl | ⟨rfl, rfl⟩ := hq
    · exact absurd rfl hr
    · exact exact_none (by decide +kernel)
  · have hr' : r.toInt ≠ 0 := fun e => hr (toInt_eq_zero_iff.mp e)
    have hcorrect : l % r ≠ 0 ∧ decide (l < 0) ≠ decide (r < 0) ↔
        l.toInt.tmod r.toInt ≠ 0 ∧ decide (l.toInt < 0) ≠ decide (r.toInt < 0) := by
      simp only [ne_eq, mod_eq_zero_iff, Int64.lt_iff_toInt_lt, Int64.toInt_zero]
    rw [floorDiv?_of_quotient hq, fdiv_eq_tdiv_sub hr', ← toInt_div hq]
    refine exact_some ?_
    by_cases h : l % r ≠ 0 ∧ decide (l < 0) ≠ decide (r < 0)
    · have hsub := ((sub?_exact _ _) _).mp (sub?_of_fits (fits_div_sub_one hq h.1))
      rw [if_pos h, if_pos (hcorrect.mp h), hsub, Int64.toInt_one]
    · rw [if_neg h, if_neg (hcorrect.not.mp h), sub_zero]

end Cell

end WordCalc
