import Mathlib
import WordCalc.Proofs.Dictionary.Reach

/-!
# Independent definitions

Two definitions are independent when they are of different names and the words of neither reach the
name of the other. What an attempt to record one of them comes to is then the same before and after
an attempt to record the other (`Independent.define_attempt`): the full expansions of its words do
not change, whether the other definition is accepted or rejected, and whether its name is new or
redefined.

So both can be attempted in either order (`independent_definitions_commute`). The dictionaries that
this leads to have the same definitions, in another order if both names are new.
-/

namespace WordCalc

namespace Dictionary

variable {d e : Dictionary} {x y : Definition} {a b w : Word} {words ws vs : List Word}

/-! ## The same definitions in another order -/

theorem WellFormed.mem_definitions_iff (h : d.WellFormed) :
    x ∈ d.definitions ↔ d.body? x.name = some x.body := by
  constructor
  · intro hx
    obtain ⟨i, hi⟩ := List.mem_iff_getElem?.mp hx
    exact h.body?_of_getElem? hi
  · intro hb
    obtain ⟨i, hi⟩ := exists_getElem?_of_body? hb
    exact List.mem_of_getElem? hi

/-- Dictionaries in which every word has the same meaning differ in the order of their definitions
at most. -/
theorem WellFormed.perm_of_body?_eq (hd : d.WellFormed) (he : e.WellFormed)
    (h : ∀ w, d.body? w = e.body? w) : d.definitions.Perm e.definitions := by
  rw [List.perm_ext_iff_of_nodup (.of_map _ hd.nodup) (.of_map _ he.nodup)]
  intro x
  rw [hd.mem_definitions_iff, he.mem_definitions_iff, h]

/-- Insertions of different names can be exchanged. -/
theorem body?_insert_comm (hne : x.name ≠ y.name) (w : Word) :
    ((d.insert x).insert y).body? w = ((d.insert y).insert x).body? w := by
  simp only [body?_insert]
  by_cases hx : w = x.name
  · have hy : w ≠ y.name := fun e => hne (hx.symm.trans e)
    rw [if_neg hy, if_pos hx, if_pos hx]
  · rw [if_neg hx, if_neg hx]

/-! ## Attempts to record -/

/-- What an attempt to record answers: nothing, or the fault for which it is rejected. -/
def verdict (d : Dictionary) (words : List Word) : Except Fault Unit :=
  (d.record words).map fun _ => ()

theorem verdict_congr (h : d.define words = e.define words) :
    d.verdict words = e.verdict words := by
  simp only [verdict, record, h]
  cases e.define words <;> rfl

theorem attempt_of_define_ok (h : d.define words = .ok x) : d.attempt words = d.insert x :=
  attempt_of_ok (record_of_define_ok h)

theorem attempt_of_define_error {f : Fault} (h : d.define words = .error f) :
    d.attempt words = d :=
  attempt_of_error (record_of_define_error h)

theorem name_of_define {rest : List Word} (h : d.define (a :: rest) = .ok x) : x.name = a := by
  obtain ⟨_, hwords, -⟩ := define_eq_ok_iff.mp h
  exact (List.cons.inj hwords).1.symm

/-! ## Independence -/

/-- The words `ws` for the body of `a` do not reach `b`, and the words `vs` for the body of `b` do
not reach `a`. -/
structure Independent (d : Dictionary) (a : Word) (ws : List Word) (b : Word) (vs : List Word) :
    Prop where
  ne : a ≠ b
  not_reaches_right : ∀ w ∈ ws, ¬ d.Reaches w b
  not_reaches_left : ∀ v ∈ vs, ¬ d.Reaches v a

theorem Independent.symm (h : d.Independent a ws b vs) : d.Independent b vs a ws :=
  ⟨h.ne.symm, h.not_reaches_left, h.not_reaches_right⟩

/-- **A definition does not notice an independent one**: it comes to the same body or to the same
fault. -/
theorem Independent.define_attempt (hd : d.Acyclic) (h : d.Independent a ws b vs) :
    (d.attempt (b :: (vs ++ [endMark]))).define (a :: (ws ++ [endMark])) =
      d.define (a :: (ws ++ [endMark])) := by
  cases hx : d.define (b :: (vs ++ [endMark])) with
  | error f => rw [attempt_of_define_error hx]
  | ok x =>
    rw [attempt_of_define_ok hx]
    refine (define_cons_congr hd (acyclic_insert_of_define hd hx) a fun w hw => ?_).symm
    rw [List.dropLast_concat] at hw
    refine agreeFrom_insert_of_not_reaches ?_
    rw [name_of_define hx]
    exact h.not_reaches_right w hw

/-- The order of two attempts does not matter to the meaning of any word. -/
theorem Independent.body?_attempt_comm (hd : d.Acyclic) (h : d.Independent a ws b vs) (w : Word) :
    ((d.attempt (a :: (ws ++ [endMark]))).attempt (b :: (vs ++ [endMark]))).body? w =
      ((d.attempt (b :: (vs ++ [endMark]))).attempt (a :: (ws ++ [endMark]))).body? w := by
  have hfirst := h.define_attempt hd
  have hsecond := h.symm.define_attempt hd
  cases hx : d.define (a :: (ws ++ [endMark])) with
  | error f =>
    rw [attempt_of_define_error (hfirst.trans hx), attempt_of_define_error hx]
  | ok x =>
    rw [attempt_of_define_ok (hfirst.trans hx), attempt_of_define_ok hx]
    rw [attempt_of_define_ok hx] at hsecond
    cases hy : d.define (b :: (vs ++ [endMark])) with
    | error f =>
      rw [attempt_of_define_error (hsecond.trans hy), attempt_of_define_error hy]
    | ok y =>
      rw [attempt_of_define_ok (hsecond.trans hy), attempt_of_define_ok hy]
      refine body?_insert_comm ?_ w
      rw [name_of_define hx, name_of_define hy]
      exact h.ne

/-- **Independent definitions commute.** In a recorded dictionary, let the words `ws` not reach `b`
and the words `vs` not reach `a`. Whichever of the two definitions is attempted first, each of them
gets the same answer, and the dictionaries at the end have the same definitions: they differ in the
order of these at most, and every word has the same body in both, or none in both. -/
theorem independent_definitions_commute (hd : d.Recorded) (h : d.Independent a ws b vs) :
    let first := a :: (ws ++ [endMark])
    let second := b :: (vs ++ [endMark])
    (d.attempt second).verdict first = d.verdict first ∧
      (d.attempt first).verdict second = d.verdict second ∧
      ((d.attempt first).attempt second).definitions.Perm
        ((d.attempt second).attempt first).definitions ∧
      ∀ w, ((d.attempt first).attempt second).body? w =
        ((d.attempt second).attempt first).body? w := by
  intro first second
  have hcomm := h.body?_attempt_comm hd.acyclic
  refine ⟨verdict_congr (h.define_attempt hd.acyclic),
    verdict_congr (h.symm.define_attempt hd.acyclic), ?_, hcomm⟩
  exact ((hd.attempt first).attempt second).wellFormed.perm_of_body?_eq
    ((hd.attempt second).attempt first).wellFormed hcomm

/-- `F` mentions `B`, which is not defined. A definition of `C` and one of `B` commute, and only the
order of the two names differs in the end; so do a new body for `A` that uses the old one and a
definition of `B` that is rejected because it leads to `B` through `F`. -/
theorem independent_definitions_commute_of_forward_reference :
    ∃ d : Dictionary, d.Recorded ∧ d.definitions = [⟨"F", ["B"]⟩, ⟨"A", ["1"]⟩] ∧
      d.Independent "C" ["A", "2"] "B" ["3"] ∧
      ((d.attempt ["C", "A", "2", ";"]).attempt ["B", "3", ";"]).definitions.Perm
        ((d.attempt ["B", "3", ";"]).attempt ["C", "A", "2", ";"]).definitions ∧
      ((d.attempt ["C", "A", "2", ";"]).attempt ["B", "3", ";"]).names = ["F", "A", "C", "B"] ∧
      ((d.attempt ["B", "3", ";"]).attempt ["C", "A", "2", ";"]).names = ["F", "A", "B", "C"] ∧
      d.Independent "A" ["A", "A", "2"] "B" ["1", "F"] ∧
      (d.attempt ["A", "A", "A", "2", ";"]).verdict ["B", "1", "F", ";"] =
        .error (.cyclicDefinition "B") ∧
      (d.attempt ["B", "1", "F", ";"]).verdict ["A", "A", "A", "2", ";"] = .ok () := by
  have hd : Recorded ⟨[⟨"F", ["B"]⟩, ⟨"A", ["1"]⟩]⟩ := by
    have hbuilt : ofAttempts [["F", "B", ";"], ["A", "1", ";"]] =
        ⟨[⟨"F", ["B"]⟩, ⟨"A", ["1"]⟩]⟩ := by cbv
    exact hbuilt ▸ recorded_ofAttempts _
  -- no word of the list leads out of it
  have hclosed : ∀ w ∈ ["A", "1", "2", "3"],
      ∀ body ∈ body? ⟨[⟨"F", ["B"]⟩, ⟨"A", ["1"]⟩]⟩ w, ∀ v ∈ body, v ∈ ["A", "1", "2", "3"] := by
    decide
  have hclosed' : ∀ w ∈ ["1", "F", "B"],
      ∀ body ∈ body? ⟨[⟨"F", ["B"]⟩, ⟨"A", ["1"]⟩]⟩ w, ∀ v ∈ body, v ∈ ["1", "F", "B"] := by
    decide
  have hnew : Independent ⟨[⟨"F", ["B"]⟩, ⟨"A", ["1"]⟩]⟩ "C" ["A", "2"] "B" ["3"] :=
    ⟨by decide, not_reaches_of_closed hclosed (by decide) (by decide),
      not_reaches_of_closed hclosed (by decide) (by decide)⟩
  have hold : Independent ⟨[⟨"F", ["B"]⟩, ⟨"A", ["1"]⟩]⟩ "A" ["A", "A", "2"] "B" ["1", "F"] :=
    ⟨by decide, not_reaches_of_closed hclosed (by decide) (by decide),
      not_reaches_of_closed hclosed' (by decide) (by decide)⟩
  obtain ⟨-, -, hperm, -⟩ := independent_definitions_commute hd hnew
  obtain ⟨hfirst, hsecond, -, -⟩ := independent_definitions_commute hd hold
  exact ⟨_, hd, rfl, hnew, hperm, by cbv, by cbv, hold, hsecond.trans (by cbv),
    hfirst.trans (by cbv)⟩

end Dictionary

end WordCalc
