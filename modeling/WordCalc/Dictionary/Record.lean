import WordCalc.Dictionary.Expansion

/-!
# Recording a definition

A definition is entered as its name, the words it stands for, and an end mark. The words are
expanded before they are recorded, so a later change of a word that was defined already does not
reach back into the definition, and a definition may use the old meaning of its own name. A word
that is not yet defined stays in the body and gets its meaning when it is called.

Recording is written by value and in place. By value (`define`, `record`) a definition that is
rejected has a fault for its answer and nothing else. In place (`recordInPlace`) there is one
dictionary, which is still there after a fault, and `attempt` is what it holds then. Both ways come
to the same (`run_recordInPlace`).
-/

namespace WordCalc

namespace Dictionary

/-- The word that closes a definition. -/
def endMark : Word := ";"

/-- The definition that `words` enter: a name that is no numeral, the words it stands for, and
the end mark. The expanded body must not contain the name, which can only happen for a new name,
since a known one has been replaced by its old body. -/
def define (d : Dictionary) : List Word → Except Fault Definition
  | [] => .error .missingName
  | name :: rest =>
    if isNumeral name then .error (.illegalName name)
    else if rest.getLast? ≠ some endMark then .error (.unterminated name)
    else
      match d.expand rest.dropLast with
      | .error f => .error f
      | .ok body =>
        if name ∈ body then .error (.cyclicDefinition name) else .ok ⟨name, body⟩

/-- Records the definition that `words` enter. -/
def record (d : Dictionary) (words : List Word) : Except Fault Dictionary :=
  match d.define words with
  | .ok x => .ok (d.insert x)
  | .error f => .error f

variable {d e : Dictionary} {words : List Word} {x : Definition} {f : Fault}

theorem record_of_define_ok (h : d.define words = .ok x) : d.record words = .ok (d.insert x) := by
  rw [record, h]

theorem record_of_define_error (h : d.define words = .error f) : d.record words = .error f := by
  rw [record, h]

/-- The body of an accepted definition has neither a defined word in it nor the new name. -/
theorem body_of_define (h : d.define words = .ok x) :
    ∀ v ∈ x.body, d.body? v = none ∧ v ≠ x.name := by
  unfold define at h
  split at h
  · cases h
  · split at h
    · cases h
    · split at h
      · cases h
      · split at h
        · cases h
        · rename_i body hb
          split at h
          · cases h
          · rename_i hn
            cases h
            refine fun v hv => ⟨not_defined_of_expand hb v hv, ?_⟩
            rintro rfl
            exact hn hv

/-! ## In place -/

/-- Records the definition that `words` enter in the dictionary itself. The checks come one after
another, and the insertion is the last step. -/
def recordInPlace : List Word → EStateM Fault Dictionary Unit
  | [] => throw .missingName
  | name :: rest => do
    if isNumeral name then throw (.illegalName name)
    if rest.getLast? ≠ some endMark then throw (.unterminated name)
    let d ← get
    let body ← ofExcept (d.expand rest.dropLast)
    if name ∈ body then throw (.cyclicDefinition name)
    modify (·.insert ⟨name, body⟩)

/-- The dictionary that an attempt to record leaves behind, whether it succeeds or fails. -/
def attempt (d : Dictionary) (words : List Word) : Dictionary :=
  match (recordInPlace words).run d with
  | .ok () e => e
  | .error _ e => e

/-- **In place and by value recording is the same.** It succeeds with the same dictionary, or it has
the same fault and has not touched the dictionary by then. -/
theorem run_recordInPlace (d : Dictionary) (words : List Word) :
    (recordInPlace words).run d =
      match d.record words with
      | .ok e => .ok () e
      | .error f => .error f d := by
  cases words with
  | nil => rfl
  | cons name rest =>
    rw [recordInPlace, record, define]
    by_cases hnum : isNumeral name
    · rw [if_pos hnum, if_pos hnum]
      rfl
    rw [if_neg hnum, if_neg hnum]
    by_cases hend : rest.getLast? ≠ some endMark
    · rw [if_pos hend, if_pos hend]
      rfl
    rw [if_neg hend, if_neg hend, EStateM.run_bind, EStateM.run_get]
    dsimp only
    cases d.expand rest.dropLast with
    | error f => rfl
    | ok body =>
      rw [EStateM.run_bind, ofExcept, EStateM.run_pure]
      dsimp only
      by_cases hmem : name ∈ body
      · rw [if_pos hmem, if_pos hmem]
        rfl
      · rw [if_neg hmem, if_neg hmem]
        rfl

theorem run_recordInPlace_eq_ok_iff :
    (recordInPlace words).run d = .ok () e ↔ d.record words = .ok e := by
  rw [run_recordInPlace]
  cases d.record words <;> simp

theorem run_recordInPlace_eq_error_iff :
    (recordInPlace words).run d = .error f e ↔ d.record words = .error f ∧ e = d := by
  rw [run_recordInPlace]
  cases d.record words <;> simp [eq_comm]

theorem attempt_of_ok (h : d.record words = .ok e) : d.attempt words = e := by
  rw [attempt, run_recordInPlace_eq_ok_iff.mpr h]

/-- A definition that is rejected leaves the dictionary as it is. -/
theorem attempt_of_error (h : d.record words = .error f) : d.attempt words = d := by
  rw [attempt, run_recordInPlace_eq_error_iff.mpr ⟨h, rfl⟩]

end Dictionary

end WordCalc
