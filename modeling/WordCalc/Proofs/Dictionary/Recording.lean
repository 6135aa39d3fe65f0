import Mathlib
import WordCalc.Proofs.Dictionary.Flattening
import WordCalc.Proofs.Dictionary.Order

/-!
# The outcomes of recording

Recording has five outcomes, and the first condition that holds decides which one it is: no name, a
numeral as the name, no end mark at the end, a body that would contain the name, or a dictionary
with the definition in it. `Answers` has a rule for each, stated with the full expansion instead of
the expander, and recording follows the rules (`answers_iff`).

In an acyclic dictionary the expansion itself never fails, so a cycle is only found by looking for
the name in the body. No word of a full expansion is defined, so the name is then a new one, and a
definition of a known name never makes a cycle (`record_outcome`).
-/

namespace WordCalc

namespace Dictionary

/-- `d.Answers h words r`: recording the definition that `words` enter has the outcome `r`. -/
inductive Answers (d : Dictionary) (h : d.Acyclic) : List Word → Except Fault Dictionary → Prop
  | missingName : Answers d h [] (.error .missingName)
  | illegalName {name : Word} {rest : List Word} (hnum : isNumeral name = true) :
      Answers d h (name :: rest) (.error (.illegalName name))
  | unterminated {name : Word} {rest : List Word} (hnum : isNumeral name = false)
      (hend : rest.getLast? ≠ some endMark) :
      Answers d h (name :: rest) (.error (.unterminated name))
  /-- The body would contain the name. -/
  | cyclic {name : Word} {ws : List Word} (hnum : isNumeral name = false)
      (hmem : name ∈ d.flat h ws) :
      Answers d h (name :: (ws ++ [endMark])) (.error (.cyclicDefinition name))
  /-- The definition is recorded with its full expansion. -/
  | recorded {name : Word} {ws : List Word} (hnum : isNumeral name = false)
      (hmem : name ∉ d.flat h ws) :
      Answers d h (name :: (ws ++ [endMark])) (.ok (d.insert ⟨name, d.flat h ws⟩))

variable {d : Dictionary} {h : d.Acyclic} {words ws : List Word} {name : Word}
  {r : Except Fault Dictionary}

/-! ## Recording follows the rules -/

theorem Answers.record_eq (hr : d.Answers h words r) : d.record words = r := by
  cases hr with
  | missingName => rfl
  | illegalName hnum => simp [record, define, hnum]
  | unterminated hnum hend => simp [record, define, hnum, hend]
  | cyclic hnum hmem | recorded hnum hmem => simp [record, define, hnum, expand_eq_flat h, hmem]

/-- There is a rule for any words. -/
theorem exists_answers (h : d.Acyclic) (words : List Word) : ∃ r, d.Answers h words r := by
  cases words with
  | nil => exact ⟨_, .missingName⟩
  | cons name rest =>
    cases hnum : isNumeral name with
    | true => exact ⟨_, .illegalName hnum⟩
    | false =>
      by_cases hend : rest.getLast? = some endMark
      · obtain ⟨ws, rfl⟩ := List.getLast?_eq_some_iff.mp hend
        by_cases hmem : name ∈ d.flat h ws
        · exact ⟨_, .cyclic hnum hmem⟩
        · exact ⟨_, .recorded hnum hmem⟩
      · exact ⟨_, .unterminated hnum hend⟩

/-- **Recording follows the rules**, which have one outcome for any words. -/
theorem answers_iff (h : d.Acyclic) : d.Answers h words r ↔ d.record words = r := by
  refine ⟨Answers.record_eq, fun hr => ?_⟩
  obtain ⟨r', hr'⟩ := exists_answers h words
  rw [← hr, hr'.record_eq]
  exact hr'

/-! ## When each outcome arises -/

section Outcomes

variable {e : Dictionary}

theorem record_eq_missingName_iff (h : d.Acyclic) :
    d.record words = .error .missingName ↔ words = [] := by
  rw [← answers_iff h]
  constructor
  · intro hr
    cases hr
    rfl
  · rintro rfl
    exact .missingName

theorem record_eq_illegalName_iff (h : d.Acyclic) :
    d.record words = .error (.illegalName name) ↔
      ∃ rest, words = name :: rest ∧ isNumeral name = true := by
  rw [← answers_iff h]
  constructor
  · intro hr
    cases hr with
    | illegalName hnum => exact ⟨_, rfl, hnum⟩
  · rintro ⟨rest, rfl, hnum⟩
    exact .illegalName hnum

/-- Words without an end mark at the end are no words at all, or end with another one. -/
theorem getLast?_ne_endMark_iff {rest : List Word} :
    rest.getLast? ≠ some endMark ↔ rest = [] ∨ ∃ ws w, rest = ws ++ [w] ∧ w ≠ endMark := by
  rcases List.eq_nil_or_concat' rest with rfl | ⟨ws, w, rfl⟩
  · simp
  · simp

theorem record_eq_unterminated_iff (h : d.Acyclic) :
    d.record words = .error (.unterminated name) ↔
      ∃ rest, words = name :: rest ∧ isNumeral name = false ∧
        (rest = [] ∨ ∃ ws w, rest = ws ++ [w] ∧ w ≠ endMark) := by
  rw [← answers_iff h]
  constructor
  · intro hr
    cases hr with
    | unterminated hnum hend => exact ⟨_, rfl, hnum, getLast?_ne_endMark_iff.mp hend⟩
  · rintro ⟨rest, rfl, hnum, hend⟩
    exact .unterminated hnum (getLast?_ne_endMark_iff.mpr hend)

/-- A name that the full expansion contains is a new one. -/
theorem record_eq_cyclicDefinition_iff (h : d.Acyclic) :
    d.record words = .error (.cyclicDefinition name) ↔
      ∃ ws, words = name :: (ws ++ [endMark]) ∧ isNumeral name = false ∧ name ∉ d.names ∧
        name ∈ d.flat h ws := by
  rw [← answers_iff h]
  constructor
  · intro hr
    cases hr with
    | cyclic hnum hmem =>
      exact ⟨_, rfl, hnum, not_mem_names_of_mem_flat h hmem, hmem⟩
  · rintro ⟨ws, rfl, hnum, -, hmem⟩
    exact .cyclic hnum hmem

/-- A name that is defined already is accepted whatever its new body. -/
theorem record_eq_ok_iff_flat (h : d.Acyclic) :
    d.record words = .ok e ↔
      ∃ name ws, words = name :: (ws ++ [endMark]) ∧ isNumeral name = false ∧
        (name ∈ d.names ∨ name ∉ d.flat h ws) ∧ e = d.insert ⟨name, d.flat h ws⟩ := by
  rw [← answers_iff h]
  constructor
  · intro hr
    cases hr with
    | recorded hnum hmem => exact ⟨_, _, rfl, hnum, .inr hmem, rfl⟩
  · rintro ⟨name, ws, rfl, hnum, hcycle, rfl⟩
    refine .recorded hnum fun hmem => ?_
    rcases hcycle with hname | hnot
    · exact not_mem_names_of_mem_flat h hmem hname
    · exact hnot hmem

end Outcomes

/-! ## What a recorded definition changes -/

/-- The new name stands for its full expansion, in which no word is defined, and nothing else is
different. -/
theorem insert_flat (h : d.Acyclic) (hmem : name ∉ d.flat h ws) :
    (d.insert ⟨name, d.flat h ws⟩).body? name = some (d.flat h ws) ∧
      (∀ v ∈ d.flat h ws, v ∉ (d.insert ⟨name, d.flat h ws⟩).names) ∧
      (∀ w, w ≠ name → (d.insert ⟨name, d.flat h ws⟩).body? w = d.body? w) := by
  refine ⟨by simp [body?_insert], fun v hv => ?_, fun w hw => by simp [body?_insert, hw]⟩
  have hne : v ≠ name := fun e => hmem (e ▸ hv)
  rw [not_mem_names_iff]
  simp [body?_insert, hne, not_defined_of_mem_flat h hv]

/-- **The outcomes of recording**, in a recorded dictionary and for any words. Without a word the
name is missing. A name that is a numeral is illegal. Any other name is followed by an end mark in
the last place, or else the definition is unterminated. It makes a cycle exactly when the name is
new and occurs in the full expansion of the words between. Otherwise it is recorded.

In place recording has the same outcomes. There a definition that is rejected leaves the dictionary
as it is. One that is recorded gives its name the full expansion under the old dictionary, none of
whose words is defined in the new one; it overwrites the name in its place or puts it at the end,
and changes nothing else. -/
theorem record_outcome (hd : d.Recorded) (words : List Word) :
    ((∀ e, (recordInPlace words).run d = .ok () e ↔ d.record words = .ok e) ∧
        ∀ f left, (recordInPlace words).run d = .error f left ↔
          d.record words = .error f ∧ left = d) ∧
      (d.record words = .error .missingName ↔ words = []) ∧
      (∀ name, d.record words = .error (.illegalName name) ↔
        ∃ rest, words = name :: rest ∧ isNumeral name = true) ∧
      (∀ name, d.record words = .error (.unterminated name) ↔
        ∃ rest, words = name :: rest ∧ isNumeral name = false ∧
          (rest = [] ∨ ∃ ws w, rest = ws ++ [w] ∧ w ≠ endMark)) ∧
      (∀ name, d.record words = .error (.cyclicDefinition name) ↔
        ∃ ws, words = name :: (ws ++ [endMark]) ∧ isNumeral name = false ∧ name ∉ d.names ∧
          name ∈ d.flat hd.acyclic ws) ∧
      (∀ e, d.record words = .ok e ↔
        ∃ name ws, words = name :: (ws ++ [endMark]) ∧ isNumeral name = false ∧
          (name ∈ d.names ∨ name ∉ d.flat hd.acyclic ws) ∧
          e = d.insert ⟨name, d.flat hd.acyclic ws⟩) ∧
      (∀ f, d.record words = .error f → d.attempt words = d) ∧
      ∀ e, d.record words = .ok e →
        ∃ name ws, words = name :: (ws ++ [endMark]) ∧
          e.body? name = some (d.flat hd.acyclic ws) ∧
          (∀ v ∈ d.flat hd.acyclic ws, v ∉ e.names) ∧
          (∀ w, w ≠ name → e.body? w = d.body? w) ∧
          d.Insertion ⟨name, d.flat hd.acyclic ws⟩ e := by
  have h := hd.acyclic
  refine ⟨⟨fun _ => run_recordInPlace_eq_ok_iff, fun _ _ => run_recordInPlace_eq_error_iff⟩,
    record_eq_missingName_iff h, fun _ => record_eq_illegalName_iff h,
    fun _ => record_eq_unterminated_iff h, fun _ => record_eq_cyclicDefinition_iff h,
    fun _ => record_eq_ok_iff_flat h, fun _ => attempt_of_error, ?_⟩
  intro e he
  have hanswers := (answers_iff h).mpr he
  cases hanswers with
  | @recorded name ws hnum hmem =>
    obtain ⟨hself, hfinal, hothers⟩ := insert_flat h hmem
    exact ⟨name, ws, rfl, hself, hfinal, hothers, insertion_insert d _⟩

/-- `B` would contain itself through `A`, which is defined before it. A new body of `A` may use the
name, which stands for its old body there. -/
theorem record_outcome_of_forward_reference :
    (ofAttempts [["A", "B", ";"]]).Recorded ∧
      (ofAttempts [["A", "B", ";"]]).record ["B", "1", "A", ";"] =
        .error (.cyclicDefinition "B") ∧
      (recordInPlace ["B", "1", "A", ";"]).run (ofAttempts [["A", "B", ";"]]) =
        .error (.cyclicDefinition "B") (ofAttempts [["A", "B", ";"]]) ∧
      ∃ e, (ofAttempts [["A", "B", ";"]]).record ["A", "A", "A", "2", ";"] = .ok e ∧
        e.body? "A" = some ["B", "B", "2"] ∧ "B" ∉ e.names := by
  have hd := recorded_ofAttempts [["A", "B", ";"]]
  have hflat {ws res : List Word}
      (hexpand : (ofAttempts [["A", "B", ";"]]).expand ws = .ok res) :
      (ofAttempts [["A", "B", ";"]]).flat hd.acyclic ws = res :=
    Except.ok.inj ((expand_eq_flat hd.acyclic ws).symm.trans hexpand)
  have hcycle : (ofAttempts [["A", "B", ";"]]).flat hd.acyclic ["1", "A"] = ["1", "B"] :=
    hflat (by cbv)
  have hself : (ofAttempts [["A", "B", ";"]]).flat hd.acyclic ["A", "A", "2"] = ["B", "B", "2"] :=
    hflat (by cbv)
  have hnew : "B" ∉ (ofAttempts [["A", "B", ";"]]).names := not_mem_names_iff.mpr (by cbv)
  have hredefined : (ofAttempts [["A", "B", ";"]]).record ["A", "A", "A", "2", ";"] =
      .ok ⟨[⟨"A", ["B", "B", "2"]⟩]⟩ := by cbv
  obtain ⟨⟨-, hrejected⟩, -, -, -, hcyclic, -, -, -⟩ := record_outcome hd ["B", "1", "A", ";"]
  obtain ⟨-, -, -, -, -, -, -, hchange⟩ := record_outcome hd ["A", "A", "A", "2", ";"]
  obtain ⟨name, ws, hwords, hbody, hfinal, -, -⟩ := hchange _ hredefined
  obtain ⟨rfl, hws⟩ := List.cons.inj hwords
  obtain rfl : ws = ["A", "A", "2"] := (List.append_inj_left' hws rfl).symm
  rw [hself] at hbody hfinal
  have hrecord := (hcyclic "B").mpr
    ⟨["1", "A"], rfl, by decide +kernel, hnew, by rw [hcycle]; decide⟩
  exact ⟨hd, hrecord, (hrejected _ _).mpr ⟨hrecord, rfl⟩, _, hredefined, hbody,
    hfinal "B" (by decide)⟩

end Dictionary

end WordCalc
