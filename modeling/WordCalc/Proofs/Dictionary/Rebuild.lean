import WordCalc.Proofs.Dictionary.Flattening
import WordCalc.Proofs.Dictionary.Order

/-!
# Rebuilding a dictionary

A well-formed dictionary is rebuilt by entering its definitions in their order
(`WellFormed.define_next`). When a definition is entered again, the names before it are defined,
and none of them is in the body, since a body looks ahead; so its expansion is the body itself. The
name is new and goes to the end, where it stood.

What is entered again has to be read again first, which is a condition on the words of the
dictionary. `AllWords` carries a condition from the words of definitions to the words of the
dictionary that they build.
-/

namespace WordCalc

/-- The name satisfies `P`, and so does every word of the body. -/
structure Definition.AllWords (P : Word → Prop) (x : Definition) : Prop where
  name : P x.name
  body : ∀ w ∈ x.body, P w

namespace Dictionary

/-- Every name and every word of a body satisfies `P`. -/
def AllWords (P : Word → Prop) (d : Dictionary) : Prop :=
  ∀ x ∈ d.definitions, x.AllWords P

variable {P : Word → Prop} {d : Dictionary} {x : Definition}

/-! ## Conditions on the words -/

theorem allWords_empty (P : Word → Prop) : empty.AllWords P :=
  fun _ hx => absurd hx List.not_mem_nil

theorem AllWords.insert (hd : d.AllWords P) (hx : x.AllWords P) : (d.insert x).AllWords P := by
  intro y hy
  cases insertion_insert d x with
  | overwrite i z hi hz he =>
    rcases List.mem_or_eq_of_mem_set (he ▸ hy) with hy | rfl
    · exact hd y hy
    · exact hx
  | append hn he =>
    rw [he, List.mem_append, List.mem_singleton] at hy
    rcases hy with hy | rfl
    · exact hd y hy
    · exact hx

theorem AllWords.of_body? (hd : d.AllWords P) {w : Word} {body : List Word}
    (h : d.body? w = some body) : ∀ v ∈ body, P v := by
  obtain ⟨i, hi⟩ := exists_getElem?_of_body? h
  exact (hd _ (List.mem_of_getElem? hi)).body

theorem AllWords.inherits (hd : d.AllWords P) : d.Inherits P :=
  fun _ _ hb _ => hd.of_body? hb

theorem AllWords.define (hd : d.AllWords P) (h : d.Acyclic) {words : List Word}
    (hwords : ∀ w ∈ words, P w) (hx : d.define words = .ok x) : x.AllWords P := by
  obtain ⟨ws, rfl, -, hexpand, -⟩ := define_eq_ok_iff.mp hx
  rw [List.forall_mem_cons, List.forall_mem_append] at hwords
  rw [expand_eq_flat h] at hexpand
  exact ⟨hwords.1, Except.ok.inj hexpand ▸ hd.inherits.flat h hwords.2.1⟩

/-! ## Entering the definitions again -/

/-- **The next definition is accepted as it stands**, in a dictionary `e` that holds the
definitions before it, and goes to the end. -/
theorem WellFormed.define_next (h : d.WellFormed) {e : Dictionary} (he : e.Acyclic)
    {y : Definition} {ys : List Definition} (hd : d.definitions = e.definitions ++ y :: ys) :
    e.define (y.name :: (y.body ++ [endMark])) = .ok y ∧
      (e.insert y).definitions = e.definitions ++ [y] := by
  have hy : d.definitions[e.definitions.length]? = some y := by
    rw [hd, List.getElem?_append_right (Nat.le_refl _), Nat.sub_self]
    rfl
  have hbody : ∀ w ∈ y.body, e.body? w = none := by
    intro w hw
    cases hb : e.body? w with
    | none => rfl
    | some body =>
      -- a name before `y` would stand behind it
      obtain ⟨j, hj⟩ := exists_getElem?_of_body? hb
      have hlt := (List.getElem?_eq_some_iff.mp hj).1
      have hj' : d.definitions[j]? = some ⟨w, body⟩ := by
        rwa [hd, List.getElem?_append_left hlt]
      have := h.looks_ahead _ j y _ hy hj' hw
      omega
  have hself : y.name ∉ y.body := fun hmem =>
    Nat.lt_irrefl _ (h.looks_ahead _ _ y y hy hy hmem)
  have hexpand : e.expand y.body = .ok y.body := by
    rw [expand_eq_flat he, flat_of_not_defined he hbody]
  have hnew : y.name ∉ e.names := by
    have hnodup := h.nodup
    rw [names, hd, List.map_append, List.map_cons, List.nodup_append] at hnodup
    exact fun hmem => hnodup.2.2 _ hmem _ List.mem_cons_self rfl
  exact ⟨define_eq_ok_iff.mpr
      ⟨y.body, rfl, h.not_numeral _ (mem_names_of_getElem? hy), hexpand, hself⟩,
    definitions_insert_of_new hnew⟩

end Dictionary

end WordCalc
