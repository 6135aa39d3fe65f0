import Mathlib.Logic.Relation
import WordCalc.Dictionary.Acyclic
import WordCalc.Proofs.Dictionary.Insertion

/-!
# The order of a dictionary

The definitions of a recorded dictionary stand in the order in which their names came up, and a
redefinition keeps the place of its name. A body is expanded when it is recorded, so at that
moment it mentions undefined words only; a word of it that is defined later gets a later place.
This is the invariant `WellFormed`: the names are distinct, none of them is a numeral, and every
body looks ahead, that is, a name it mentions stands at a later position than the body.

`WellFormed.insert` says that an insertion keeps the invariant, `Recorded.wellFormed` that every
recorded dictionary has it, and `bodies_look_ahead` puts together what follows from it for a
sequence of attempts.
-/

namespace WordCalc

namespace Dictionary

/-- No numeral is defined. -/
def NoNumerals (d : Dictionary) : Prop :=
  ∀ n ∈ d.names, isNumeral n = false

/-- The names are distinct and no numerals, and a name that a body mentions stands behind it. -/
structure WellFormed (d : Dictionary) : Prop where
  nodup : d.names.Nodup
  not_numeral : ∀ n ∈ d.names, isNumeral n = false
  looks_ahead : ∀ (i j : Nat) (x y : Definition), d.definitions[i]? = some x →
    d.definitions[j]? = some y → y.name ∈ x.body → i < j

variable {d : Dictionary} {x : Definition}

theorem WellFormed.noNumerals (h : d.WellFormed) : d.NoNumerals := h.not_numeral

theorem mem_names_of_getElem? {i : Nat} {y : Definition} (h : d.definitions[i]? = some y) :
    y.name ∈ d.names :=
  List.mem_map_of_mem (List.mem_of_getElem? h)

theorem wellFormed_empty : empty.WellFormed :=
  ⟨by simp [names, empty], by simp [names, empty], by simp [empty]⟩

/-! ## Insertions keep the order -/

/-- Overwriting a body by one that mentions no name keeps the order. -/
theorem WellFormed.looks_ahead_set (h : d.WellFormed) {k : Nat} {z : Definition}
    (hk : d.definitions[k]? = some z) (hz : z.name = x.name) (hx : ∀ v ∈ x.body, v ∉ d.names) :
    ∀ (i j : Nat) (y y' : Definition), (d.definitions.set k x)[i]? = some y →
      (d.definitions.set k x)[j]? = some y' → y'.name ∈ y.body → i < j := by
  intro i j y y' hi hj hmem
  -- the name at position `j` is the one that stood there before
  obtain ⟨w, hw, hwn⟩ : ∃ w, d.definitions[j]? = some w ∧ w.name = y'.name := by
    rw [List.getElem?_set] at hj
    split_ifs at hj with hkj hlt
    · obtain rfl := Option.some.inj hj
      exact ⟨z, hkj ▸ hk, hz⟩
    · exact ⟨y', hj, rfl⟩
  have hname : y'.name ∈ d.names := hwn ▸ mem_names_of_getElem? hw
  rw [List.getElem?_set] at hi
  split_ifs at hi with hki hlt
  · cases hi
    exact absurd hname (hx _ hmem)
  · exact h.looks_ahead i j y w hi hw (hwn ▸ hmem)

/-- Appending a body that mentions no name and not its own keeps the order. -/
theorem WellFormed.looks_ahead_concat (h : d.WellFormed)
    (hx : ∀ v ∈ x.body, v ∉ d.names ∧ v ≠ x.name) :
    ∀ (i j : Nat) (y y' : Definition), (d.definitions ++ [x])[i]? = some y →
      (d.definitions ++ [x])[j]? = some y' → y'.name ∈ y.body → i < j := by
  intro i j y y' hi hj hmem
  have hlast : ∀ (k : Nat) (w : Definition), (d.definitions ++ [x])[k]? = some w →
      d.definitions[k]? = some w ∨ k = d.definitions.length ∧ w = x := by
    intro k w hk
    rw [List.getElem?_append] at hk
    split_ifs at hk with hlt
    · exact .inl hk
    · have hk0 : k - d.definitions.length = 0 ∧ w = x := by
        simpa [List.getElem?_singleton, eq_comm] using hk
      exact .inr ⟨by omega, hk0.2⟩
  rcases hlast i y hi with hi' | ⟨rfl, rfl⟩ <;> rcases hlast j y' hj with hj' | ⟨rfl, rfl⟩
  · exact h.looks_ahead i j y y' hi' hj' hmem
  · exact (List.getElem?_eq_some_iff.mp hi').1
  · exact absurd (mem_names_of_getElem? hj') (hx _ hmem).1
  · exact absurd rfl (hx _ hmem).2

/-- **An insertion keeps the order**, if the name is no numeral and the body mentions no defined
word and not the name. -/
theorem WellFormed.insert (h : d.WellFormed) (hn : isNumeral x.name = false)
    (hx : ∀ v ∈ x.body, v ∉ d.names ∧ v ≠ x.name) : (d.insert x).WellFormed := by
  have hins := insertion_insert d x
  refine ⟨?_, ?_, ?_⟩
  · rcases hins.names with he | ⟨hnew, he⟩
    · exact he ▸ h.nodup
    · rw [he, List.nodup_append]
      refine ⟨h.nodup, by simp, fun a ha b hb => ?_⟩
      obtain rfl := List.mem_singleton.mp hb
      exact fun hab => hnew (hab ▸ ha)
  · intro n hmem
    rcases hins.names with he | ⟨hnew, he⟩
    · exact h.not_numeral n (he ▸ hmem)
    · rw [he, List.mem_append, List.mem_singleton] at hmem
      rcases hmem with hmem | rfl
      · exact h.not_numeral n hmem
      · exact hn
  · cases hins with
    | overwrite k z hk hz he => exact he ▸ h.looks_ahead_set hk hz fun v hv => (hx v hv).1
    | append hnew he => exact he ▸ h.looks_ahead_concat hx

/-- The words of an accepted body, as far as the order is concerned. -/
theorem not_mem_names_of_define {words : List Word} (h : d.define words = .ok x) :
    ∀ v ∈ x.body, v ∉ d.names ∧ v ≠ x.name := by
  intro v hv
  obtain ⟨hnone, hne⟩ := body_of_define h v hv
  exact ⟨not_mem_names_iff.mpr hnone, hne⟩

theorem WellFormed.insert_of_define (h : d.WellFormed) {words : List Word}
    (hx : d.define words = .ok x) : (d.insert x).WellFormed := by
  obtain ⟨-, -, hnum, -⟩ := define_eq_ok_iff.mp hx
  exact h.insert hnum (not_mem_names_of_define hx)

/-- Every recorded dictionary is well-formed. -/
theorem Recorded.wellFormed (hd : d.Recorded) : d.WellFormed := by
  induction hd with
  | empty => exact wellFormed_empty
  | record hd h ih =>
    obtain ⟨x, hx, rfl⟩ := record_eq_ok_iff.mp h
    exact ih.insert_of_define hx

theorem Recorded.acyclic (hd : d.Recorded) : d.Acyclic := by
  induction hd with
  | empty => exact acyclic_empty
  | record hd h ih =>
    obtain ⟨x, hx, rfl⟩ := record_eq_ok_iff.mp h
    exact acyclic_insert_of_define ih hx

/-! ## Mentions follow the order -/

theorem exists_getElem?_of_body? {w : Word} {body : List Word} (h : d.body? w = some body) :
    ∃ i : Nat, d.definitions[i]? = some (Definition.mk w body) := by
  obtain ⟨x, hx, rfl⟩ := Option.map_eq_some_iff.mp h
  obtain rfl : x.name = w := by simpa using List.find?_some hx
  exact List.mem_iff_getElem?.mp (List.mem_of_find?_eq_some hx)

/-- The definition at a position is the one that its name is looked up by. -/
theorem WellFormed.body?_of_getElem? (h : d.WellFormed) {i : Nat}
    (hi : d.definitions[i]? = some x) : d.body? x.name = some x.body := by
  have hmem := contains_iff_mem_names.mpr (mem_names_of_getElem? hi)
  obtain ⟨body, hbody⟩ := Option.isSome_iff_exists.mp hmem
  obtain ⟨j, hj⟩ := exists_getElem?_of_body? hbody
  have hname : d.names[i]? = d.names[j]? := by simp [names, hi, hj]
  have hlt : i < d.names.length := by
    simpa [names] using (List.getElem?_eq_some_iff.mp hi).1
  obtain rfl := (List.getElem?_inj hlt h.nodup).mp hname
  rw [hi, Option.some.injEq] at hj
  rw [hbody, hj]

/-- The word at the end of a path of mentions is defined. -/
theorem exists_body?_of_transGen {v w : Word} (hp : Relation.TransGen d.Mentions v w) :
    ∃ body, d.body? w = some body := by
  cases hp with
  | single hm => exact ⟨_, hm.choose_spec.1⟩
  | tail _ hm => exact ⟨_, hm.choose_spec.1⟩

/-- A path of mentions only goes forward. -/
theorem WellFormed.lt_of_transGen (h : d.WellFormed) {j : Nat} {y : Definition} {w : Word}
    (hj : d.definitions[j]? = some y) (hp : Relation.TransGen d.Mentions y.name w) :
    ∀ (i : Nat) (x : Definition), d.definitions[i]? = some x → x.name = w → i < j := by
  induction hp with
  | single hm =>
    rintro i x hi rfl
    obtain ⟨body, hb, hmem⟩ := hm
    rw [h.body?_of_getElem? hi, Option.some.injEq] at hb
    exact h.looks_ahead i j x y hi hj (hb ▸ hmem)
  | @tail v w hp hm ih =>
    rintro i x hi rfl
    obtain ⟨body, hb, hmem⟩ := hm
    rw [h.body?_of_getElem? hi, Option.some.injEq] at hb
    obtain ⟨body', hb'⟩ := exists_body?_of_transGen hp
    obtain ⟨k, hk⟩ := exists_getElem?_of_body? hb'
    exact Nat.lt_trans (h.looks_ahead i k x _ hi hk (hb ▸ hmem)) (ih k _ hk rfl)

/-- No definition leads back to itself. -/
theorem WellFormed.not_transGen_self (h : d.WellFormed) (w : Word) :
    ¬ Relation.TransGen d.Mentions w w := by
  intro hp
  obtain ⟨body, hb⟩ := exists_body?_of_transGen hp
  obtain ⟨i, hi⟩ := exists_getElem?_of_body? hb
  exact Nat.lt_irrefl i (h.lt_of_transGen hi hp i _ hi rfl)

/-- **The invariant of recorded dictionaries.** Whatever is attempted, in whatever order, and
whichever attempts are rejected: the names are distinct, none is a numeral, and a name in the body
at position `i` stands at a position beyond `i`. So no body contains its own name, and no path of
mentions returns to its start. -/
theorem bodies_look_ahead (attempts : List (List Word)) :
    (ofAttempts attempts).names.Nodup ∧
      (∀ n ∈ (ofAttempts attempts).names, isNumeral n = false) ∧
      (∀ (i j : Nat) (x : Definition) (v : Word), (ofAttempts attempts).definitions[i]? = some x →
        v ∈ x.body → (ofAttempts attempts).names[j]? = some v → i < j) ∧
      (∀ x ∈ (ofAttempts attempts).definitions, x.name ∉ x.body) ∧
      ∀ w, ¬ Relation.TransGen (ofAttempts attempts).Mentions w w := by
  have h := (recorded_ofAttempts attempts).wellFormed
  refine ⟨h.nodup, h.not_numeral, ?_, ?_, h.not_transGen_self⟩
  · intro i j x v hi hv hj
    rw [names, List.getElem?_map] at hj
    obtain ⟨y, hy, rfl⟩ := Option.map_eq_some_iff.mp hj
    exact h.looks_ahead i j x y hi hy hv
  · intro x hx hmem
    obtain ⟨i, hi⟩ := List.mem_iff_getElem?.mp hx
    exact Nat.lt_irrefl i (h.looks_ahead i i x x hi hi hmem)

/-- The second attempt would make a cycle; the third gives `B` a body without one. -/
example :
    (ofAttempts [["A", "B", ";"], ["B", "A", ";"], ["B", "7", ";"]]).definitions =
      [⟨"A", ["B"]⟩, ⟨"B", ["7"]⟩] := by cbv

end Dictionary

end WordCalc
