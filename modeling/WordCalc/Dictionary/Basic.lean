import WordCalc.Text

/-!
# Dictionaries

A dictionary holds the words that a user has defined, in the order in which their names first
came up. `Dictionary.body?` is the view that the operations are described by; inserting a
definition changes it at one name (`body?_insert`).
-/

namespace WordCalc

/-- A name and the words it stands for. -/
structure Definition where
  name : Word
  body : List Word
  deriving DecidableEq

/-- The definition in the notation in which it was entered. -/
def Definition.text (x : Definition) : String :=
  ": " ++ x.name ++ " " ++ unwords x.body ++ " ;"

/-- Puts `x` in the place of the first definition of its name, or else at the end. -/
def Definition.insertInto (x : Definition) : List Definition → List Definition
  | [] => [x]
  | y :: ys => if y.name = x.name then x :: ys else y :: x.insertInto ys

/-- The definitions of a user, oldest name first. -/
structure Dictionary where
  definitions : List Definition
  deriving DecidableEq

namespace Dictionary

/-- The dictionary without definitions. -/
def empty : Dictionary := ⟨[]⟩

/-- The number of definitions. -/
def size (d : Dictionary) : Nat := d.definitions.length

/-- Whether there is no definition. -/
def isEmpty (d : Dictionary) : Bool := d.definitions.isEmpty

/-- The defined names, oldest first. -/
def names (d : Dictionary) : List Word := d.definitions.map Definition.name

/-- The words that `w` stands for, if it is defined. -/
def body? (d : Dictionary) (w : Word) : Option (List Word) :=
  (d.definitions.find? fun x => x.name = w).map Definition.body

/-- Whether `w` is defined. -/
def contains (d : Dictionary) (w : Word) : Bool := (d.body? w).isSome

/-- Defines a word. A name that is defined already keeps its place. -/
def insert (d : Dictionary) (x : Definition) : Dictionary := ⟨x.insertInto d.definitions⟩

/-- The definitions, a line each. -/
def text (d : Dictionary) : String :=
  String.join (d.definitions.map fun x => x.text ++ "\n")

@[simp]
theorem body?_empty (w : Word) : empty.body? w = none := rfl

theorem contains_eq_false_iff {d : Dictionary} {w : Word} :
    d.contains w = false ↔ d.body? w = none := by
  simp only [contains, Option.isSome_eq_false_iff, Option.isNone_iff_eq_none]

theorem contains_iff_mem_names {d : Dictionary} {w : Word} :
    d.contains w = true ↔ w ∈ d.names := by
  simp only [contains, body?, names, Option.isSome_map, List.find?_isSome, List.mem_map,
    decide_eq_true_eq]

theorem mem_names_of_body? {d : Dictionary} {w : Word} {body : List Word}
    (h : d.body? w = some body) : w ∈ d.names :=
  contains_iff_mem_names.mp (by rw [contains, h, Option.isSome_some])

theorem not_mem_names_iff {d : Dictionary} {w : Word} : w ∉ d.names ↔ d.body? w = none := by
  rw [← contains_iff_mem_names, Bool.not_eq_true, contains_eq_false_iff]

/-- An insertion changes the meaning of the inserted name and of no other word. -/
theorem body?_insert (d : Dictionary) (x : Definition) (w : Word) :
    (d.insert x).body? w = if w = x.name then some x.body else d.body? w := by
  obtain ⟨ds⟩ := d
  simp only [insert, body?]
  induction ds with
  | nil => grind [Definition.insertInto]
  | cons y ys ih => grind [Definition.insertInto]

end Dictionary

end WordCalc
