import Mathlib.Logic.Basic
import Mathlib.Tactic.SplitIfs
import WordCalc.Dictionary.Record

/-!
# What recording changes

A recorded definition changes a dictionary in one of two ways: it overwrites the body of one name
in place, or it appends one new name at the end (`Insertion`, `insertion_insert`). Which
definitions are recorded is said by `define_eq_ok_iff`.

A dictionary is *recorded* when definitions have built it from the empty one; `ofAttempts` builds
it from a sequence of attempts, of which some may be rejected.
-/

namespace WordCalc

/-- `e` differs from `d` by one insertion of `x`. -/
inductive Dictionary.Insertion (d : Dictionary) (x : Definition) (e : Dictionary) : Prop
  /-- The definition at position `i` had the name, and `x` stands in its place. -/
  | overwrite (i : Nat) (y : Definition) (hi : d.definitions[i]? = some y)
      (hy : y.name = x.name) (he : e.definitions = d.definitions.set i x)
  /-- The name is new, and `x` stands at the end. -/
  | append (hn : x.name ∉ d.names) (he : e.definitions = d.definitions ++ [x])

/-! ## Insertions -/

theorem Definition.insertInto_cases (x : Definition) (ds : List Definition) :
    (∃ (i : Nat) (y : Definition), ds[i]? = some y ∧ y.name = x.name ∧
        x.insertInto ds = ds.set i x) ∨
      ((∀ y ∈ ds, y.name ≠ x.name) ∧ x.insertInto ds = ds ++ [x]) := by
  induction ds with
  | nil => exact .inr ⟨by simp, rfl⟩
  | cons y ys ih =>
    by_cases hy : y.name = x.name
    · exact .inl ⟨0, y, rfl, hy, by simp [insertInto, hy]⟩
    · rcases ih with ⟨i, z, hi, hz, he⟩ | ⟨hn, he⟩
      · exact .inl ⟨i + 1, z, by simpa using hi, hz, by simp [insertInto, hy, he]⟩
      · exact .inr ⟨by simpa [hy] using hn, by simp [insertInto, hy, he]⟩

namespace Dictionary

variable {d e : Dictionary} {x : Definition} {words : List Word}

theorem insertion_insert (d : Dictionary) (x : Definition) : d.Insertion x (d.insert x) := by
  rcases x.insertInto_cases d.definitions with ⟨i, y, hi, hy, he⟩ | ⟨hn, he⟩
  · exact .overwrite i y hi hy he
  · refine .append (fun hmem => ?_) he
    obtain ⟨y, hy, hyn⟩ := List.mem_map.mp hmem
    exact hn y hy hyn

/-- The names stay where they are; a new one goes to the end. -/
theorem Insertion.names (h : d.Insertion x e) :
    e.names = d.names ∨ x.name ∉ d.names ∧ e.names = d.names ++ [x.name] := by
  cases h with
  | overwrite i y hi hy he =>
    left
    obtain ⟨hlt, hget⟩ := List.getElem?_eq_some_iff.mp hi
    have hlen : i < d.names.length := by simpa [Dictionary.names] using hlt
    have hself : d.names[i] = x.name := by simp [Dictionary.names, hget, hy]
    rw [Dictionary.names, he, List.map_set, ← hself]
    exact List.set_getElem_self _
  | append hn he =>
    right
    exact ⟨hn, by simp [Dictionary.names, he]⟩

/-- A new definition goes to the end. -/
theorem definitions_insert_of_new (hn : x.name ∉ d.names) :
    (d.insert x).definitions = d.definitions ++ [x] := by
  cases insertion_insert d x with
  | overwrite i y hi hy he =>
    exact absurd (List.mem_map.mpr ⟨y, List.mem_of_getElem? hi, hy⟩) hn
  | append hn he => exact he

theorem names_insert_of_new (hn : x.name ∉ d.names) :
    (d.insert x).names = d.names ++ [x.name] := by
  rw [names, definitions_insert_of_new hn, List.map_append]
  rfl

/-! ## Which definitions are accepted -/

/-- A definition is accepted when its name is no numeral, its last word is the end mark and the
words between have an expansion, its body, that does not contain the name. -/
theorem define_eq_ok_iff :
    d.define words = .ok x ↔
      ∃ ws, words = x.name :: (ws ++ [endMark]) ∧ isNumeral x.name = false ∧
        d.expand ws = .ok x.body ∧ x.name ∉ x.body := by
  constructor
  · intro h
    unfold define at h
    split at h
    · cases h
    · rename_i name rest
      split_ifs at h with hnum hend
      rw [not_not] at hend
      obtain ⟨ws, rfl⟩ := List.getLast?_eq_some_iff.mp hend
      rw [List.dropLast_concat] at h
      split at h
      · cases h
      · rename_i body hb
        split_ifs at h with hmem
        cases h
        exact ⟨ws, rfl, by simpa using hnum, hb, hmem⟩
  · rintro ⟨ws, rfl, hnum, hb, hmem⟩
    simp [define, hnum, hb, hmem]

/-- Recording inserts the accepted definition. -/
theorem record_eq_ok_iff :
    d.record words = .ok e ↔ ∃ x, d.define words = .ok x ∧ e = d.insert x := by
  unfold record
  split
  · rename_i x hx
    simp [hx, eq_comm]
  · rename_i f hf
    simp [hf]

/-! ## Recorded dictionaries -/

/-- Definitions have built the dictionary from the empty one. -/
inductive Recorded : Dictionary → Prop
  | empty : Recorded .empty
  | record {d e : Dictionary} {words : List Word} (hd : Recorded d) (h : d.record words = .ok e) :
      Recorded e

/-- The dictionary that a sequence of attempts builds from the empty one. -/
def ofAttempts (attempts : List (List Word)) : Dictionary :=
  attempts.foldl attempt .empty

theorem ofAttempts_append (before after : List (List Word)) :
    ofAttempts (before ++ after) = after.foldl attempt (ofAttempts before) :=
  List.foldl_append

theorem Recorded.attempt (hd : d.Recorded) (words : List Word) : (d.attempt words).Recorded := by
  cases h : d.record words with
  | ok e =>
    rw [attempt_of_ok h]
    exact .record hd h
  | error f =>
    rw [attempt_of_error h]
    exact hd

theorem recorded_ofAttempts (attempts : List (List Word)) : (ofAttempts attempts).Recorded := by
  have run : ∀ (d : Dictionary), d.Recorded → (attempts.foldl Dictionary.attempt d).Recorded := by
    induction attempts with
    | nil => exact fun d hd => hd
    | cons words rest ih => exact fun d hd => ih _ (hd.attempt words)
  exact run _ .empty

end Dictionary

end WordCalc
