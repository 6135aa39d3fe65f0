import WordCalc.Text.Uppercase.Table

/-!
# Texts

A text is a sequence of characters. It is cut into lines at its line feeds, and a line is cut into
words at its blanks and read in upper case.

* `isBlank`: the characters that separate words, those with the Unicode property `White_Space`.
* `upcase`: a text in upper case, character by character. A character may become several (`ß`
  becomes `SS`, `ŉ` becomes `ʼN`), and one that has no upper case stays as it is. No locale and no
  neighbour plays a part, so `upcase` goes over `++` (`upcase_append`).
* `tokenize`, `unwords`: the words of a line, and words written with one space between them.
* `textLines`: the lines of a text. A line feed ends a line, and a carriage return right before it
  belongs to the ending. What follows the last line feed is a line too, unless it is empty; a
  carriage return at its end is part of it.
-/

namespace WordCalc

/-! ## Blanks

There are twenty-five blanks, and their property has been stable since Unicode 6.3. -/

/-- The ranges of code points, ends included, of the property `White_Space`, in ascending order. -/
def blankRanges : List (Nat × Nat) :=
  [(0x0009, 0x000D), (0x0020, 0x0020), (0x0085, 0x0085), (0x00A0, 0x00A0), (0x1680, 0x1680),
   (0x2000, 0x200A), (0x2028, 0x2029), (0x202F, 0x202F), (0x205F, 0x205F), (0x3000, 0x3000)]

/-- Whether a code point lies in one of `ranges`. -/
def inRanges (ranges : List (Nat × Nat)) (n : Nat) : Bool :=
  ranges.any fun r => r.1 ≤ n && n ≤ r.2

/-- Whether `c` separates words. -/
def isBlank (c : Char) : Bool :=
  inRanges blankRanges c.toNat

/-- The blanks, counted over the ranges, are twenty-five. -/
example : (blankRanges.map fun r => r.2 + 1 - r.1).sum = 25 := rfl

example : isBlank ' ' = true := rfl

example : isBlank '\n' = true := rfl

/-- The Mongolian vowel separator and the zero width space are not blank. -/
example : isBlank '\u180e' = false ∧ isBlank '\u200b' = false := ⟨rfl, rfl⟩

/-! ## Upper case -/

/-- The upper case that the run gives to `n`, if `n` belongs to it. -/
def CaseRun.image? (r : CaseRun) (n : Nat) : Option Nat :=
  if r.first ≤ n ∧ n ≤ r.last ∧ (n - r.first) % r.step = 0 then some (r.upper + (n - r.first))
  else none

/-- The upper case of `n` by the first run that does not lie wholly before `n`. The runs are
disjoint and ascend, so no later run can hold `n`. -/
def runImage? (n : Nat) : List CaseRun → Option Nat
  | [] => none
  | r :: rs => if n ≤ r.last then r.image? n else runImage? n rs

/-- The expansion of `n`; the table ascends, so the search stops once it has passed `n`. -/
def expansion? (n : Nat) : List (Nat × List Nat) → Option (List Nat)
  | [] => none
  | e :: es => if n ≤ e.1 then (if n = e.1 then some e.2 else none) else expansion? n es

/-- The upper case of one character. -/
def upper (c : Char) : List Char :=
  match runImage? c.toNat caseRuns with
  | some m => [Char.ofNat m]
  | none =>
    match expansion? c.toNat caseExpansions with
    | some ms => ms.map Char.ofNat
    | none => [c]

/-- The upper case of a text. -/
def upcase (cs : List Char) : List Char :=
  cs.flatMap upper

@[simp]
theorem upcase_nil : upcase [] = [] := rfl

@[simp]
theorem upcase_cons (c : Char) (cs : List Char) : upcase (c :: cs) = upper c ++ upcase cs := rfl

theorem upcase_append (xs ys : List Char) : upcase (xs ++ ys) = upcase xs ++ upcase ys :=
  List.flatMap_append

/-- Small letters become capitals; one character may become several. -/
example :
    upcase ['a', 'Z', '7'] = ['A', 'Z', '7'] ∧ upcase ['ß'] = ['S', 'S'] ∧
      upcase ['ſ', 'ı'] = ['S', 'I'] ∧ upcase ['ŉ'] = ['ʼ', 'N'] := by
  decide +kernel

/-! ## Words -/

/-- A word of the language. -/
abbrev Word := String

/-- The stretches of `cs` without a blank, as long as possible and none of them empty. -/
def fields (cs : List Char) : List (List Char) :=
  (cs.splitOnP isBlank).filter fun f => !f.isEmpty

/-- The words of a line, in upper case. -/
def tokenize (line : String) : List Word :=
  (fields (upcase line.toList)).map String.ofList

/-- The items one after another, with `sep` between neighbours. -/
def separated (sep : String) (items : List String) : String :=
  sep.intercalate items

/-- Words with one space between neighbours. -/
def unwords (words : List Word) : String :=
  separated " " words

@[simp]
theorem fields_nil : fields [] = [] := rfl

/-- Every field is nonempty. -/
theorem ne_nil_of_mem_fields {cs f : List Char} (h : f ∈ fields cs) : f ≠ [] := by
  have := (List.mem_filter.mp h).2
  rintro rfl
  simp at this

/-! ## Lines

The cut is made on a sequence of any kind of unit, characters or bytes: `pieces` keeps the endings,
so that nothing of the text is lost, and `withoutEnding` takes them away. -/

section Lines

variable {α : Type} [BEq α]

/-- The pieces of `xs` up to and including each `lf`, then what is left, if anything. -/
def pieces (lf : α) (xs : List α) : List (List α) :=
  let cuts := xs.splitOnP (· == lf)
  cuts.dropLast.map (· ++ [lf]) ++ cuts.getLast?.toList.filter fun rest => !rest.isEmpty

/-- The piece without a final `lf` and without one `cr` before that. -/
def withoutEnding (lf cr : α) (piece : List α) : List α :=
  if piece.getLast? == some lf then
    let line := piece.dropLast
    if line.getLast? == some cr then line.dropLast else line
  else piece

/-- The line in a piece of a text. -/
def lineOfPiece (piece : String) : String :=
  String.ofList (withoutEnding '\n' '\r' piece.toList)

/-- The lines of a text. -/
def textLines (text : String) : List String :=
  (pieces '\n' text.toList).map fun piece => lineOfPiece (String.ofList piece)

/-- A final piece without a line feed keeps its carriage return. -/
example :
    textLines "a\r\nb\n\r\r\nc\r" = ["a", "b", "\r", "c\r"] ∧ textLines "" = [] ∧
      textLines "\n" = [""] := by
  decide +kernel

end Lines

end WordCalc
