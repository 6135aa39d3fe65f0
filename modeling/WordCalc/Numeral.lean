/-!
# Numerals

An integer is written in decimal: an optional minus sign, then one or more digits. Only the ten
digits of ASCII count, a plus sign does not belong to a numeral, and leading zeros change
nothing. `Numeral.value?` reads a numeral of any size; `Numeral.write` writes an integer without
leading zeros.
-/

namespace WordCalc

namespace Numeral

/-- The value of a nonempty sequence of digits. -/
def digitsValue? (cs : List Char) : Option Nat :=
  if cs ≠ [] ∧ cs.all Char.isDigit then some (Nat.ofDigitChars 10 cs 0) else none

/-- The integer that `text` is a numeral of, if it is one. -/
def value? (text : String) : Option Int :=
  match text.toList with
  | '-' :: cs => (digitsValue? cs).map fun n : Nat => -(n : Int)
  | cs => (digitsValue? cs).map fun n : Nat => (n : Int)

/-- The digits of a natural number. -/
def writeNat (n : Nat) : String :=
  String.ofList (Nat.toDigits 10 n)

/-- The shortest numeral of an integer. -/
def write (n : Int) : String :=
  if n < 0 then "-" ++ writeNat n.natAbs else writeNat n.natAbs

theorem isDigit_of_mem_toDigits {n : Nat} {c : Char} (h : c ∈ Nat.toDigits 10 n) :
    c.isDigit = true :=
  Nat.isDigit_of_mem_toDigits (by decide) (by decide) h

theorem digitsValue?_toDigits (n : Nat) : digitsValue? (Nat.toDigits 10 n) = some n := by
  have hd : (Nat.toDigits 10 n).all Char.isDigit = true :=
    List.all_eq_true.mpr fun _ hc => isDigit_of_mem_toDigits hc
  rw [digitsValue?, if_pos ⟨Nat.toDigits_ne_nil, hd⟩, Nat.ofDigitChars_ten_toDigits]

theorem value?_of_head_ne {cs : List Char} (h : cs.head? ≠ some '-') :
    value? (String.ofList cs) = (digitsValue? cs).map fun n : Nat => (n : Int) := by
  rw [value?, String.toList_ofList]
  split
  · exact absurd rfl h
  · rfl

/-- Writing an integer and reading the numeral gives the integer back. -/
theorem value?_write (n : Int) : value? (write n) = some n := by
  unfold write
  split
  · have hl : ("-" ++ writeNat n.natAbs).toList = '-' :: Nat.toDigits 10 n.natAbs := by
      rw [String.toList_append, writeNat, String.toList_ofList, String.toList_ofList]
      rfl
    rw [value?, hl]
    simp only [digitsValue?_toDigits, Option.map_some]
    congr
    omega
  · have hh : (Nat.toDigits 10 n.natAbs).head? ≠ some '-' := fun e =>
      absurd (isDigit_of_mem_toDigits (List.mem_of_head? e)) (by decide)
    rw [writeNat, value?_of_head_ne hh, digitsValue?_toDigits, Option.map_some]
    congr
    omega

end Numeral

/-- Whether `text` has the shape of a numeral, whatever its size. -/
def isNumeral (text : String) : Bool :=
  (Numeral.value? text).isSome

/-- One minus sign at most, no plus sign, no foreign digit. -/
example :
    isNumeral "-007" = true ∧ isNumeral "-" = false ∧ isNumeral "--1" = false ∧
      isNumeral "+1" = false ∧ isNumeral "" = false ∧ isNumeral "٣" = false := by
  decide +kernel

end WordCalc
