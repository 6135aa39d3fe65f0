import Mathlib
import WordCalc.Proofs.Cell
import WordCalc.Proofs.Runs
import WordCalc.Proofs.Text.Words

/-!
# Literals

A numeral is an optional minus sign and one or more digits, and it denotes an integer in the usual
way (`Numeral.Denotes`). The reader of numerals reads exactly these (`Numeral.value?_eq_some_iff`),
of any length and with any number of leading zeros.

How a word is classified follows from this (`Classifies`, `classifies_iff`): a numeral is a literal
if its integer fits a cell and a fault if it does not, whatever the dictionary holds; any other word
is a call if it is defined, and otherwise has its built-in meaning or is unknown. No numeral is ever
defined in a recorded dictionary, so it never hides a definition.
-/

namespace WordCalc

/-! ## Numerals and integers -/

namespace Numeral

/-- The characters are one or more decimal digits, the most significant first, and `n` is the number
that they make up. -/
def DigitsOf (cs : List Char) (n : ℕ) : Prop :=
  ∃ ds : List ℕ, ds ≠ [] ∧ (∀ k ∈ ds, k < 10) ∧ cs = ds.map Nat.digitChar ∧
    n = Nat.ofDigits 10 ds.reverse

/-- The text is one or more digits, behind a minus sign or not, and `n` is the integer that it
denotes. -/
inductive Denotes (text : String) : ℤ → Prop
  | unsigned {m : ℕ} (h : DigitsOf text.toList m) : Denotes text m
  | negated {cs : List Char} {m : ℕ} (hsign : text.toList = '-' :: cs) (h : DigitsOf cs m) :
      Denotes text (-m)

variable {cs : List Char} {m : ℕ} {text : String} {n : ℤ}

/-- A digit is the digit of its distance from the zero. -/
theorem digitChar_of_isDigit {c : Char} (h : c.isDigit = true) :
    c.toNat - 48 < 10 ∧ Nat.digitChar (c.toNat - 48) = c := by
  obtain ⟨hlow, hhigh⟩ := toNat_bounds_of_isDigit h
  have hlt : c.toNat - 48 < 10 := by omega
  refine ⟨hlt, Char.toNat_inj.mp ?_⟩
  rw [Nat.toNat_digitChar_of_lt_ten hlt]
  omega

/-- Reading digits one after another adds up to the number that they make up. -/
theorem ofDigitChars_map_digitChar {ds : List ℕ} (h : ∀ k ∈ ds, k < 10) :
    Nat.ofDigitChars 10 (ds.map Nat.digitChar) 0 = Nat.ofDigits 10 ds.reverse := by
  rw [Nat.ofDigits_eq_foldr, List.foldr_reverse, Nat.ofDigitChars, List.foldl_map]
  refine List.foldl_ext _ _ 0 fun sofar k hk => ?_
  have hdigit : '0'.toNat = 48 := rfl
  rw [Nat.toNat_digitChar_of_lt_ten (h k hk), hdigit]
  simp
  omega

theorem digitsValue?_eq_some_iff : digitsValue? cs = some m ↔ DigitsOf cs m := by
  constructor
  · intro h
    unfold digitsValue? at h
    split_ifs at h with hdigits
    obtain ⟨hne, hall⟩ := hdigits
    rw [List.all_eq_true] at hall
    have hlt : ∀ k ∈ cs.map fun c => c.toNat - 48, k < 10 := by
      intro k hk
      obtain ⟨c, hc, rfl⟩ := List.mem_map.mp hk
      exact (digitChar_of_isDigit (hall c hc)).1
    have hcs : cs = (cs.map fun c => c.toNat - 48).map Nat.digitChar := by
      rw [List.map_map]
      exact ((List.map_congr_left fun c hc => (digitChar_of_isDigit (hall c hc)).2).trans
        (List.map_id cs)).symm
    refine ⟨_, by simpa using hne, hlt, hcs, ?_⟩
    rw [← ofDigitChars_map_digitChar hlt, ← hcs]
    exact (Option.some.inj h).symm
  · rintro ⟨ds, hne, hlt, rfl, rfl⟩
    have hall : (ds.map Nat.digitChar).all Char.isDigit = true := by
      rw [List.all_map, List.all_eq_true]
      intro k hk
      simp [Nat.isDigit_digitChar, hlt k hk]
    rw [digitsValue?, if_pos ⟨by simpa using hne, hall⟩, ofDigitChars_map_digitChar hlt]

/-- The minus sign is no digit. -/
theorem not_digitsOf_minus : ¬ DigitsOf ('-' :: cs) m := by
  rw [← digitsValue?_eq_some_iff, digitsValue?, if_neg]
  · simp
  · rintro ⟨-, hall⟩
    simp at hall

/-- **The reader reads exactly the numerals**, and gives the integer that they denote. -/
theorem value?_eq_some_iff : value? text = some n ↔ Denotes text n := by
  unfold value?
  constructor
  · intro h
    split at h
    · rename_i cs hsign
      obtain ⟨m, hm, rfl⟩ := Option.map_eq_some_iff.mp h
      exact .negated hsign (digitsValue?_eq_some_iff.mp hm)
    · obtain ⟨m, hm, rfl⟩ := Option.map_eq_some_iff.mp h
      exact .unsigned (digitsValue?_eq_some_iff.mp hm)
  · rintro (hdigits | ⟨hsign, hdigits⟩)
    · split
      · rename_i cs hsign
        exact absurd (hsign ▸ hdigits) not_digitsOf_minus
      · rw [digitsValue?_eq_some_iff.mpr hdigits]
        rfl
    · rw [hsign]
      simp [digitsValue?_eq_some_iff.mpr hdigits]

theorem value?_eq_none_iff : value? text = none ↔ ¬ ∃ n, Denotes text n := by
  simp only [Option.eq_none_iff_forall_ne_some, ne_eq, value?_eq_some_iff, not_exists]

theorem isNumeral_iff : isNumeral text = true ↔ ∃ n, Denotes text n := by
  simp only [isNumeral, Option.isSome_iff_exists, value?_eq_some_iff]

end Numeral

/-! ## Built-in words -/

namespace Token

/-- The meanings that words have without a definition. -/
def builtIns : List Token :=
  [defBegin, defEnd, operator .add, operator .sub, operator .mul, operator .div,
    shuffle .dup, shuffle .drop, shuffle .swap, shuffle .copySecond]

theorem builtIn_text : ∀ t ∈ builtIns, builtIn t.text = t := by
  decide

/-- A word that stands for no built-in meaning is unknown. -/
theorem builtIn_of_forall_ne {w : Word} (h : ∀ t ∈ builtIns, w ≠ t.text) :
    builtIn w = unknown w := by
  have hcases : builtIn w ∈ builtIns ∨ builtIn w = unknown w := by
    unfold builtIn
    split <;> simp [builtIns]
  rcases hcases with hmem | hunknown
  · exact absurd (text_builtIn w).symm (h _ hmem)
  · exact hunknown

end Token

/-! ## The meaning of a word -/

/-- `Classifies d w r`: the meaning of the word `w`, or its fault, is `r`. -/
inductive Classifies (d : Dictionary) (w : Word) : Except Fault Token → Prop
  | literal {c : Cell} (hnum : Numeral.Denotes w c.toInt) : Classifies d w (.ok (.literal c))
  | integerOverflow {n : ℤ} (hnum : Numeral.Denotes w n) (hfits : ¬ Cell.Fits n) :
      Classifies d w (.error .integerOverflow)
  | call {body : List Word} (hnum : ¬ ∃ n, Numeral.Denotes w n) (hb : d.body? w = some body) :
      Classifies d w (.ok (.call w body))
  | builtIn {t : Token} (hnum : ¬ ∃ n, Numeral.Denotes w n) (hb : d.body? w = none)
      (ht : t ∈ Token.builtIns) (hw : w = t.text) : Classifies d w (.ok t)
  | unknown (hnum : ¬ ∃ n, Numeral.Denotes w n) (hb : d.body? w = none)
      (hw : ∀ t ∈ Token.builtIns, w ≠ t.text) : Classifies d w (.ok (.unknown w))

variable {d : Dictionary} {w : Word} {c : Cell} {r : Except Fault Token}

theorem classify_of_not_numeral (hnum : ¬ ∃ n, Numeral.Denotes w n) (hb : d.body? w = none) :
    classify d w = .ok (Token.builtIn w) := by
  rw [classify, Numeral.value?_eq_none_iff.mpr hnum, hb]

theorem Classifies.classify_eq (h : Classifies d w r) : classify d w = r := by
  cases h with
  | @literal c hnum =>
    rw [classify, Numeral.value?_eq_some_iff.mpr hnum]
    simp only [(Cell.ofInt?_exact c.toInt c).mpr rfl]
  | @integerOverflow n hnum hfits =>
    rw [classify, Numeral.value?_eq_some_iff.mpr hnum]
    simp only [(Cell.ofInt?_exact n).eq_none_iff.mpr hfits]
  | call hnum hb => rw [classify, Numeral.value?_eq_none_iff.mpr hnum, hb]
  | @builtIn t hnum hb ht hw =>
    rw [classify_of_not_numeral hnum hb, hw, Token.builtIn_text t ht]
  | unknown hnum hb hw => rw [classify_of_not_numeral hnum hb, Token.builtIn_of_forall_ne hw]

/-- A built-in word has its meaning wherever it is not defined. -/
theorem classify_builtIn {t : Token} (ht : t ∈ Token.builtIns) (hb : d.body? t.text = none) :
    classify d t.text = .ok t := by
  have hnum : ∀ t ∈ Token.builtIns, Numeral.value? t.text = none := by decide +kernel
  exact (Classifies.builtIn (Numeral.value?_eq_none_iff.mp (hnum t ht)) hb ht rfl).classify_eq

theorem classify_operator {op : Operator} (hb : d.body? op.symbol = none) :
    classify d op.symbol = .ok (.operator op) :=
  classify_builtIn (t := .operator op) (by cases op <;> decide) hb

theorem classify_shuffle {sh : Shuffle} (hb : d.body? sh.symbol = none) :
    classify d sh.symbol = .ok (.shuffle sh) :=
  classify_builtIn (t := .shuffle sh) (by cases sh <;> decide) hb

/-- There is a rule for any word. -/
theorem exists_classifies (d : Dictionary) (w : Word) : ∃ r, Classifies d w r := by
  by_cases hnum : ∃ n, Numeral.Denotes w n
  · obtain ⟨n, hn⟩ := hnum
    by_cases hfits : Cell.Fits n
    · obtain ⟨c, rfl⟩ := Cell.exists_toInt_eq_iff.mpr hfits
      exact ⟨_, .literal hn⟩
    · exact ⟨_, .integerOverflow hn hfits⟩
  · cases hb : d.body? w with
    | some body => exact ⟨_, .call hnum hb⟩
    | none =>
      by_cases hw : ∃ t ∈ Token.builtIns, w = t.text
      · obtain ⟨t, ht, hw⟩ := hw
        exact ⟨_, .builtIn hnum hb ht hw⟩
      · exact ⟨_, .unknown hnum hb fun t ht e => hw ⟨t, ht, e⟩⟩

/-- **Words are classified by the rules**, which have one outcome for any word. -/
theorem classifies_iff : Classifies d w r ↔ classify d w = r := by
  refine ⟨Classifies.classify_eq, fun h => ?_⟩
  obtain ⟨r', hr'⟩ := exists_classifies d w
  rw [← h, hr'.classify_eq]
  exact hr'

/-! ## When each outcome arises -/

theorem classify_eq_literal_iff :
    classify d w = .ok (.literal c) ↔ Numeral.Denotes w c.toInt := by
  rw [← classifies_iff]
  constructor
  · intro h
    cases h with
    | literal hnum => exact hnum
    | builtIn hnum hb ht hw => simp [Token.builtIns] at ht
  · exact .literal

theorem classify_eq_integerOverflow_iff :
    classify d w = .error .integerOverflow ↔ ∃ n, Numeral.Denotes w n ∧ ¬ Cell.Fits n := by
  rw [← classifies_iff]
  constructor
  · intro h
    cases h with
    | integerOverflow hnum hfits => exact ⟨_, hnum, hfits⟩
  · rintro ⟨n, hnum, hfits⟩
    exact .integerOverflow hnum hfits

/-- A numeral is not defined, whether it fits a cell or not. -/
theorem Dictionary.NoNumerals.not_mem_names (hd : d.NoNumerals) {n : ℤ}
    (hnum : Numeral.Denotes w n) : w ∉ d.names := by
  intro hmem
  have hnot := hd w hmem
  rw [Numeral.isNumeral_iff.mpr ⟨n, hnum⟩] at hnot
  cases hnot

/-- The written form of a cell denotes the integer that it holds. -/
theorem classify_text_literal (d : Dictionary) (c : Cell) :
    classify d (Token.literal c).text = .ok (.literal c) :=
  classify_eq_literal_iff.mpr (Numeral.value?_eq_some_iff.mp (Numeral.value?_write c.toInt))

/-- **Words are classified exactly**, in a recorded dictionary. A word is the literal of a cell
exactly when it is a numeral of the integer in the cell, and overflows exactly when it is a numeral
of an integer that does not fit one. Any other word is a call exactly when it is defined, and if it
is not, it has the built-in meaning that it stands for, or is unknown if there is none.

So no numeral is defined, whatever its size. Every cell is read back from its text, and every token
but a literal stands for the word that it was read from. -/
theorem words_are_classified (hd : d.Recorded) (w : Word) :
    (∀ c : Cell, classify d w = .ok (.literal c) ↔ Numeral.Denotes w c.toInt) ∧
      (classify d w = .error .integerOverflow ↔ ∃ n, Numeral.Denotes w n ∧ ¬ Cell.Fits n) ∧
      ((∃ body, classify d w = .ok (.call w body)) ↔ w ∈ d.names) ∧
      ((¬ ∃ n, Numeral.Denotes w n) → w ∉ d.names →
        (∀ t ∈ Token.builtIns, w = t.text → classify d w = .ok t) ∧
          ((∀ t ∈ Token.builtIns, w ≠ t.text) → classify d w = .ok (.unknown w))) ∧
      (∀ n, Numeral.Denotes w n → w ∉ d.names) ∧
      (∀ c : Cell, classify d (Token.literal c).text = .ok (.literal c)) ∧
      ∀ t, classify d w = .ok t → (∀ c, t ≠ .literal c) → t.text = w := by
  have hnone := hd.wellFormed.noNumerals
  refine ⟨fun c => classify_eq_literal_iff, classify_eq_integerOverflow_iff, ?_, ?_,
    fun n => hnone.not_mem_names, classify_text_literal d, fun t => text_of_classify⟩
  · constructor
    · rintro ⟨body, h⟩
      exact Dictionary.mem_names_of_body? (body?_of_classify_call h).2
    · intro hmem
      obtain ⟨body, hb⟩ := Option.isSome_iff_exists.mp (Dictionary.contains_iff_mem_names.mpr hmem)
      exact ⟨body, classify_of_body? hnone hb⟩
  · intro hnum hmem
    have hb := Dictionary.not_mem_names_iff.mp hmem
    exact ⟨fun t ht hw => (Classifies.builtIn hnum hb ht hw).classify_eq,
      fun hw => (Classifies.unknown hnum hb hw).classify_eq⟩

/-- Leading zeros, the least cell and the integer below it, a shuffle that is defined, the minus
sign alone, and two of them. -/
theorem words_are_classified_of_redefined_shuffle :
    ∃ d : Dictionary, d.Recorded ∧ d.names = ["DUP"] ∧
      classify d "-007" = .ok (.literal (-7)) ∧
      classify d "-9223372036854775808" = .ok (.literal Int64.minValue) ∧
      classify d "-9223372036854775809" = .error .integerOverflow ∧
      (∃ body, classify d "DUP" = .ok (.call "DUP" body)) ∧
      classify d "-" = .ok (.operator .sub) ∧ classify d "--5" = .ok (.unknown "--5") := by
  have hd := Dictionary.recorded_ofAttempts [["DUP", "1", ";"]]
  have hbuilt : Dictionary.ofAttempts [["DUP", "1", ";"]] = ⟨[⟨"DUP", ["1"]⟩]⟩ := by cbv
  rw [hbuilt] at hd
  have hnot (w : Word) (h : Numeral.value? w = none) : ¬ ∃ n, Numeral.Denotes w n :=
    Numeral.value?_eq_none_iff.mp h
  obtain ⟨hseven, -⟩ := words_are_classified hd "-007"
  obtain ⟨hleast, -⟩ := words_are_classified hd "-9223372036854775808"
  obtain ⟨-, hbelow, -⟩ := words_are_classified hd "-9223372036854775809"
  obtain ⟨-, -, hdup, -⟩ := words_are_classified hd "DUP"
  obtain ⟨-, -, -, hminus, -⟩ := words_are_classified hd "-"
  obtain ⟨-, -, -, htwice, -⟩ := words_are_classified hd "--5"
  refine ⟨_, hd, rfl, (hseven _).mpr ?_, (hleast _).mpr ?_,
    hbelow.mpr ⟨-9223372036854775809, ?_, ?_⟩, hdup.mpr (by decide), ?_, ?_⟩
  · exact Numeral.value?_eq_some_iff.mp (by decide +kernel)
  · exact Numeral.value?_eq_some_iff.mp (by decide +kernel)
  · exact Numeral.value?_eq_some_iff.mp (by decide +kernel)
  · decide
  · exact (hminus (hnot _ (by decide +kernel)) (by decide)).1 _ (by decide) rfl
  · exact (htwice (hnot _ (by decide +kernel)) (by decide)).2 (by decide)

end WordCalc
