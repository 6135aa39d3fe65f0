import WordCalc.Dictionary.Record
import WordCalc.Stack

/-!
# Tokens

What a word means under a dictionary. A numeral is a literal whatever the dictionary holds; a
defined word comes before the built-in meaning of the same word; the rest are unknown.
-/

namespace WordCalc

/-- The meaning of a word. -/
inductive Token where
  | literal (value : Cell)
  | operator (op : Operator)
  | shuffle (sh : Shuffle)
  /-- The start of a definition. -/
  | defBegin
  /-- The end of a definition. -/
  | defEnd
  /-- A defined word and the words it stands for. -/
  | call (name : Word) (body : List Word)
  | unknown (name : Word)
  deriving DecidableEq

namespace Token

/-- The word that opens a definition. -/
def beginMark : Word := ":"

/-- The word that stands for the token. -/
def text : Token → Word
  | literal value => Numeral.write value.toInt
  | operator op => op.symbol
  | shuffle sh => sh.symbol
  | defBegin => beginMark
  | defEnd => Dictionary.endMark
  | call name _ => name
  | unknown name => name

/-- The meaning of a word that is no numeral and not defined. -/
def builtIn : Word → Token
  | ":" => defBegin
  | ";" => defEnd
  | "+" => operator .add
  | "-" => operator .sub
  | "*" => operator .mul
  | "/" => operator .div
  | "DUP" => shuffle .dup
  | "DROP" => shuffle .drop
  | "SWAP" => shuffle .swap
  | "OVER" => shuffle .copySecond
  | w => unknown w

end Token

/-- The meaning of `w`. A numeral that does not fit a cell has none. -/
def classify (d : Dictionary) (w : Word) : Except Fault Token :=
  match Numeral.value? w with
  | some n =>
    match Cell.ofInt? n with
    | some c => .ok (.literal c)
    | none => .error .integerOverflow
  | none =>
    match d.body? w with
    | some body => .ok (.call w body)
    | none => .ok (Token.builtIn w)

theorem Token.builtIn_ne_call (w name : Word) (body : List Word) :
    Token.builtIn w ≠ .call name body := by
  unfold Token.builtIn
  split <;> exact nofun

/-- Only a defined word is a call, and it calls its body. -/
theorem body?_of_classify_call {d : Dictionary} {w name : Word} {body : List Word}
    (h : classify d w = .ok (.call name body)) : name = w ∧ d.body? w = some body := by
  unfold classify at h
  split at h
  · split at h <;> cases h
  · split at h
    · rename_i hb
      cases h
      exact ⟨rfl, hb⟩
    · exact absurd (Except.ok.inj h) (Token.builtIn_ne_call w name body)

end WordCalc
