import WordCalc.Numeral
import WordCalc.Text

/-!
# Faults and events

What a session tells about its evaluations: the causes for which they stop, with the wording in
which each is reported, and the journal of what happened, in order.
-/

namespace WordCalc

/-! ## Faults -/

/-- A cause for which an evaluation stops. -/
inductive Fault where
  /-- Fewer values on the stack than the word needs. -/
  | stackUnderflow
  /-- A zero on top of the stack where the operator refuses it. -/
  | divideByZero
  /-- A definition of a numeral. -/
  | illegalName (name : Word)
  /-- A definition without a name. -/
  | missingName
  /-- A definition whose last word is not the end mark. -/
  | unterminated (name : Word)
  /-- A word without a meaning, or an end mark outside a definition. -/
  | undefinedWord (word : Word)
  /-- A definition that would contain its own name. -/
  | cyclicDefinition (name : Word)
  /-- A numeral or a result that does not fit a cell. -/
  | integerOverflow
  /-- More words than the limit allows. -/
  | stepLimit (limit : Nat)
  deriving DecidableEq

/-- The report of a fault. -/
def Fault.message : Fault → String
  | stackUnderflow => "stack underflow"
  | divideByZero => "divided by zero"
  | illegalName name => "illegal macro name " ++ name
  | missingName => "missing macro name after :"
  | unterminated name => "macro " ++ name ++ " not terminated with ;"
  | undefinedWord word => "can't understand " ++ word
  | cyclicDefinition name => "macro " ++ name ++ " expands into itself"
  | integerOverflow => "integer overflow"
  | stepLimit limit => "gave up after " ++ Numeral.writeNat limit ++ " steps"

/-! ## Events -/

/-- Something that happens in a session. -/
inductive Event where
  /-- A word is about to take effect on a stack of the given depth. -/
  | dispatched (word : Word) (depth : Nat)
  /-- A definition is recorded; `redefined` tells whether its name was defined before. -/
  | recorded (name : Word) (body : String) (redefined : Bool)
  /-- A line is given up. -/
  | aborted (fault : Fault)
  /-- A sequence of lines has come to its end. -/
  | finished (depth definitions steps : Nat)
  deriving DecidableEq

/-- How much an event matters. -/
inductive Level where
  | trace
  | debug
  deriving DecidableEq

namespace Level

/-- The name of a level in the journal. -/
def label : Level → String
  | trace => "TRACE"
  | debug => "DEBUG"

end Level

namespace Event

/-- Single words are of the lower level. -/
def level : Event → Level
  | dispatched .. => .trace
  | recorded .. | aborted _ | finished .. => .debug

/-- The kind of an event in words. -/
def message : Event → String
  | dispatched .. => "dispatch"
  | recorded .. => "recorded macro"
  | aborted _ => "evaluation aborted"
  | finished .. => "evaluation finished"

end Event

end WordCalc
