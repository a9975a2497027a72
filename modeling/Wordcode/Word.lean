/-!
Machine words: signed, 64 bits wide, wrapping. The same words fill the instruction stream and the
operand stack.
-/

namespace Wordcode

/-- One cell of the instruction stream or of the operand stack. -/
abbrev Word := Int64

namespace Word

def text (w : Word) : String := toString w.toInt

def toIndex? (w : Word) : Option Nat :=
  if 0 ≤ w.toInt then some w.toInt.toNat else none

def ofBool (b : Bool) : Word := if b then 1 else 0

def add? (a b : Word) : Option Word :=
  let sum := a.toInt + b.toInt
  if Int64.minValue.toInt ≤ sum ∧ sum ≤ Int64.maxValue.toInt then some (.ofInt sum) else none

end Word

end Wordcode
