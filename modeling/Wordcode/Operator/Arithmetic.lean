import Wordcode.Operator.Basic
import Wordcode.Word

/-!
What the operators compute. Sums, products and negations wrap, quotients go toward zero, and a right
shift repeats the sign bit. Relations and logical operators answer 1 or 0.
-/

namespace Wordcode

inductive ArithmeticError where
  | divisionByZero
  | shiftOutOfRange (amount : Word)
deriving DecidableEq

def UnaryOperator.apply : UnaryOperator → Word → Word
  | .plus, a => a
  | .minus, a => -a
  | .not, a => .ofBool (a == 0)
  | .bitNot, a => ~~~a

namespace BinaryOperator

def shiftAmount (amount : Word) : Except ArithmeticError Word :=
  if 0 ≤ amount.toInt ∧ amount.toInt < 64 then .ok amount else .error (.shiftOutOfRange amount)

/-- `op.apply a b` is `a op b`. -/
def apply : BinaryOperator → Word → Word → Except ArithmeticError Word
  | add, a, b => .ok (a + b)
  | sub, a, b => .ok (a - b)
  | mul, a, b => .ok (a * b)
  | div, a, b => if b = 0 then .error .divisionByZero else .ok (a / b)
  | mod, a, b => if b = 0 then .error .divisionByZero else .ok (a % b)
  | bitAnd, a, b => .ok (a &&& b)
  | bitOr, a, b => .ok (a ||| b)
  | bitXor, a, b => .ok (a ^^^ b)
  | shiftLeft, a, b => (shiftAmount b).map (a <<< ·)
  | shiftRight, a, b => (shiftAmount b).map (a >>> ·)
  | equal, a, b => .ok (.ofBool (a == b))
  | notEqual, a, b => .ok (.ofBool (a != b))
  | less, a, b => .ok (.ofBool (decide (a < b)))
  | lessEqual, a, b => .ok (.ofBool (decide (a ≤ b)))
  | greater, a, b => .ok (.ofBool (decide (b < a)))
  | greaterEqual, a, b => .ok (.ofBool (decide (b ≤ a)))
  | logicalAnd, a, b => .ok (.ofBool (a != 0 && b != 0))
  | logicalOr, a, b => .ok (.ofBool (a != 0 || b != 0))

end BinaryOperator

end Wordcode
