/-!
The operators of the language and their spelling.
-/

namespace Wordcode

inductive UnaryOperator where
  | plus | minus | not | bitNot
deriving DecidableEq, Inhabited

inductive BinaryOperator where
  | add | sub | mul | div | mod
  | bitAnd | bitOr | bitXor | shiftLeft | shiftRight
  | equal | notEqual | less | lessEqual | greater | greaterEqual
  | logicalAnd | logicalOr
deriving DecidableEq, Inhabited

namespace UnaryOperator

def all : List UnaryOperator := [plus, minus, not, bitNot]

def symbol : UnaryOperator → String
  | plus => "+"
  | minus => "-"
  | not => "!"
  | bitNot => "~"

def ofSymbol? (s : String) : Option UnaryOperator := all.find? (·.symbol == s)

theorem ofSymbol?_symbol (op : UnaryOperator) : ofSymbol? op.symbol = some op := by
  cases op <;> rfl

end UnaryOperator

namespace BinaryOperator

def all : List BinaryOperator :=
  [add, sub, mul, div, mod, bitAnd, bitOr, bitXor, shiftLeft, shiftRight,
   equal, notEqual, less, lessEqual, greater, greaterEqual, logicalAnd, logicalOr]

def symbol : BinaryOperator → String
  | add => "+"
  | sub => "-"
  | mul => "*"
  | div => "/"
  | mod => "%"
  | bitAnd => "&"
  | bitOr => "|"
  | bitXor => "^"
  | shiftLeft => "<<"
  | shiftRight => ">>"
  | equal => "=="
  | notEqual => "!="
  | less => "<"
  | lessEqual => "<="
  | greater => ">"
  | greaterEqual => ">="
  | logicalAnd => "&&"
  | logicalOr => "||"

def ofSymbol? (s : String) : Option BinaryOperator := all.find? (·.symbol == s)

theorem ofSymbol?_symbol (op : BinaryOperator) : ofSymbol? op.symbol = some op := by
  cases op <;> rfl

end BinaryOperator

end Wordcode
