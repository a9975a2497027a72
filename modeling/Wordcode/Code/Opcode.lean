import Wordcode.Operator.Basic
import Wordcode.Word

/-!
Opcodes and the words that stand for them. The word of an operator carries a class bit besides its
number.
-/

namespace Wordcode

inductive Opcode where
  | plus | minus | not | bitNot
  | add | sub | mul | div | mod
  | equal | notEqual | less | lessEqual | greater | greaterEqual
  | bitOr | bitXor | bitAnd | shiftLeft | shiftRight
  | logicalAnd | logicalOr
  | load | store | int | jumpIfFalse | jump | stackAdjust | call | ret | pop
deriving DecidableEq, Inhabited

namespace Opcode

def unaryFlag : Word := 0x80000000

def binaryFlag : Word := 0x40000000

/-- In the order of the numbers, which start at 1. -/
def all : Array Opcode :=
  #[plus, minus, not, bitNot, add, sub, mul, div, mod, equal, notEqual, less, lessEqual, greater,
    greaterEqual, bitOr, bitXor, bitAnd, shiftLeft, shiftRight, logicalAnd, logicalOr,
    load, store, int, jumpIfFalse, jump, stackAdjust, call, ret, pop]

def word : Opcode → Word
  | plus => 1 ||| unaryFlag
  | minus => 2 ||| unaryFlag
  | not => 3 ||| unaryFlag
  | bitNot => 4 ||| unaryFlag
  | add => 5 ||| binaryFlag
  | sub => 6 ||| binaryFlag
  | mul => 7 ||| binaryFlag
  | div => 8 ||| binaryFlag
  | mod => 9 ||| binaryFlag
  | equal => 10 ||| binaryFlag
  | notEqual => 11 ||| binaryFlag
  | less => 12 ||| binaryFlag
  | lessEqual => 13 ||| binaryFlag
  | greater => 14 ||| binaryFlag
  | greaterEqual => 15 ||| binaryFlag
  | bitOr => 16 ||| binaryFlag
  | bitXor => 17 ||| binaryFlag
  | bitAnd => 18 ||| binaryFlag
  | shiftLeft => 19 ||| binaryFlag
  | shiftRight => 20 ||| binaryFlag
  | logicalAnd => 21 ||| binaryFlag
  | logicalOr => 22 ||| binaryFlag
  | load => 23
  | store => 24
  | int => 25
  | jumpIfFalse => 26
  | jump => 27
  | stackAdjust => 28
  | call => 29
  | ret => 30
  | pop => 31

/-- Without its class bit a word is an index into the table; it stands for the opcode found there
only if it has the class bit of that opcode and no other. -/
def ofWord? (w : Word) : Option Opcode :=
  match Word.toIndex? (w &&& ~~~(unaryFlag ||| binaryFlag)) with
  | some (n + 1) => all[n]?.filter (·.word == w)
  | _ => none

def isUnary (op : Opcode) : Bool := op.word &&& unaryFlag != 0

def isBinary (op : Opcode) : Bool := op.word &&& binaryFlag != 0

def immediates : Opcode → Nat
  | load | store | int | jumpIfFalse | jump | stackAdjust => 1
  | call => 2
  | _ => 0

def mnemonic : Opcode → String
  | plus => "op_pos"
  | minus => "op_neg"
  | not => "op_lognot"
  | bitNot => "op_bitnot"
  | add => "op_add"
  | sub => "op_sub"
  | mul => "op_mul"
  | div => "op_div"
  | mod => "op_mod"
  | equal => "op_eq"
  | notEqual => "op_neq"
  | less => "op_lt"
  | lessEqual => "op_lte"
  | greater => "op_gt"
  | greaterEqual => "op_gte"
  | bitOr => "op_bitwise_or"
  | bitXor => "op_bitwise_xor"
  | bitAnd => "op_bitwise_and"
  | shiftLeft => "op_shift_left"
  | shiftRight => "op_shift_right"
  | logicalAnd => "op_logical_and"
  | logicalOr => "op_logical_or"
  | load => "op_load"
  | store => "op_store"
  | int => "op_int"
  | jumpIfFalse => "op_jump_if"
  | jump => "op_jump"
  | stackAdjust => "op_stk_adj"
  | call => "op_call"
  | ret => "op_return"
  | pop => "op_pop"

def unary : UnaryOperator → Opcode
  | .plus => plus
  | .minus => minus
  | .not => not
  | .bitNot => bitNot

def binary : BinaryOperator → Opcode
  | .add => add
  | .sub => sub
  | .mul => mul
  | .div => div
  | .mod => mod
  | .bitAnd => bitAnd
  | .bitOr => bitOr
  | .bitXor => bitXor
  | .shiftLeft => shiftLeft
  | .shiftRight => shiftRight
  | .equal => equal
  | .notEqual => notEqual
  | .less => less
  | .lessEqual => lessEqual
  | .greater => greater
  | .greaterEqual => greaterEqual
  | .logicalAnd => logicalAnd
  | .logicalOr => logicalOr

def unary? : Opcode → Option UnaryOperator
  | plus => some .plus
  | minus => some .minus
  | not => some .not
  | bitNot => some .bitNot
  | _ => none

def binary? : Opcode → Option BinaryOperator
  | add => some .add
  | sub => some .sub
  | mul => some .mul
  | div => some .div
  | mod => some .mod
  | bitAnd => some .bitAnd
  | bitOr => some .bitOr
  | bitXor => some .bitXor
  | shiftLeft => some .shiftLeft
  | shiftRight => some .shiftRight
  | equal => some .equal
  | notEqual => some .notEqual
  | less => some .less
  | lessEqual => some .lessEqual
  | greater => some .greater
  | greaterEqual => some .greaterEqual
  | logicalAnd => some .logicalAnd
  | logicalOr => some .logicalOr
  | _ => none

theorem ofWord?_word (op : Opcode) : ofWord? op.word = some op := by
  cases op <;> rfl

/-- A word with a wrong class bit, or with bits that no opcode has, is refused. -/
theorem word_of_ofWord? {w : Word} {op : Opcode} (h : ofWord? w = some op) : op.word = w := by
  unfold ofWord? at h
  split at h
  · exact eq_of_beq (Option.filter_eq_some_iff.mp h).2
  · cases h

/-- The class bits tell the operators from one another and from all other opcodes. -/
theorem isUnary_eq (op : Opcode) : op.isUnary = op.unary?.isSome := by
  cases op <;> rfl

theorem isBinary_eq (op : Opcode) : op.isBinary = op.binary?.isSome := by
  cases op <;> rfl

theorem unary_ne {o : Opcode} (op : UnaryOperator) (h : o.unary? = none) : unary op ≠ o := by
  rintro rfl
  cases op <;> cases h

theorem binary_ne {o : Opcode} (op : BinaryOperator) (h : o.binary? = none) : binary op ≠ o := by
  rintro rfl
  cases op <;> cases h

/-- Opcodes by class. -/
@[elab_as_elim, cases_eliminator]
theorem byClass {motive : Opcode → Prop} (unary : ∀ op, motive (unary op))
    (binary : ∀ op, motive (binary op)) (load : motive load) (store : motive store)
    (int : motive int) (jumpIfFalse : motive jumpIfFalse) (jump : motive jump)
    (stackAdjust : motive stackAdjust) (call : motive call) (ret : motive ret) (pop : motive pop) :
    (op : Opcode) → motive op
  | .plus => unary .plus
  | .minus => unary .minus
  | .not => unary .not
  | .bitNot => unary .bitNot
  | .add => binary .add
  | .sub => binary .sub
  | .mul => binary .mul
  | .div => binary .div
  | .mod => binary .mod
  | .bitAnd => binary .bitAnd
  | .bitOr => binary .bitOr
  | .bitXor => binary .bitXor
  | .shiftLeft => binary .shiftLeft
  | .shiftRight => binary .shiftRight
  | .equal => binary .equal
  | .notEqual => binary .notEqual
  | .less => binary .less
  | .lessEqual => binary .lessEqual
  | .greater => binary .greater
  | .greaterEqual => binary .greaterEqual
  | .logicalAnd => binary .logicalAnd
  | .logicalOr => binary .logicalOr
  | .load => load
  | .store => store
  | .int => int
  | .jumpIfFalse => jumpIfFalse
  | .jump => jump
  | .stackAdjust => stackAdjust
  | .call => call
  | .ret => ret
  | .pop => pop

end Opcode

end Wordcode
