import Wordcode.Operator.Arithmetic

/-!
The ways a run can fail. A fault carries the address of the instruction at fault, or the limit that
was hit.
-/

namespace Wordcode

inductive Fault where
  | stackOverflow (capacity : Nat)
  | stackUnderflow (address : Nat)
  | divisionByZero (address : Nat)
  | invalidShift (amount : Word) (address : Nat)
  | invalidOpcode (word : Word) (address : Nat)
  | truncated (address : Nat)
  | invalidSlot (slot : Word) (address : Nat)
  | invalidStackAdjust (count : Word) (address : Nat)
  | invalidJumpTarget (target : Word) (address : Nat)
  | callDepthExceeded (limit : Nat)
  | fellOffEnd (address : Nat)
deriving DecidableEq, Inhabited

namespace Fault

def ofArithmetic (address : Nat) : ArithmeticError → Fault
  | .divisionByZero => divisionByZero address
  | .shiftOutOfRange amount => invalidShift amount address

def message : Fault → String
  | stackOverflow capacity => s!"Stack overflow: capacity of {capacity} words exceeded"
  | stackUnderflow address => s!"Stack underflow at address {address}"
  | divisionByZero address => s!"Division by zero at address {address}"
  | invalidShift amount address =>
    "Shift amount " ++ amount.text ++ s!" out of range at address {address}"
  | invalidOpcode word address => "Invalid opcode " ++ word.text ++ s!" at address {address}"
  | truncated address => s!"Truncated instruction at address {address}"
  | invalidSlot slot address => "Invalid slot " ++ slot.text ++ s!" at address {address}"
  | invalidStackAdjust count address =>
    "Invalid stack adjustment " ++ count.text ++ s!" at address {address}"
  | invalidJumpTarget target address =>
    "Invalid jump target " ++ target.text ++ s!" at address {address}"
  | callDepthExceeded limit => s!"Call depth limit of {limit} exceeded"
  | fellOffEnd address =>
    s!"Execution ran past the end of the code at address {address} without returning"

end Fault

end Wordcode
