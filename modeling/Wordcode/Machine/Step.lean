import Wordcode.Code.Opcode
import Wordcode.Machine.Exec

/-!
One instruction of a run. The class bits of its word tell which operators may be meant, before the
opcode is looked up.
-/

namespace Wordcode

namespace Opcode

def applyUnary? (op : Opcode) (a : Word) : Option Word := op.unary?.map (·.apply a)

def applyBinary (op : Opcode) (a b : Word) (address : Nat) : Except Fault Word :=
  match op.binary? with
  | some operator => (operator.apply a b).mapError (.ofArithmetic address)
  | none => .error (.invalidOpcode op.word address)

end Opcode

namespace Exec

def opcode (word : Word) (address : Nat) : Exec Opcode :=
  match Opcode.ofWord? word with
  | some op => return op
  | none => throw (.invalidOpcode word address)

def performUnary (word : Word) (address : Nat) (op : Opcode) : Exec (Option Word) := do
  let a ← pop address
  match op.applyUnary? a with
  | some w =>
    push w
    return none
  | none => throw (.invalidOpcode word address)

def performBinary (address : Nat) (op : Opcode) : Exec (Option Word) := do
  let b ← pop address
  let a ← pop address
  match op.applyBinary a b address with
  | .ok w =>
    push w
    return none
  | .error f => throw f

def performPlain (limit : Nat) (code : Array Word) (word : Word) (address : Nat) :
    Opcode → Exec (Option Word)
  | .load => do
    let slot ← immediate code address
    let i ← localIndex slot address
    let s ← get
    push (s.stack.getD i 0)
    return none
  | .store => do
    let slot ← immediate code address
    let i ← localIndex slot address
    let w ← pop address
    modify fun s => { s with stack := s.stack.setIfInBounds i w }
    return none
  | .int => do
    let w ← immediate code address
    push w
    return none
  | .jumpIfFalse => do
    let w ← pop address
    if w = 0 then
      follow code address
      return none
    else
      let _ ← immediate code address
      return none
  | .jump => do
    follow code address
    return none
  | .stackAdjust => do
    let count ← immediate code address
    adjust count address
    return none
  | .call => do
    let argc ← immediate code address
    let target ← immediate code address
    enter limit code argc target address
    return none
  | .ret => do
    let w ← pop address
    leave w
  | .pop => do
    let _ ← pop address
    return none
  | _ => throw (.invalidOpcode word address)

/-- Runs the instruction at the program counter; the answer is there once the outermost invocation
returns. -/
def step (limit : Nat) (code : Array Word) : Exec (Option Word) := do
  let s ← get
  let address := s.pc
  match code[address]? with
  | none => throw (.fellOffEnd address)
  | some word =>
    goTo (address + 1)
    if word &&& Opcode.unaryFlag != 0 then
      let op ← opcode word address
      performUnary word address op
    else if word &&& Opcode.binaryFlag != 0 then
      let op ← opcode word address
      performBinary address op
    else
      let op ← opcode word address
      performPlain limit code word address op

end Exec

end Wordcode
