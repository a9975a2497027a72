import Wordcode.Code.Opcode

/-!
Instructions and their words: the word of the opcode, then the immediates. `decode` reads one
instruction, and `sweep` all of a stretch up to the first address where none can be read.
-/

namespace Wordcode

/-- A jump's offset counts from the address of the offset word, one past the opcode. -/
inductive Instruction where
  | unary (op : UnaryOperator)
  | binary (op : BinaryOperator)
  | load (slot : Word)
  | store (slot : Word)
  | int (value : Word)
  | jumpIfFalse (offset : Word)
  | jump (offset : Word)
  | stackAdjust (count : Word)
  | call (argc target : Word)
  | ret
  | pop
deriving DecidableEq, Inhabited

namespace Instruction

def opcode : Instruction → Opcode
  | unary op => .unary op
  | binary op => .binary op
  | load _ => .load
  | store _ => .store
  | int _ => .int
  | jumpIfFalse _ => .jumpIfFalse
  | jump _ => .jump
  | stackAdjust _ => .stackAdjust
  | call _ _ => .call
  | ret => .ret
  | pop => .pop

def immediates : Instruction → List Word
  | load w | store w | int w | jumpIfFalse w | jump w | stackAdjust w => [w]
  | call argc target => [argc, target]
  | unary _ | binary _ | ret | pop => []

def encode (i : Instruction) : List Word := i.opcode.word :: i.immediates

def width (i : Instruction) : Nat := 1 + i.opcode.immediates

theorem width_pos (i : Instruction) : 0 < i.width := by unfold width; omega

theorem length_immediates (i : Instruction) : i.immediates.length = i.opcode.immediates := by
  cases i with
  | unary op => cases op <;> rfl
  | binary op => cases op <;> rfl
  | _ => rfl

theorem length_encode (i : Instruction) : i.encode.length = i.width := by
  rw [encode, List.length_cons, length_immediates, width, Nat.add_comm]

theorem width_binary (op : BinaryOperator) : (binary op).width = 1 := by
  rw [width, ← length_immediates]
  rfl

def jumpTarget (i : Instruction) (address : Nat) : Option Word :=
  match i with
  | jump offset | jumpIfFalse offset =>
    (Word.add? (.ofNat address) 1).bind (Word.add? · offset)
  | _ => none

def isConditional : Instruction → Bool
  | jumpIfFalse _ => true
  | _ => false

def ofPlain : (op : Opcode) → (Fin op.immediates → Word) → Instruction
  | .load, immediate => load (immediate ⟨0, by decide⟩)
  | .store, immediate => store (immediate ⟨0, by decide⟩)
  | .int, immediate => int (immediate ⟨0, by decide⟩)
  | .jumpIfFalse, immediate => jumpIfFalse (immediate ⟨0, by decide⟩)
  | .jump, immediate => jump (immediate ⟨0, by decide⟩)
  | .stackAdjust, immediate => stackAdjust (immediate ⟨0, by decide⟩)
  | .call, immediate => call (immediate ⟨0, by decide⟩) (immediate ⟨1, by decide⟩)
  | .ret, _ => ret
  | _, _ => pop

def ofOpcode (op : Opcode) (immediate : Fin op.immediates → Word) : Instruction :=
  if h : op.isUnary then unary (op.unary?.get (op.isUnary_eq ▸ h))
  else if h : op.isBinary then binary (op.binary?.get (op.isBinary_eq ▸ h))
  else ofPlain op immediate

theorem ofOpcode_unary (op : UnaryOperator) (immediate : Fin (Opcode.unary op).immediates → Word) :
    ofOpcode (.unary op) immediate = unary op := by
  cases op <;> rfl

theorem ofOpcode_binary (op : BinaryOperator)
    (immediate : Fin (Opcode.binary op).immediates → Word) :
    ofOpcode (.binary op) immediate = binary op := by
  cases op <;> rfl

theorem ofOpcode_plain {op : Opcode} (immediate : Fin op.immediates → Word)
    (hunary : op.unary? = none) (hbinary : op.binary? = none) :
    ofOpcode op immediate = ofPlain op immediate := by
  rw [ofOpcode, dif_neg (by simp [Opcode.isUnary_eq, hunary]),
    dif_neg (by simp [Opcode.isBinary_eq, hbinary])]

theorem ofOpcode_immediates (i : Instruction) :
    ofOpcode i.opcode (fun k => i.immediates.get (k.cast i.length_immediates.symm)) = i := by
  cases i with
  | unary op => exact ofOpcode_unary op _
  | binary op => exact ofOpcode_binary op _
  | _ => exact ofOpcode_plain _ rfl rfl

theorem exists_ofOpcode (i : Instruction) : ∃ immediate, ofOpcode i.opcode immediate = i :=
  ⟨_, i.ofOpcode_immediates⟩

theorem exists_call {i : Instruction} (h : i.opcode = .call) :
    ∃ argc target, i = call argc target := by
  obtain ⟨immediate, hi⟩ := h ▸ i.exists_ofOpcode
  exact ⟨_, _, hi.symm⟩

theorem eq_ret {i : Instruction} (h : i.opcode = .ret) : i = ret := by
  obtain ⟨immediate, hi⟩ := h ▸ i.exists_ofOpcode
  exact hi.symm

end Instruction

inductive DecodeError where
  | outOfBounds (address : Nat)
  | invalidOpcode (word : Word) (address : Nat)
  | truncated (opcode : Opcode) (address : Nat)
deriving DecidableEq

def DecodeError.message : DecodeError → String
  | outOfBounds address => s!"Address {address} is outside the instruction stream"
  | invalidOpcode word address => "Invalid opcode " ++ word.text ++ s!" at address {address}"
  | truncated opcode address =>
    "Truncated instruction " ++ opcode.mnemonic ++ s!" at address {address}"

def decode (code : Array Word) (address : Nat) : Except DecodeError Instruction :=
  match code[address]? with
  | none => .error (.outOfBounds address)
  | some word =>
    match Opcode.ofWord? word with
    | none => .error (.invalidOpcode word address)
    | some op =>
      if h : address + 1 + op.immediates ≤ code.size then
        .ok (.ofOpcode op fun i => code[address + 1 + i])
      else .error (.truncated op address)

abbrev Decoded := Except DecodeError (Nat × Instruction)

def sweepFrom (code : Array Word) (stop address : Nat) : List Decoded :=
  if address < stop then
    match decode code address with
    | .ok i => .ok (address, i) :: sweepFrom code stop (address + i.width)
    | .error e => [.error e]
  else []
termination_by stop - address
decreasing_by have := i.width_pos; omega

def sweep (code : Array Word) (start stop : Nat) : List Decoded :=
  sweepFrom code (min stop code.size) start

end Wordcode
