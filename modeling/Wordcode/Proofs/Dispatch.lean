import Wordcode.Proofs.Frames
import Wordcode.Proofs.Sweep

/-!
A machine that decodes before it acts. Main statement: on code that fits into the address space it
runs exactly as the machine that takes the words one by one.
-/

namespace Wordcode

namespace Exec

def leap (code : Array Word) (address : Nat) : Option Word → Exec Unit
  | none => throw (.invalidJumpTarget Int64.maxValue address)
  | some target =>
    match target.toIndex? with
    | some i => if i ≤ code.size then goTo i else throw (.invalidJumpTarget target address)
    | none => throw (.invalidJumpTarget target address)

end Exec

/-- The faults that come of a place where no instruction can be read. A conditional jump without its
offset misses its condition first. -/
inductive DecodeError.CanRaise : DecodeError → Fault → Prop where
  | outOfBounds (a : Nat) : CanRaise (.outOfBounds a) (.fellOffEnd a)
  | invalidOpcode (w : Word) (a : Nat) : CanRaise (.invalidOpcode w a) (.invalidOpcode w a)
  | truncated (op : Opcode) (a : Nat) : CanRaise (.truncated op a) (.truncated a)
  | underflow (a : Nat) : CanRaise (.truncated .jumpIfFalse a) (.stackUnderflow a)

def Instruction.perform (limit : Nat) (code : Array Word) (address : Nat) :
    Instruction → Exec (Option Word)
  | unary op => do
    let a ← Exec.pop address
    Exec.push (op.apply a)
    return none
  | binary op => do
    let b ← Exec.pop address
    let a ← Exec.pop address
    match op.apply a b with
    | .ok w =>
      Exec.push w
      return none
    | .error e => throw (.ofArithmetic address e)
  | load slot => Exec.loadSlot slot address
  | store slot => Exec.storeSlot slot address
  | int w => do
    Exec.push w
    return none
  | jumpIfFalse offset => do
    let w ← Exec.pop address
    if w = 0 then
      Exec.leap code address ((jumpIfFalse offset).jumpTarget address)
      return none
    else return none
  | jump offset => do
    Exec.leap code address ((jump offset).jumpTarget address)
    return none
  | stackAdjust count => do
    Exec.adjust count address
    return none
  | call argc target => do
    Exec.enter limit code argc target address
    return none
  | ret => do
    let w ← Exec.pop address
    Exec.leave w
  | pop => do
    let _ ← Exec.pop address
    return none

namespace Exec

/-- Runs the instruction that is decoded at the program counter. Where there is none, the fault is
that of the decoder, but a conditional jump without its offset asks for its condition first. -/
def stepDecoded (limit : Nat) (code : Array Word) : Exec (Option Word) := do
  let s ← get
  match decode code s.pc with
  | .ok i =>
    goTo (s.pc + i.width)
    i.perform limit code s.pc
  | .error (.outOfBounds address) => throw (.fellOffEnd address)
  | .error (.invalidOpcode word address) => throw (.invalidOpcode word address)
  | .error (.truncated op address) =>
    if op = .jumpIfFalse ∧ s.frame.top ≤ s.frame.floor then throw (.stackUnderflow address)
    else throw (.truncated address)

def runDecoded (limit : Nat) (code : Array Word) : Nat → State → Option Outcome
  | 0, _ => none
  | steps + 1, s =>
    match (stepDecoded limit code).run s with
    | .ok (some w) s => some ⟨.ok w, s⟩
    | .error f s => some ⟨.error f, s⟩
    | .ok none s => runDecoded limit code steps s

end Exec

def Machine.executeDecoded (m : Machine) (steps : Nat) (code : Array Word) (entry base : Nat) :
    Option (Except Fault Word × Machine) :=
  if m.stack.size < base then some (.error (.stackOverflow m.stack.size), m)
  else
    (Exec.runDecoded m.limits.callDepth code steps (m.start entry base)).map fun o =>
      (o.result, after m.limits o.state)

namespace Exec

section Decoding

variable {code : Array Word} {address : Nat}

theorem opcodeAt_of_word {op : Opcode} (h : code[address]? = some op.word) :
    opcodeAt code address = some op := by
  rw [opcodeAt, h, Option.bind_some, Opcode.ofWord?_word]

theorem opcodeAt_of_holds {i : Instruction} (h : Holds code address i.encode) :
    opcodeAt code address = some i.opcode := opcodeAt_of_word h.head

theorem decode_eq_ok {i : Instruction} (h : opcodeAt code address = some i.opcode)
    (hi : Holds code (address + 1) i.immediates) : decode code address = .ok i := by
  obtain ⟨word, hword, hop⟩ := Option.bind_eq_some_iff.mp h
  exact decode_of_holds (.cons (Opcode.word_of_ofWord? hop ▸ hword) hi)

theorem decode_eq_truncated {op : Opcode} (h : opcodeAt code address = some op)
    (hsize : code.size < address + 1 + op.immediates) :
    decode code address = .error (.truncated op address) := by
  obtain ⟨word, hword, hop⟩ := Option.bind_eq_some_iff.mp h
  simp only [decode, hword, hop, dif_neg (Nat.not_le.mpr hsize)]

theorem stepDecoded_of_decode {s : State} {i : Instruction} (limit : Nat)
    (h : decode code s.pc = .ok i) :
    stepDecoded limit code s = i.perform limit code s.pc { s with pc := s.pc + i.width } := by
  rw [stepDecoded, get_bind, h]
  rfl

theorem stepDecoded_of_truncated {s : State} {op : Opcode} (limit : Nat)
    (h : decode code s.pc = .error (.truncated op s.pc)) :
    stepDecoded limit code s =
      if op = .jumpIfFalse ∧ s.frame.top ≤ s.frame.floor then .error (.stackUnderflow s.pc) s
      else .error (.truncated s.pc) s := by
  rw [stepDecoded, get_bind, h]
  dsimp only
  split <;> rfl

/-- A step performs the instruction at the program counter, or faults because there is none. -/
theorem stepDecoded_cases (limit : Nat) (code : Array Word) (s : State) :
    (∃ i, decode code s.pc = .ok i ∧
      stepDecoded limit code s = i.perform limit code s.pc { s with pc := s.pc + i.width }) ∨
      ∃ e f, decode code s.pc = .error e ∧ e.CanRaise f ∧
        stepDecoded limit code s = .error f s := by
  cases hi : decode code s.pc with
  | ok i => exact Or.inl ⟨i, rfl, stepDecoded_of_decode limit hi⟩
  | error e =>
    right
    rw [stepDecoded, get_bind, hi]
    cases e with
    | outOfBounds a => exact ⟨_, _, rfl, .outOfBounds a, rfl⟩
    | invalidOpcode w a => exact ⟨_, _, rfl, .invalidOpcode w a, rfl⟩
    | truncated op a =>
      dsimp only
      split
      next hop => exact ⟨_, _, rfl, hop.1 ▸ .underflow a, rfl⟩
      next => exact ⟨_, _, rfl, .truncated op a, rfl⟩

end Decoding

/-- Two actions come to the same. After a fault, program counter and frame no longer matter. -/
inductive SameEnd {α : Type} :
    EStateM.Result Fault State α → EStateM.Result Fault State α → Prop where
  | ok (a : α) (s : State) : SameEnd (.ok a s) (.ok a s)
  | error (f : Fault) {s t : State} (stack : s.stack = t.stack) (depth : s.depth = t.depth)
      (callers : s.callers = t.callers) : SameEnd (.error f s) (.error f t)

namespace SameEnd

variable {α β : Type}

theorem refl : (r : EStateM.Result Fault State α) → SameEnd r r
  | .ok a s => .ok a s
  | .error f _ => .error f rfl rfl rfl

theorem bind {x y : Exec α} {s t : State} (h : SameEnd (x s) (y t)) (k : α → Exec β) :
    SameEnd ((x >>= k) s) ((y >>= k) t) := by
  generalize hx : x s = r, hy : y t = r' at h
  cases h with
  | ok a u =>
    rw [bind_ok hx, bind_ok hy]
    exact refl _
  | error f stack depth callers =>
    rw [bind_error hx, bind_error hy]
    exact .error f stack depth callers

end SameEnd

section Dispatch

variable {code : Array Word} {limit : Nat} {s : State}

/-- A jump leads where its decoded form says. -/
theorem follow_same {offset : Word} {pc : Nat} (hcode : code.size < addressSpace)
    (hoffset : code[s.pc]? = some offset) {address : Nat} (hpc : s.pc = address + 1) :
    SameEnd (follow code address s)
      (leap code address ((Instruction.jump offset).jumpTarget address) { s with pc }) := by
  have hlt : address + 1 < code.size := hpc ▸ (Array.getElem?_eq_some_iff.mp hoffset).1
  rw [Instruction.jumpTarget_eq_add? rfl (Nat.lt_trans hlt hcode), follow_apply, hoffset, ← hpc]
  dsimp only
  cases Word.add? (.ofNat s.pc) offset with
  | none => exact .error _ rfl rfl rfl
  | some target =>
    dsimp only [leap]
    cases target.toIndex? with
    | none => exact .error _ rfl rfl rfl
    | some i =>
      dsimp only
      split
      next => exact .ok () _
      next => exact .error _ rfl rfl rfl

/-- The offset of a conditional jump is missed once the condition was there. -/
theorem jumpIfFalse_truncated (hoffset : code[s.pc + 1]? = none) :
    SameEnd (perform limit code s.pc .jumpIfFalse { s with pc := s.pc + 1 })
      (if s.frame.top ≤ s.frame.floor then .error (.stackUnderflow s.pc) s
        else .error (.truncated s.pc) s) := by
  have hpop := pop_apply { s with pc := s.pc + 1 } s.pc
  by_cases hempty : s.frame.top ≤ s.frame.floor
  · rw [if_neg (Nat.not_lt.mpr hempty)] at hpop
    rw [if_pos hempty, perform_plain limit code rfl rfl, performPlain, bind_error hpop]
    exact .error _ rfl rfl rfl
  · rw [if_pos (Nat.lt_of_not_le hempty)] at hpop
    rw [if_neg hempty, perform_plain limit code rfl rfl, performPlain, bind_ok hpop]
    split
    next =>
      have hfollow := follow_apply
        { s with pc := s.pc + 1, frame := { s.frame with top := s.frame.top - 1 } } s.pc code
      rw [hoffset] at hfollow
      rw [bind_error hfollow]
      exact .error _ rfl rfl rfl
    next =>
      have himmediate := immediate_apply
        { s with pc := s.pc + 1, frame := { s.frame with top := s.frame.top - 1 } } s.pc code
      rw [hoffset] at himmediate
      rw [bind_error himmediate]
      exact .error _ rfl rfl rfl

/-- Opcodes that stand alone. -/
theorem plain_same {i : Instruction} (hop : opcodeAt code s.pc = some i.opcode)
    (hi : i.immediates = [])
    (hperform : perform limit code s.pc i.opcode = i.perform limit code s.pc) :
    SameEnd (step limit code s) (stepDecoded limit code s) := by
  have hok := decode_eq_ok hop (hi ▸ .nil code _)
  have hwidth : i.width = 1 := by rw [← i.length_encode, Instruction.encode, hi]; rfl
  rw [step_of_opcode limit hop, stepDecoded_of_decode limit hok, hwidth, hperform]
  exact .refl _

/-- Opcodes that take their one immediate first. -/
theorem immediate_same (make : Word → Instruction) {op : Opcode} {k : Word → Exec (Option Word)}
    (hop : opcodeAt code s.pc = some op) (hne : op ≠ .jumpIfFalse)
    (hopcode : ∀ w, (make w).opcode = op) (hmake : ∀ w, (make w).immediates = [w])
    (hperform : perform limit code s.pc op = immediate code s.pc >>= k)
    (hk : ∀ w, (make w).perform limit code s.pc = k w) :
    SameEnd (step limit code s) (stepDecoded limit code s) := by
  have himmediate := immediate_apply { s with pc := s.pc + 1 } s.pc code
  have hcount : op.immediates = 1 := by
    rw [← hopcode 0, ← Instruction.length_immediates, hmake]
    rfl
  rw [step_of_opcode limit hop, hperform]
  cases hw : code[s.pc + 1]? with
  | none =>
    have hsize := Array.getElem?_eq_none_iff.mp hw
    have htruncated := decode_eq_truncated hop (by omega)
    rw [hw] at himmediate
    rw [stepDecoded_of_truncated limit htruncated, if_neg (fun h => hne h.1),
      bind_error himmediate]
    exact .error _ rfl rfl rfl
  | some w =>
    have hok := decode_eq_ok ((hopcode w).symm ▸ hop) (hmake w ▸ .cons hw (.nil code _))
    have hwidth : (make w).width = 2 := by rw [Instruction.width, hopcode, hcount]
    rw [hw] at himmediate
    rw [stepDecoded_of_decode limit hok, hwidth, hk, bind_ok himmediate]
    exact .refl _

theorem jump_same (hcode : code.size < addressSpace) (hop : opcodeAt code s.pc = some .jump) :
    SameEnd (step limit code s) (stepDecoded limit code s) := by
  rw [step_of_opcode limit hop]
  cases hw : code[s.pc + 1]? with
  | none =>
    have hfollow := follow_apply { s with pc := s.pc + 1 } s.pc code
    have htruncated := decode_eq_truncated hop
      (Nat.lt_succ_of_le (Array.getElem?_eq_none_iff.mp hw))
    rw [hw] at hfollow
    rw [stepDecoded_of_truncated limit htruncated, if_neg (by simp),
      perform_plain limit code rfl rfl, performPlain, bind_error hfollow]
    exact .error _ rfl rfl rfl
  | some offset =>
    have hok := decode_eq_ok (i := .jump offset) hop (.cons hw (.nil code _))
    rw [stepDecoded_of_decode limit hok]
    exact (follow_same hcode hw rfl).bind _

theorem jumpIfFalse_same (hcode : code.size < addressSpace)
    (hop : opcodeAt code s.pc = some .jumpIfFalse) :
    SameEnd (step limit code s) (stepDecoded limit code s) := by
  rw [step_of_opcode limit hop]
  cases hw : code[s.pc + 1]? with
  | none =>
    have htruncated := decode_eq_truncated hop
      (Nat.lt_succ_of_le (Array.getElem?_eq_none_iff.mp hw))
    rw [stepDecoded_of_truncated limit htruncated]
    simpa only [true_and] using jumpIfFalse_truncated hw
  | some offset =>
    have hok := decode_eq_ok (i := .jumpIfFalse offset) hop (.cons hw (.nil code _))
    have hpop := pop_apply { s with pc := s.pc + 1 } s.pc
    have hpop' := pop_apply { s with pc := s.pc + (Instruction.jumpIfFalse offset).width } s.pc
    rw [stepDecoded_of_decode limit hok, perform_plain limit code rfl rfl, performPlain,
      Instruction.perform]
    by_cases hlt : s.frame.floor < s.frame.top
    · rw [if_pos hlt] at hpop hpop'
      rw [bind_ok hpop, bind_ok hpop']
      split
      next => exact (follow_same hcode hw rfl).bind _
      next =>
        have himmediate := immediate_apply
          { s with pc := s.pc + 1, frame := { s.frame with top := s.frame.top - 1 } } s.pc code
        rw [hw] at himmediate
        rw [bind_ok himmediate]
        exact .refl _
    · rw [if_neg hlt] at hpop hpop'
      rw [bind_error hpop, bind_error hpop']
      exact .error _ rfl rfl rfl

/-- A call that can be read asks to enter the callee. -/
theorem step_call_cases (limit : Nat) (hop : opcodeAt code s.pc = some .call) :
    (∃ argc target, decode code s.pc = .ok (.call argc target) ∧ s.pc + 3 ≤ code.size ∧
      step limit code s =
        (enter limit code argc target s.pc >>= fun _ => pure none) { s with pc := s.pc + 3 }) ∨
      ∃ n ≤ code.size, decode code s.pc = .error (.truncated .call s.pc) ∧
        step limit code s = .error (.truncated s.pc) { s with pc := n } := by
  have hfirst := immediate_apply { s with pc := s.pc + 1 } s.pc code
  have hsecond := immediate_apply { s with pc := s.pc + 2 } s.pc code
  obtain ⟨word, hword, -⟩ := Option.bind_eq_some_iff.mp hop
  rw [step_of_opcode limit hop, perform_plain limit code rfl rfl, performPlain]
  cases hargc : code[s.pc + 1]? with
  | none =>
    have hdecode := decode_eq_truncated hop
      (Nat.lt_add_right 1 (Nat.lt_succ_of_le (Array.getElem?_eq_none_iff.mp hargc)))
    rw [hargc] at hfirst
    exact Or.inr ⟨_, (Array.getElem?_eq_some_iff.mp hword).1, hdecode, bind_error hfirst⟩
  | some argc =>
    rw [hargc] at hfirst
    rw [bind_ok hfirst]
    cases htarget : code[s.pc + 2]? with
    | none =>
      have hdecode := decode_eq_truncated hop
        (Nat.lt_succ_of_le (Array.getElem?_eq_none_iff.mp htarget))
      rw [htarget] at hsecond
      exact Or.inr ⟨_, (Array.getElem?_eq_some_iff.mp hargc).1, hdecode, bind_error hsecond⟩
    | some target =>
      have hdecode := decode_eq_ok (i := .call argc target) hop
        (.cons hargc (.cons htarget (.nil code _)))
      rw [htarget] at hsecond
      exact Or.inl ⟨argc, target, hdecode, (Array.getElem?_eq_some_iff.mp htarget).1,
        bind_ok hsecond⟩

theorem call_same (hop : opcodeAt code s.pc = some .call) :
    SameEnd (step limit code s) (stepDecoded limit code s) := by
  obtain ⟨argc, target, hdecode, -, hstep⟩ | ⟨n, -, hdecode, hstep⟩ := step_call_cases limit hop
  · rw [hstep, stepDecoded_of_decode limit hdecode]
    exact .refl _
  · rw [hstep, stepDecoded_of_truncated limit hdecode, if_neg (by simp)]
    exact .error _ rfl rfl rfl

/-- One step on the words and one on the decoded instruction come to the same. -/
theorem step_same (hcode : code.size < addressSpace) (limit : Nat) (s : State) :
    SameEnd (step limit code s) (stepDecoded limit code s) := by
  cases hop : opcodeAt code s.pc with
  | none =>
    rw [step_apply, stepDecoded, get_bind, decode]
    cases hword : code[s.pc]? with
    | none => exact .refl _
    | some word =>
      have hnone : Opcode.ofWord? word = none := by
        rw [opcodeAt, hword] at hop
        exact hop
      dsimp only
      rw [hnone]
      exact .error _ rfl rfl rfl
  | some op =>
    cases op with
    | unary op =>
      exact plain_same (i := .unary op) hop rfl (perform_unary limit code op)
    | binary op =>
      exact plain_same (i := .binary op) hop rfl (perform_binary limit code op)
    | load =>
      exact immediate_same .load hop (by decide) (fun _ => rfl) (fun _ => rfl) rfl (fun _ => rfl)
    | store =>
      exact immediate_same .store hop (by decide) (fun _ => rfl) (fun _ => rfl) rfl (fun _ => rfl)
    | int =>
      exact immediate_same .int hop (by decide) (fun _ => rfl) (fun _ => rfl) rfl (fun _ => rfl)
    | jumpIfFalse => exact jumpIfFalse_same hcode hop
    | jump => exact jump_same hcode hop
    | stackAdjust =>
      exact immediate_same .stackAdjust hop (by decide) (fun _ => rfl) (fun _ => rfl) rfl
        (fun _ => rfl)
    | call => exact call_same hop
    | ret => exact plain_same (i := .ret) hop rfl rfl
    | pop => exact plain_same (i := .pop) hop rfl rfl

/-- A step that goes on or answers performed the instruction decoded at the program counter. -/
theorem step_eq_ok {answer : Option Word} {t : State} (hcode : code.size < addressSpace)
    (h : step limit code s = .ok answer t) :
    ∃ i, decode code s.pc = .ok i ∧
      i.perform limit code s.pc { s with pc := s.pc + i.width } = .ok answer t := by
  have hsame := step_same hcode limit s
  rw [h] at hsame
  obtain ⟨i, hi, hdecoded⟩ | ⟨e, f, -, -, hdecoded⟩ := stepDecoded_cases limit code s
  · rw [hdecoded] at hsame
    generalize hperform : i.perform limit code s.pc { s with pc := s.pc + i.width } = r at hsame
    cases hsame
    exact ⟨i, hi, hperform⟩
  · rw [hdecoded] at hsame
    cases hsame

/-- Both machines are left alike, after the same number of steps. -/
theorem runFrom_same (hcode : code.size < addressSpace) (limit : Nat) (limits : Limits)
    (steps : Nat) (s : State) :
    (runFrom limit code steps s).map (fun o => (o.result, Machine.after limits o.state)) =
      (runDecoded limit code steps s).map (fun o => (o.result, Machine.after limits o.state)) := by
  induction steps generalizing s with
  | zero => rfl
  | succ steps ih =>
    have hsame := step_same hcode limit s
    rw [runFrom, runDecoded, EStateM.run, EStateM.run]
    generalize step limit code s = r, stepDecoded limit code s = r' at hsame
    cases hsame with
    | ok answer t =>
      cases answer with
      | none => exact ih t
      | some w => rfl
    | error f stack depth callers =>
      dsimp only [Option.map_some, Machine.after]
      rw [stack, depth, callers]

end Dispatch

end Exec

/-- Whatever the code, the limits, the stack and the frame: taking the words one by one and decoding
whole instructions come to the same, in the same number of steps and with the same stack left. -/
theorem Machine.execute_eq_executeDecoded (m : Machine) (code : Array Word)
    (hcode : code.size < addressSpace) (steps entry base : Nat) :
    m.execute steps code entry base = m.executeDecoded steps code entry base := by
  unfold execute executeDecoded
  split
  next => rfl
  next => exact Exec.runFrom_same hcode _ _ _ _

def Sample.strayCode : Array Word :=
  #[Opcode.int.word, 6, (Opcode.unary .minus).word, Opcode.int.word, 7, (Opcode.binary .mul).word,
    Opcode.jump.word, 2, Opcode.pop.word, Opcode.add.word ||| Opcode.unaryFlag]

theorem Machine.execute_eq_executeDecoded_stray :
    Sample.strayCode.size < addressSpace ∧
      execute ⟨{}, #[9, 9, 9, 9], 0⟩ 6 Sample.strayCode 0 1 =
        executeDecoded ⟨{}, #[9, 9, 9, 9], 0⟩ 6 Sample.strayCode 0 1 ∧
      executeDecoded ⟨{}, #[9, 9, 9, 9], 0⟩ 6 Sample.strayCode 0 1 =
        some (.error (.invalidOpcode (Opcode.add.word ||| Opcode.unaryFlag) 9),
          ⟨{}, #[9, -42, 7, 9], 0⟩) :=
  ⟨by decide, execute_eq_executeDecoded _ _ (by decide) 6 0 1, rfl⟩

end Wordcode
