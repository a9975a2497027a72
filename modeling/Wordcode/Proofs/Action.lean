import Wordcode.Machine.Run

/-!
The actions of the machine as functions of the state: one equation for each action, with every
outcome it can have. Proofs about runs start from these and do not open the actions again.
-/

namespace Wordcode.Exec

variable (s : State) (address : Nat)

section Sequence

variable {ε α β : Type} {x : EStateM ε State α} {k : α → EStateM ε State β} {s s' : State}

theorem bind_ok {a : α} (h : x s = .ok a s') : (x >>= k) s = k a s' := by
  simp only [bind, EStateM.bind, h]

theorem bind_error {f : ε} (h : x s = .error f s') : (x >>= k) s = .error f s' := by
  simp only [bind, EStateM.bind, h]

theorem bind_eq_ok {b : β} (h : (x >>= k) s = .ok b s') :
    ∃ a t, x s = .ok a t ∧ k a t = .ok b s' := by
  cases hx : x s with
  | error f t =>
    rw [bind_error hx] at h
    cases h
  | ok a t =>
    rw [bind_ok hx] at h
    exact ⟨a, t, rfl, h⟩

theorem get_bind (k : State → EStateM ε State α) (s : State) : (get >>= k) s = k s s := rfl

end Sequence

theorem pop_apply :
    pop address s =
      if s.frame.floor < s.frame.top then
        .ok (s.stack.getD (s.frame.top - 1) 0)
          { s with frame := { s.frame with top := s.frame.top - 1 } }
      else .error (.stackUnderflow address) s := by
  unfold pop
  rw [get_bind]
  split <;> rfl

theorem push_apply (w : Word) :
    push w s =
      if s.frame.top < s.stack.size then
        .ok () { s with
          stack := s.stack.setIfInBounds s.frame.top w
          frame := { s.frame with top := s.frame.top + 1 } }
      else .error (.stackOverflow s.capacity) s := by
  unfold push
  rw [get_bind]
  split <;> rfl

theorem localIndex_apply (slot : Word) :
    localIndex slot address s =
      match slot.toIndex? with
      | some i =>
        if i < s.frame.locals then .ok (s.frame.base + i) s
        else .error (.invalidSlot slot address) s
      | none => .error (.invalidSlot slot address) s := by
  unfold localIndex
  rw [get_bind]
  cases slot.toIndex? with
  | none => rfl
  | some i =>
    dsimp only
    split <;> rfl

theorem immediate_apply (code : Array Word) :
    immediate code address s =
      match code[s.pc]? with
      | none => .error (.truncated address) s
      | some w => .ok w { s with pc := s.pc + 1 } := by
  unfold immediate
  rw [get_bind]
  cases code[s.pc]? <;> rfl

theorem follow_apply (code : Array Word) :
    follow code address s =
      match code[s.pc]? with
      | none => .error (.truncated address) s
      | some offset =>
        match Word.add? (.ofNat s.pc) offset with
        | none => .error (.invalidJumpTarget Int64.maxValue address) s
        | some target =>
          match target.toIndex? with
          | some i =>
            if i ≤ code.size then .ok () { s with pc := i }
            else .error (.invalidJumpTarget target address) s
          | none => .error (.invalidJumpTarget target address) s := by
  unfold follow
  rw [get_bind]
  cases code[s.pc]? with
  | none => rfl
  | some offset =>
    dsimp only
    cases Word.add? (.ofNat s.pc) offset with
    | none => rfl
    | some target =>
      dsimp only
      cases target.toIndex? with
      | none => rfl
      | some i =>
        dsimp only
        split <;> rfl

theorem adjust_apply (count : Word) :
    adjust count address s =
      match count.toIndex? with
      | none => .error (.invalidStackAdjust count address) s
      | some locals =>
        if s.frame.base + locals ≤ s.stack.size then
          .ok () { s with
            stack := clear s.stack s.frame.top (s.frame.base + locals)
            frame := { s.frame with locals, top := s.frame.base + locals } }
        else .error (.stackOverflow s.stack.size) s := by
  unfold adjust
  rw [get_bind]
  cases count.toIndex? with
  | none => rfl
  | some locals =>
    dsimp only
    split <;> rfl

theorem enter_apply (limit : Nat) (code : Array Word) (argc target : Word) :
    enter limit code argc target address s =
      match argc.toIndex? with
      | none => .error (.stackUnderflow address) s
      | some n =>
        if s.frame.top - s.frame.floor < n then .error (.stackUnderflow address) s
        else
          match target.toIndex? with
          | none => .error (.invalidJumpTarget target address) s
          | some entry =>
            if code.size ≤ entry then .error (.invalidJumpTarget target address) s
            else if limit ≤ s.depth then .error (.callDepthExceeded limit) s
            else
              .ok () { s with
                frame := { base := s.frame.top - n, locals := 0, top := s.frame.top }
                pc := entry
                depth := s.depth + 1
                callers := { frame := s.frame, pc := s.pc, argc := n } :: s.callers } := by
  unfold enter
  rw [get_bind]
  cases argc.toIndex? with
  | none => rfl
  | some n =>
    dsimp only
    split
    · rfl
    · cases target.toIndex? with
      | none => rfl
      | some entry =>
        dsimp only
        split
        · rfl
        · split <;> rfl

theorem leave_apply (w : Word) :
    leave w s =
      match s.callers with
      | [] => .ok (some w) s
      | c :: callers =>
        (push w >>= fun _ => pure none) { s with
          frame := { c.frame with top := c.frame.top - c.argc }
          pc := c.pc
          depth := s.depth - 1
          callers } := by
  unfold leave
  rw [get_bind]
  cases s.callers <;> rfl

/-- What an opcode does, told by the operator it stands for and not by class bits. -/
def perform (limit : Nat) (code : Array Word) (address : Nat) (op : Opcode) : Exec (Option Word) :=
  match op.unary?, op.binary? with
  | some operator, _ => do
    let a ← pop address
    push (operator.apply a)
    return none
  | none, some operator => do
    let b ← pop address
    let a ← pop address
    match operator.apply a b with
    | .ok w =>
      push w
      return none
    | .error e => throw (.ofArithmetic address e)
  | none, none => performPlain limit code op.word address op

section Routing

variable {address} (limit : Nat) (code : Array Word)

theorem perform_unary (op : UnaryOperator) :
    perform limit code address (.unary op) = (do
      let a ← pop address
      push (op.apply a)
      return none) := by
  cases op <;> rfl

theorem perform_binary (op : BinaryOperator) :
    perform limit code address (.binary op) = (do
      let b ← pop address
      let a ← pop address
      match op.apply a b with
      | .ok w =>
        push w
        return none
      | .error e => throw (.ofArithmetic address e)) := by
  cases op <;> rfl

variable {op : Opcode}

theorem performUnary_eq {operator : UnaryOperator} (h : op.unary? = some operator) (word : Word) :
    performUnary word address op = perform limit code address op := by
  simp only [performUnary, Opcode.applyUnary?, perform, h, Option.map_some]

theorem performBinary_eq {operator : BinaryOperator} (hnone : op.unary? = none)
    (h : op.binary? = some operator) :
    performBinary address op = perform limit code address op := by
  simp only [performBinary, Opcode.applyBinary, perform, hnone, h]
  congr 1
  funext b
  congr 1
  funext a
  cases operator.apply a b <;> rfl

theorem perform_plain (hunary : op.unary? = none) (hbinary : op.binary? = none) :
    perform limit code address op = performPlain limit code op.word address op := by
  simp only [perform, hunary, hbinary]

end Routing

/-- Each family of opcodes gets to its own arm, where it is not refused again. -/
theorem step_apply (limit : Nat) (code : Array Word) :
    step limit code s =
      match code[s.pc]? with
      | none => .error (.fellOffEnd s.pc) s
      | some word =>
        match Opcode.ofWord? word with
        | none => .error (.invalidOpcode word s.pc) { s with pc := s.pc + 1 }
        | some op => perform limit code s.pc op { s with pc := s.pc + 1 } := by
  unfold step
  rw [get_bind]
  cases code[s.pc]? with
  | none => rfl
  | some word =>
    dsimp only
    have hgo : goTo (s.pc + 1) s = .ok () { s with pc := s.pc + 1 } := rfl
    rw [bind_ok hgo]
    unfold opcode
    cases hop : Opcode.ofWord? word with
    | none =>
      split
      · rfl
      · split <;> rfl
    | some op =>
      have hword := Opcode.word_of_ofWord? hop
      have hunary : (word &&& Opcode.unaryFlag != 0) = op.unary?.isSome := by
        rw [← hword]
        exact op.isUnary_eq
      have hbinary : (word &&& Opcode.binaryFlag != 0) = op.binary?.isSome := by
        rw [← hword]
        exact op.isBinary_eq
      rw [hunary, hbinary, ← hword]
      cases hu : op.unary? with
      | some operator => exact congrFun (performUnary_eq limit code hu _) _
      | none =>
        cases hb : op.binary? with
        | some operator => exact congrFun (performBinary_eq limit code hu hb) _
        | none => exact congrFun (perform_plain limit code hu hb).symm _

end Wordcode.Exec
