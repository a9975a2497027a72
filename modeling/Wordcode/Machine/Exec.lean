import Wordcode.Machine.Fault
import Wordcode.Machine.State

/-!
What instructions do to the state: taking and leaving words on the stack, reading on in the code,
jumping, and entering and leaving invocations. Each action names the fault it raises.
-/

namespace Wordcode

abbrev Exec := EStateM Fault State

namespace Exec

def pop (address : Nat) : Exec Word := do
  let s ← get
  if s.frame.floor < s.frame.top then
    let top := s.frame.top - 1
    let w := s.stack.getD top 0
    set { s with frame := { s.frame with top } }
    return w
  else throw (.stackUnderflow address)

def push (w : Word) : Exec Unit := do
  let s ← get
  if s.frame.top < s.stack.size then
    set { s with
      stack := s.stack.setIfInBounds s.frame.top w
      frame := { s.frame with top := s.frame.top + 1 } }
  else throw (.stackOverflow s.capacity)

def localIndex (slot : Word) (address : Nat) : Exec Nat := do
  let s ← get
  match slot.toIndex? with
  | some i =>
    if i < s.frame.locals then return s.frame.base + i else throw (.invalidSlot slot address)
  | none => throw (.invalidSlot slot address)

def goTo (pc : Nat) : Exec Unit := modify fun s => { s with pc }

def immediate (code : Array Word) (address : Nat) : Exec Word := do
  let s ← get
  match code[s.pc]? with
  | none => throw (.truncated address)
  | some w =>
    set { s with pc := s.pc + 1 }
    return w

def follow (code : Array Word) (address : Nat) : Exec Unit := do
  let s ← get
  match code[s.pc]? with
  | none => throw (.truncated address)
  | some offset =>
    match Word.add? (.ofNat s.pc) offset with
    | none => throw (.invalidJumpTarget Int64.maxValue address)
    | some target =>
      match target.toIndex? with
      | some i => if i ≤ code.size then goTo i else throw (.invalidJumpTarget target address)
      | none => throw (.invalidJumpTarget target address)

def clear (stack : Array Word) (start stop : Nat) : Array Word :=
  (List.range' start (stop - start)).foldl (fun stack i => stack.setIfInBounds i 0) stack

theorem size_clear (stack : Array Word) (start stop : Nat) :
    (clear stack start stop).size = stack.size := by
  unfold clear
  generalize List.range' start (stop - start) = cells
  induction cells generalizing stack with
  | nil => rfl
  | cons i cells ih => rw [List.foldl_cons, ih, Array.size_setIfInBounds]

/-- Makes room for `count` locals. Cells that did not hold an argument or a temporary are zeroed. -/
def adjust (count : Word) (address : Nat) : Exec Unit := do
  let s ← get
  match count.toIndex? with
  | none => throw (.invalidStackAdjust count address)
  | some locals =>
    let top := s.frame.base + locals
    if top ≤ s.stack.size then
      set { s with stack := clear s.stack s.frame.top top, frame := { s.frame with locals, top } }
    else throw (.stackOverflow s.stack.size)

def enter (limit : Nat) (code : Array Word) (argc target : Word) (address : Nat) : Exec Unit := do
  let s ← get
  match argc.toIndex? with
  | none => throw (.stackUnderflow address)
  | some n =>
    if s.frame.top - s.frame.floor < n then throw (.stackUnderflow address)
    else
      match target.toIndex? with
      | none => throw (.invalidJumpTarget target address)
      | some entry =>
        if code.size ≤ entry then throw (.invalidJumpTarget target address)
        else if limit ≤ s.depth then throw (.callDepthExceeded limit)
        else
          set { s with
            frame := { base := s.frame.top - n, locals := 0, top := s.frame.top }
            pc := entry
            depth := s.depth + 1
            callers := { frame := s.frame, pc := s.pc, argc := n } :: s.callers }

/-- Hands a value to the waiting caller, in place of the arguments. Without one it is the answer. -/
def leave (w : Word) : Exec (Option Word) := do
  let s ← get
  match s.callers with
  | [] => return some w
  | c :: callers =>
    set { s with
      frame := { c.frame with top := c.frame.top - c.argc }
      pc := c.pc
      depth := s.depth - 1
      callers }
    push w
    return none

end Exec

end Wordcode
