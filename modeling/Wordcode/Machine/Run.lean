import Wordcode.Machine.Limits
import Wordcode.Machine.Step

/-!
Machines and their runs. A machine keeps its stack from one run to the next. Code may loop forever,
so a run is given a number of steps, and has no outcome if they do not suffice.
-/

namespace Wordcode

structure Outcome where
  result : Except Fault Word
  state : State

namespace Exec

def runFrom (limit : Nat) (code : Array Word) : Nat → State → Option Outcome
  | 0, _ => none
  | steps + 1, s =>
    match (step limit code).run s with
    | .ok (some w) s => some ⟨.ok w, s⟩
    | .error f s => some ⟨.error f, s⟩
    | .ok none s => runFrom limit code steps s

end Exec

structure Machine where
  limits : Limits
  stack : Array Word
  depth : Nat := 0

namespace Machine

def new (limits : Limits) : Machine :=
  { limits, stack := Array.replicate limits.stackCapacity 0 }

theorem size_stack_new (limits : Limits) : (new limits).stack.size = limits.stackCapacity := by
  simp [new]

def start (m : Machine) (entry base : Nat) : State :=
  { stack := m.stack
    capacity := m.limits.stackCapacity
    frame := { base, locals := 0, top := base }
    pc := entry
    depth := 0
    callers := [] }

/-- After a run every invocation still waiting is given up. -/
def after (limits : Limits) (s : State) : Machine :=
  { limits, stack := s.stack, depth := s.callers.foldl (fun depth _ => depth - 1) s.depth }

def execute (m : Machine) (steps : Nat) (code : Array Word) (entry base : Nat := 0) :
    Option (Except Fault Word × Machine) :=
  if m.stack.size < base then some (.error (.stackOverflow m.stack.size), m)
  else
    let limits := m.limits
    (Exec.runFrom limits.callDepth code steps (m.start entry base)).map fun o =>
      (o.result, after limits o.state)

end Machine

end Wordcode
