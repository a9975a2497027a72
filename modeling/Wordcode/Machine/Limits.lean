/-!
The limits a machine runs under.
-/

namespace Wordcode

structure Limits where
  stackCapacity : Nat := 4096
  maxCallDepth : Nat := 512
deriving DecidableEq, Inhabited

inductive LimitsError where
  | unreadable
  | noStack
  | noCalls
  | callsTooDeep
deriving DecidableEq

namespace Limits

def deepestCall : Nat := 1024

def callDepth (l : Limits) : Nat := min l.maxCallDepth deepestCall

def problem? (l : Limits) : Option LimitsError :=
  if l.stackCapacity = 0 then some .noStack
  else if l.maxCallDepth = 0 then some .noCalls
  else if deepestCall < l.maxCallDepth then some .callsTooDeep
  else none

def validate (l : Limits) : Except LimitsError Limits :=
  match l.problem? with
  | some e => .error e
  | none => .ok l

end Limits

def LimitsError.message : LimitsError → String
  | unreadable => "Parsing VM config"
  | noStack => "stack_capacity must be positive"
  | noCalls => "max_call_depth must be positive"
  | callsTooDeep => s!"max_call_depth must not exceed {Limits.deepestCall}"

end Wordcode
