import Wordcode.Word

/-!
States of a running machine. All invocations share one stack. Only the words below its top count: a
popped word stays in its cell until it is overwritten.
-/

namespace Wordcode

structure Frame where
  base : Nat
  locals : Nat
  top : Nat
deriving DecidableEq, Inhabited

/-- No pop goes below this cell. -/
def Frame.floor (f : Frame) : Nat := f.base + f.locals

structure Caller where
  frame : Frame
  /-- Where it goes on. -/
  pc : Nat
  argc : Nat
deriving DecidableEq, Inhabited

structure State where
  stack : Array Word
  /-- What the machine was set up for; an overflow names it. -/
  capacity : Nat
  frame : Frame
  pc : Nat
  /-- How deep calls are nested. -/
  depth : Nat
  /-- The invocations that wait, innermost first. -/
  callers : List Caller

end Wordcode
