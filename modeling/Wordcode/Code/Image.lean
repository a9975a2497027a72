import Wordcode.Code.Instruction

/-!
Images: one stream of words that holds the code of every body, and where each body lies in it.
-/

namespace Wordcode

structure Body where
  name : String
  start : Nat
  stop : Nat
  arity : Nat
  locals : List String
deriving DecidableEq, Inhabited

def Body.contains (b : Body) (address : Nat) : Bool := b.start ≤ address && address < b.stop

structure Image where
  code : Array Word
  entry : Nat := 0
  bodies : List Body
deriving DecidableEq, Inhabited

namespace Image

def instructions (im : Image) : List Decoded := sweep im.code 0 im.code.size

def body? (im : Image) (name : String) : Option Body := im.bodies.find? (·.name == name)

def bodyAt? (im : Image) (address : Nat) : Option Body := im.bodies.find? (·.start == address)

def enclosing? (im : Image) (address : Nat) : Option Body := im.bodies.find? (·.contains address)

def jumpTargets (im : Image) : List Nat :=
  let targets := im.instructions.filterMap fun
    | .ok (address, i) => (i.jumpTarget address).bind Word.toIndex?
    | .error _ => none
  targets.mergeSort.eraseReps

end Image

end Wordcode
