import Wordcode.Code.Image
import Wordcode.Compile.Diagnostic

/-!
The state of code emission. A word that is not known yet is written as 0 and filled in when its
construct closes, or when the last body is done.
-/

namespace Wordcode

/-- What a word will hold once the whole stream is known. -/
inductive Pending where
  | localCount (body : Nat)
  | bodyStart (body : Nat)
  | distanceToEnd
deriving DecidableEq

structure Patch where
  site : Nat
  value : Pending
deriving DecidableEq

structure Emitter where
  code : Array Word := #[]
  /-- The names of the current body, at the index of their slot. -/
  slots : List String := []
  bodies : List Body := []
  patches : Array Patch := #[]
  diagnostics : Array Diagnostic := #[]

namespace Emitter

def report (e : Emitter) (d : Diagnostic) : Emitter :=
  { e with diagnostics := e.diagnostics.push d }

def slot? (e : Emitter) (name : String) : Option Nat := e.slots.idxOf? name

def declare (e : Emitter) (name : String) : Emitter := { e with slots := e.slots ++ [name] }

def emit (e : Emitter) (op : Opcode) : Emitter := { e with code := e.code.push op.word }

def emitWith (e : Emitter) (op : Opcode) (immediate : Word) : Emitter :=
  { e with code := (e.code.push op.word).push immediate }

def lastSite (e : Emitter) : Nat := e.code.size - 1

def later (e : Emitter) (value : Pending) : Emitter :=
  { e with patches := e.patches.push { site := e.lastSite, value } }

def emitCall (e : Emitter) (argc body : Nat) : Emitter :=
  let code := ((e.code.push Opcode.call.word).push (.ofNat argc)).push 0
  { e with code }.later (.bodyStart body)

def jumpHere (e : Emitter) (site : Nat) : Emitter :=
  { e with code := e.code.setIfInBounds site (.ofNat (e.code.size - site)) }

def emitJumpBack (e : Emitter) (start : Nat) : Emitter :=
  let e := e.emitWith .jump 0
  { e with code := e.code.setIfInBounds e.lastSite (.ofNat start - .ofNat e.lastSite) }

def resolve (e : Emitter) (p : Patch) : Word :=
  match p.value with
  | .localCount body => ((e.bodies[body]?).map fun b => Int64.ofNat b.locals.length).getD 0
  | .bodyStart body => ((e.bodies[body]?).map fun b => Int64.ofNat b.start).getD 0
  | .distanceToEnd => .ofNat (e.code.size - p.site)

def patched (e : Emitter) : Array Word :=
  e.patches.foldl (fun code p => code.setIfInBounds p.site (e.resolve p)) e.code

def finish (e : Emitter) : Except (List Diagnostic) Image :=
  if e.diagnostics.isEmpty then .ok { code := e.patched, bodies := e.bodies }
  else .error e.diagnostics.toList

end Emitter

end Wordcode
