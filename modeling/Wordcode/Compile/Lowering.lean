import Wordcode.Compile.Emitter
import Wordcode.Tree.Basic

/-!
From trees to code in one walk, the main block first. A body makes room for its slots and ends with
a jump to the end of the stream. Emission goes on after an error, so one walk reports all.
-/

namespace Wordcode

structure Signature where
  body : Nat
  arity : Nat
deriving DecidableEq

abbrev Signatures := List (String × Signature)

def mainName : String := "<main>"

/-- Of several functions with one name the first is meant. Body 0 is the main block. -/
def signaturesOf (functions : List Function) : Signatures :=
  (functions.zipIdx 1).map fun (f, body) => (f.name, { body, arity := f.params.length })

def duplicateFunctions (seen : List String) : List Function → List Diagnostic
  | [] => []
  | f :: rest =>
    if seen.contains f.name then .duplicateFunction f.name f.span :: duplicateFunctions seen rest
    else duplicateFunctions (f.name :: seen) rest

namespace Emitter

def lowerCall (sigs : Signatures) (name : String) (argc : Nat) (span : Span) (e : Emitter) :
    Emitter :=
  match sigs.lookup name with
  | none => e.report (.undefinedFunction name span)
  | some sig =>
    if sig.arity = argc then e.emitCall argc sig.body
    else e.report (.arityMismatch name sig.arity argc span)

def lowerVar (name : String) (span : Span) (e : Emitter) : Emitter :=
  match e.slot? name with
  | some slot => e.emitWith .load (.ofNat slot)
  | none => (e.report (.undeclaredVariable name span)).emitWith .int 0

mutual
def lowerOperand (sigs : Signatures) : Operand → Emitter → Emitter
  | .int value, e => e.emitWith .int value
  | .var name span, e => e.lowerVar name span
  | .unary op x, e => (lowerOperand sigs x e).emit (.unary op)
  | .chain first rest, e => lowerLinks sigs rest (lowerOperand sigs first e)
  | .group first rest, e => lowerLinks sigs rest (lowerOperand sigs first e)
  | .call name args span, e => (lowerOperands sigs args e).lowerCall sigs name args.length span
def lowerLinks (sigs : Signatures) : Links → Emitter → Emitter
  | [], e => e
  | (op, x) :: rest, e => lowerLinks sigs rest ((lowerOperand sigs x e).emit (.binary op))
def lowerOperands (sigs : Signatures) : List Operand → Emitter → Emitter
  | [], e => e
  | x :: rest, e => lowerOperands sigs rest (lowerOperand sigs x e)
end

/-- A name declared again is reported before its initial value is looked at, and keeps its slot. A
new name becomes visible after its initial value. -/
def lowerDeclare (sigs : Signatures) (name : String) (x : Operand) (span : Span) (e : Emitter) :
    Emitter :=
  match e.slot? name with
  | some slot =>
    (lowerOperand sigs x (e.report (.duplicateDeclaration name span))).emitWith .store (.ofNat slot)
  | none =>
    let e := lowerOperand sigs x e
    let slot := e.slots.length
    (e.declare name).emitWith .store (.ofNat slot)

def lowerAssign (sigs : Signatures) (name : String) (x : Operand) (span : Span) (e : Emitter) :
    Emitter :=
  let e := lowerOperand sigs x e
  match e.slot? name with
  | some slot => e.emitWith .store (.ofNat slot)
  | none => e.report (.undeclaredVariable name span)

mutual
def lowerStatement (sigs : Signatures) : Statement → Emitter → Emitter
  | .declare name x span, e => e.lowerDeclare sigs name x span
  | .assign name x span, e => e.lowerAssign sigs name x span
  | .cond test yes none _, e =>
    let e := (lowerOperand sigs test e).emitWith .jumpIfFalse 0
    let skip := e.lastSite
    (lowerBlock sigs yes e).jumpHere skip
  | .cond test yes (some no) _, e =>
    let e := (lowerOperand sigs test e).emitWith .jumpIfFalse 0
    let skip := e.lastSite
    let e := (lowerBlock sigs yes e).emitWith .jump 0
    let exit := e.lastSite
    (lowerBlock sigs no (e.jumpHere skip)).jumpHere exit
  | .loop test body _, e =>
    let start := e.code.size
    let e := (lowerOperand sigs test e).emitWith .jumpIfFalse 0
    let exit := e.lastSite
    ((lowerBlock sigs body e).emitJumpBack start).jumpHere exit
  | .discard x _, e => (lowerOperand sigs x e).emit .pop
  | .ret x _, e => (lowerOperand sigs x e).emit .ret
def lowerBlock (sigs : Signatures) : Block → Emitter → Emitter
  | [], e => e
  | s :: rest, e => lowerBlock sigs rest (lowerStatement sigs s e)
end

/-- Parameters take the first slots; one that is named again is reported and skipped. -/
def declareParams (span : Span) : List String → Emitter → Emitter
  | [], e => e
  | name :: rest, e =>
    declareParams span rest <|
      if (e.slot? name).isSome then e.report (.duplicateDeclaration name span) else e.declare name

def lowerBody (sigs : Signatures) (name : String) (params : List String) (block : Block)
    (span : Span) (e : Emitter) : Emitter :=
  let body := e.bodies.length
  let start := e.code.size
  let e := declareParams span params { e with slots := [] }
  let e := (e.emitWith .stackAdjust 0).later (.localCount body)
  let e := ((lowerBlock sigs block e).emitWith .jump 0).later .distanceToEnd
  let done : Body := { name, start, stop := e.code.size, arity := params.length, locals := e.slots }
  { e with slots := [], bodies := e.bodies ++ [done] }

def lowerFunctions (sigs : Signatures) : List Function → Emitter → Emitter
  | [], e => e
  | f :: rest, e => lowerFunctions sigs rest (e.lowerBody sigs f.name f.params f.body f.span)

end Emitter

namespace Program

def emission (p : Program) : Emitter :=
  let sigs := signaturesOf p.functions
  let e : Emitter := { diagnostics := (duplicateFunctions [] p.functions).toArray }
  (e.lowerBody sigs mainName [] p.main {}).lowerFunctions sigs p.functions

def compile (p : Program) : Except (List Diagnostic) Image := p.emission.finish

end Program

end Wordcode
