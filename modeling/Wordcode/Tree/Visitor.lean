import Wordcode.Tree.Basic

/-!
Read-only traversal. A visitor is handed the content of a node and the action that walks its
children. A walk answers with the default value, unless its node only stands for one other node.
-/

namespace Wordcode

structure Visitor (m : Type → Type) (α : Type) [Monad m] [Inhabited α] where
  program : Program → m α → m α := fun _ walk => walk
  function : Function → m α → m α := fun _ walk => walk
  block : Block → m α → m α := fun _ walk => walk
  statement : Statement → m α → m α := fun _ walk => walk
  declare : String → Operand → Span → m α → m α := fun _ _ _ walk => walk
  assign : String → Operand → Span → m α → m α := fun _ _ _ walk => walk
  cond : Operand → Block → Option Block → m α → m α := fun _ _ _ walk => walk
  loop : Operand → Block → m α → m α := fun _ _ walk => walk
  discard : Operand → m α → m α := fun _ walk => walk
  ret : Operand → Span → m α → m α := fun _ _ walk => walk
  operand : Operand → m α → m α := fun _ walk => walk
  int : Word → m α := fun _ => pure default
  var : String → Span → m α := fun _ _ => pure default
  unary : UnaryOperator → Operand → m α → m α := fun _ _ walk => walk
  chain : Chain → m α → m α := fun _ walk => walk
  /-- A group is walked as the chain inside it. -/
  group : Chain → m α → m α := fun _ walk => walk
  call : String → List Operand → Span → m α → m α := fun _ _ _ walk => walk

namespace Visitor

variable {m : Type → Type} {α : Type} [Monad m] [Inhabited α]

mutual
def visitOperand (v : Visitor m α) : Operand → m α
  | .int value => v.operand (.int value) (v.int value)
  | .var name span => v.operand (.var name span) (v.var name span)
  | .unary op x => v.operand (.unary op x) (v.unary op x (do
      let _ ← v.visitOperand x
      return default))
  | .chain first rest => v.operand (.chain first rest) (v.chain ⟨first, rest⟩ (do
      let _ ← v.visitOperand first
      v.visitLinks rest))
  | .group first rest =>
    v.operand (.group first rest) (v.group ⟨first, rest⟩ (v.chain ⟨first, rest⟩ (do
      let _ ← v.visitOperand first
      v.visitLinks rest)))
  | .call name args span =>
    v.operand (.call name args span) (v.call name args span (v.visitOperands args))
def visitLinks (v : Visitor m α) : Links → m α
  | [] => return default
  | (_, x) :: rest => do
    let _ ← v.visitOperand x
    v.visitLinks rest
def visitOperands (v : Visitor m α) : List Operand → m α
  | [] => return default
  | x :: rest => do
    let _ ← v.visitOperand x
    v.visitOperands rest
end

mutual
def visitStatement (v : Visitor m α) : Statement → m α
  | .declare name x span => v.statement (.declare name x span) (v.declare name x span (do
      let _ ← v.visitOperand x
      return default))
  | .assign name x span => v.statement (.assign name x span) (v.assign name x span (do
      let _ ← v.visitOperand x
      return default))
  | .cond test yes none span => v.statement (.cond test yes none span) (v.cond test yes none (do
      let _ ← v.visitOperand test
      let _ ← v.block yes (v.walkBlock yes)
      return default))
  | .cond test yes (some no) span =>
    v.statement (.cond test yes (some no) span) (v.cond test yes (some no) (do
      let _ ← v.visitOperand test
      let _ ← v.block yes (v.walkBlock yes)
      let _ ← v.block no (v.walkBlock no)
      return default))
  | .loop test body span => v.statement (.loop test body span) (v.loop test body (do
      let _ ← v.visitOperand test
      let _ ← v.block body (v.walkBlock body)
      return default))
  | .discard x span => v.statement (.discard x span) (v.discard x (do
      let _ ← v.visitOperand x
      return default))
  | .ret x span => v.statement (.ret x span) (v.ret x span (do
      let _ ← v.visitOperand x
      return default))
def walkBlock (v : Visitor m α) : Block → m α
  | [] => return default
  | s :: rest => do
    let _ ← v.visitStatement s
    v.walkBlock rest
end

def visitBlock (v : Visitor m α) (b : Block) : m α := v.block b (v.walkBlock b)

def visitFunction (v : Visitor m α) (f : Function) : m α := v.function f (v.visitBlock f.body)

def walkFunctions (v : Visitor m α) : List Function → m α
  | [] => return default
  | f :: rest => do
    let _ ← v.visitFunction f
    v.walkFunctions rest

def visitProgram (v : Visitor m α) (p : Program) : m α := v.program p (do
  let _ ← v.walkFunctions p.functions
  let _ ← v.visitBlock p.main
  return default)

end Visitor

end Wordcode
