import Wordcode.Tree.Basic

/-!
Transforming traversal. A transformer is handed a node and the action that rebuilds it from
transformed children, and answers with the node to put in its place.
-/

namespace Wordcode

structure Transformer (m : Type → Type) [Monad m] where
  program : Program → m Program → m Program := fun _ walk => walk
  function : Function → m Function → m Function := fun _ walk => walk
  block : Block → m Block → m Block := fun _ walk => walk
  statement : Statement → m Statement → m Statement := fun _ walk => walk
  operand : Operand → m Operand → m Operand := fun _ walk => walk
  chain : Chain → m Chain → m Chain := fun _ walk => walk

namespace Transformer

variable {m : Type → Type} [Monad m]

mutual
def transformOperand (t : Transformer m) : Operand → m Operand
  | .int value => t.operand (.int value) (return .int value)
  | .var name span => t.operand (.var name span) (return .var name span)
  | .unary op x => t.operand (.unary op x) (do
      let x' ← t.transformOperand x
      return .unary op x')
  | .chain first rest => t.operand (.chain first rest) (do
      let c ← t.chain ⟨first, rest⟩ (do
        let first' ← t.transformOperand first
        let rest' ← t.transformLinks rest
        return ⟨first', rest'⟩)
      return .chain c.first c.rest)
  | .group first rest => t.operand (.group first rest) (do
      let c ← t.chain ⟨first, rest⟩ (do
        let first' ← t.transformOperand first
        let rest' ← t.transformLinks rest
        return ⟨first', rest'⟩)
      return .group c.first c.rest)
  | .call name args span => t.operand (.call name args span) (do
      let args' ← t.transformOperands args
      return .call name args' span)
def transformLinks (t : Transformer m) : Links → m Links
  | [] => return []
  | (op, x) :: rest => do
    let x' ← t.transformOperand x
    let rest' ← t.transformLinks rest
    return (op, x') :: rest'
def transformOperands (t : Transformer m) : List Operand → m (List Operand)
  | [] => return []
  | x :: rest => do
    let x' ← t.transformOperand x
    let rest' ← t.transformOperands rest
    return x' :: rest'
end

mutual
def transformStatement (t : Transformer m) : Statement → m Statement
  | .declare name x span => t.statement (.declare name x span) (do
      let x' ← t.transformOperand x
      return .declare name x' span)
  | .assign name x span => t.statement (.assign name x span) (do
      let x' ← t.transformOperand x
      return .assign name x' span)
  | .cond test yes none span => t.statement (.cond test yes none span) (do
      let test' ← t.transformOperand test
      let yes' ← t.block yes (t.walkBlock yes)
      return .cond test' yes' none span)
  | .cond test yes (some no) span => t.statement (.cond test yes (some no) span) (do
      let test' ← t.transformOperand test
      let yes' ← t.block yes (t.walkBlock yes)
      let no' ← t.block no (t.walkBlock no)
      return .cond test' yes' (some no') span)
  | .loop test body span => t.statement (.loop test body span) (do
      let test' ← t.transformOperand test
      let body' ← t.block body (t.walkBlock body)
      return .loop test' body' span)
  | .discard x span => t.statement (.discard x span) (do
      let x' ← t.transformOperand x
      return .discard x' span)
  | .ret x span => t.statement (.ret x span) (do
      let x' ← t.transformOperand x
      return .ret x' span)
def walkBlock (t : Transformer m) : Block → m Block
  | [] => return []
  | s :: rest => do
    let s' ← t.transformStatement s
    let rest' ← t.walkBlock rest
    return s' :: rest'
end

def transformBlock (t : Transformer m) (b : Block) : m Block := t.block b (t.walkBlock b)

def transformFunction (t : Transformer m) (f : Function) : m Function := t.function f (do
  let body ← t.transformBlock f.body
  return { f with body })

def walkFunctions (t : Transformer m) : List Function → m (List Function)
  | [] => return []
  | f :: rest => do
    let f' ← t.transformFunction f
    let rest' ← t.walkFunctions rest
    return f' :: rest'

def transformProgram (t : Transformer m) (p : Program) : m Program := t.program p (do
  let functions ← t.walkFunctions p.functions
  let main ← t.transformBlock p.main
  return { functions, main })

end Transformer

end Wordcode
