import Wordcode.Tree.Transformer

/-!
Normal forms. A chain without links says no more than its first operand, and a group no more than
the chain inside it. Collapsing replaces both from the inside out and counts the replacements.
-/

namespace Wordcode

def Operand.collapse : Operand → StateM Nat Operand
  | .group first [] | .chain first [] => do
    modify (· + 1)
    return first
  | .group first rest => do
    modify (· + 1)
    return .chain first rest
  | x => return x

/-- The pass that collapses every operand after its children; its state counts replacements. -/
def collapsing : Transformer (StateM Nat) where
  operand _ walk := do
    let x ← walk
    x.collapse

def Operand.collapseAll (x : Operand) : Operand × Nat := (collapsing.transformOperand x).run 0

def Operand.normalize (x : Operand) : Operand := x.collapseAll.1

def Program.collapseAll (p : Program) : Program × Nat := (collapsing.transformProgram p).run 0

def Program.normalize (p : Program) : Program := p.collapseAll.1

end Wordcode
