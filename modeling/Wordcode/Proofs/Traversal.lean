import Mathlib.Tactic.Simps.Basic
import Wordcode.Proofs.Collapse
import Wordcode.Sample
import Wordcode.Tree.Survey

/-!
What the two traversals meet. Main statement: hooks run once for each leaf, from left to right, and
visiting and transforming meet the same operands in the same order.
-/

namespace Wordcode

inductive Leaf where
  | int (value : Word)
  | var (name : String) (span : Span)
deriving DecidableEq

def Operand.leaf? : Operand → Option Leaf
  | .int value => some (.int value)
  | .var name span => some (.var name span)
  | _ => none

def leavesOf (xs : List Operand) : List Leaf := xs.filterMap Operand.leaf?

@[simp] theorem leavesOf_append (xs ys : List Operand) :
    leavesOf (xs ++ ys) = leavesOf xs ++ leavesOf ys := List.filterMap_append

@[simp] theorem leavesOf_cons (x : Operand) (xs : List Operand) :
    leavesOf (x :: xs) = x.leaf?.toList ++ leavesOf xs := by
  cases h : x.leaf? <;> simp [leavesOf, h]

def Program.leaves (p : Program) : List Leaf := leavesOf p.nodes

section Hooks

variable {m : Type → Type} [Monad m] {α : Type}

def Leaf.run (onInt : Word → m α) (onVar : String → Span → m α) : Leaf → m Unit
  | int value => discard (onInt value)
  | var name span => discard (onVar name span)

@[simps]
def Visitor.watching [Inhabited α] (onOperand : Operand → m Unit) (onInt : Word → m α)
    (onVar : String → Span → m α) : Visitor m α where
  operand x walk := do
    onOperand x
    walk
  int := onInt
  var := onVar

@[simps]
def Transformer.watching (onOperand : Operand → m Unit) : Transformer m where
  operand x walk := do
    onOperand x
    walk

def Operand.meet (onOperand : Operand → m Unit) (onInt : Word → m α)
    (onVar : String → Span → m α) (x : Operand) : m Unit := do
  onOperand x
  forM x.leaf?.toList (Leaf.run onInt onVar)

end Hooks

section Meeting

variable {m : Type → Type} [Monad m] [LawfulMonad m] {α β : Type} [Inhabited α]
  (onOperand : Operand → m Unit) (onInt : Word → m α) (onVar : String → Span → m α)

namespace Visitor

-- The answers are dropped on the way up, so each statement looks at what comes after the visit.
mutual
theorem visitOperand_bind : (x : Operand) → (next : m β) →
    ((watching onOperand onInt onVar).visitOperand x >>= fun _ => next) =
      (do forM x.nodes (Operand.meet onOperand onInt onVar); next)
  | .int value, next | .var name span, next => by
    simp [visitOperand, Operand.nodes, Operand.meet, Operand.leaf?, Leaf.run, Functor.discard,
      map_const]
  | .unary op x, next => by
    simp [visitOperand, Operand.nodes, Operand.meet, Operand.leaf?, visitOperand_bind x]
  | .chain first rest, next | .group first rest, next => by
    simp [visitOperand, Operand.nodes, Operand.meet, Operand.leaf?, visitOperand_bind first,
      visitLinks_bind rest]
  | .call name args span, next => by
    simp [visitOperand, Operand.nodes, Operand.meet, Operand.leaf?, visitOperands_bind args]
theorem visitLinks_bind : (rest : Links) → (next : m β) →
    ((watching onOperand onInt onVar).visitLinks rest >>= fun _ => next) =
      (do forM (Links.nodes rest) (Operand.meet onOperand onInt onVar); next)
  | [], next => by simp [visitLinks, Links.nodes]
  | (op, x) :: rest, next => by
    simp [visitLinks, Links.nodes, visitOperand_bind x, visitLinks_bind rest]
theorem visitOperands_bind : (xs : List Operand) → (next : m β) →
    ((watching onOperand onInt onVar).visitOperands xs >>= fun _ => next) =
      (do forM (Operand.nodesAll xs) (Operand.meet onOperand onInt onVar); next)
  | [], next => by simp [visitOperands, Operand.nodesAll]
  | x :: rest, next => by
    simp [visitOperands, Operand.nodesAll, visitOperand_bind x, visitOperands_bind rest]
end

mutual
theorem visitStatement_bind : (s : Statement) → (next : m β) →
    ((watching onOperand onInt onVar).visitStatement s >>= fun _ => next) =
      (do forM s.nodes (Operand.meet onOperand onInt onVar); next)
  | .declare _ x _, next | .assign _ x _, next | .discard x _, next | .ret x _, next => by
    simp [visitStatement, Statement.nodes, visitOperand_bind]
  | .cond test yes none _, next => by
    simp [visitStatement, Statement.nodes, visitOperand_bind, walkBlock_bind yes]
  | .cond test yes (some no) _, next => by
    simp [visitStatement, Statement.nodes, visitOperand_bind, walkBlock_bind yes,
      walkBlock_bind no]
  | .loop test body _, next => by
    simp [visitStatement, Statement.nodes, visitOperand_bind, walkBlock_bind body]
theorem walkBlock_bind : (b : Block) → (next : m β) →
    ((watching onOperand onInt onVar).walkBlock b >>= fun _ => next) =
      (do forM (Block.nodes b) (Operand.meet onOperand onInt onVar); next)
  | [], next => by simp [walkBlock, Block.nodes]
  | s :: rest, next => by
    simp [walkBlock, Block.nodes, visitStatement_bind s, walkBlock_bind rest]
end

theorem walkFunctions_bind (fs : List Function) (next : m β) :
    ((watching onOperand onInt onVar).walkFunctions fs >>= fun _ => next) =
      (do forM (fs.flatMap (Block.nodes ·.body)) (Operand.meet onOperand onInt onVar); next) := by
  induction fs with
  | nil => simp [walkFunctions]
  | cons f fs ih => simp [walkFunctions, visitFunction, visitBlock, walkBlock_bind, ih]

theorem visitProgram_watching (p : Program) :
    (watching onOperand onInt onVar).visitProgram p =
      (do forM p.nodes (Operand.meet onOperand onInt onVar); return default) := by
  simp only [visitProgram, visitBlock, watching_program, watching_block, walkFunctions_bind,
    walkBlock_bind, Program.nodes, List.forM_append, bind_assoc]

end Visitor

namespace Transformer

mutual
theorem transformOperand_watching : (x : Operand) →
    (watching onOperand).transformOperand x = (do forM x.nodes onOperand; return x)
  | .int _ | .var _ _ => by simp [transformOperand, Operand.nodes]
  | .unary _ x => by simp [transformOperand, Operand.nodes, transformOperand_watching x]
  | .chain first rest | .group first rest => by
    simp [transformOperand, Operand.nodes, transformOperand_watching first,
      transformLinks_watching rest]
  | .call _ args _ => by
    simp [transformOperand, Operand.nodes, transformOperands_watching args]
theorem transformLinks_watching : (rest : Links) →
    (watching onOperand).transformLinks rest =
      (do forM (Links.nodes rest) onOperand; return rest)
  | [] => by simp [transformLinks, Links.nodes]
  | (_, x) :: rest => by
    simp [transformLinks, Links.nodes, transformOperand_watching x, transformLinks_watching rest]
theorem transformOperands_watching : (xs : List Operand) →
    (watching onOperand).transformOperands xs =
      (do forM (Operand.nodesAll xs) onOperand; return xs)
  | [] => by simp [transformOperands, Operand.nodesAll]
  | x :: rest => by
    simp [transformOperands, Operand.nodesAll, transformOperand_watching x,
      transformOperands_watching rest]
end

mutual
theorem transformStatement_watching : (s : Statement) →
    (watching onOperand).transformStatement s = (do forM s.nodes onOperand; return s)
  | .declare _ x _ | .assign _ x _ | .discard x _ | .ret x _ => by
    simp [transformStatement, Statement.nodes, transformOperand_watching]
  | .cond test yes none _ => by
    simp [transformStatement, Statement.nodes, transformOperand_watching, walkBlock_watching yes]
  | .cond test yes (some no) _ => by
    simp [transformStatement, Statement.nodes, transformOperand_watching, walkBlock_watching yes,
      walkBlock_watching no]
  | .loop test body _ => by
    simp [transformStatement, Statement.nodes, transformOperand_watching, walkBlock_watching body]
theorem walkBlock_watching : (b : Block) →
    (watching onOperand).walkBlock b = (do forM (Block.nodes b) onOperand; return b)
  | [] => by simp [walkBlock, Block.nodes]
  | s :: rest => by
    simp [walkBlock, Block.nodes, transformStatement_watching s, walkBlock_watching rest]
end

theorem walkFunctions_watching (fs : List Function) :
    (watching onOperand).walkFunctions fs =
      (do forM (fs.flatMap (Block.nodes ·.body)) onOperand; return fs) := by
  induction fs with
  | nil => simp [walkFunctions]
  | cons f fs ih =>
    simp [walkFunctions, transformFunction, transformBlock, walkBlock_watching, ih]

theorem transformProgram_watching (p : Program) :
    (watching onOperand).transformProgram p = (do forM p.nodes onOperand; return p) := by
  simp [transformProgram, transformBlock, Program.nodes, walkFunctions_watching,
    walkBlock_watching]

end Transformer

end Meeting

section Leaves

theorem leavesOf_link (first : Operand) (rest : Links) :
    leavesOf (first.link rest).nodes = leavesOf first.nodes ++ leavesOf (Links.nodes rest) := by
  cases rest with
  | nil => simp [Operand.link, Links.nodes, leavesOf]
  | cons l rest => simp [Operand.link, Operand.nodes, Operand.leaf?]

mutual
theorem Operand.leavesOf_plain : (x : Operand) → leavesOf x.plain.nodes = leavesOf x.nodes
  | .int _ | .var _ _ => rfl
  | .unary _ x => by
    simp [Operand.plain, Operand.nodes, Operand.leaf?, x.leavesOf_plain]
  | .chain first rest | .group first rest => by
    simp [Operand.plain, leavesOf_link, Operand.nodes, Operand.leaf?, first.leavesOf_plain,
      Links.leavesOf_plain rest]
  | .call _ args _ => by
    simp [Operand.plain, Operand.nodes, Operand.leaf?, Operand.leavesOf_plainAll args]
theorem Links.leavesOf_plain :
    (rest : Links) → leavesOf (Links.nodes (Links.plain rest)) = leavesOf (Links.nodes rest)
  | [] => rfl
  | (_, x) :: rest => by
    simp [Links.plain, Links.nodes, x.leavesOf_plain, Links.leavesOf_plain rest]
theorem Operand.leavesOf_plainAll : (xs : List Operand) →
    leavesOf (Operand.nodesAll (Operand.plainAll xs)) = leavesOf (Operand.nodesAll xs)
  | [] => rfl
  | x :: rest => by
    simp [Operand.plainAll, Operand.nodesAll, x.leavesOf_plain, Operand.leavesOf_plainAll rest]
end

mutual
theorem Statement.leavesOf_plain : (s : Statement) → leavesOf s.plain.nodes = leavesOf s.nodes
  | .declare _ x _ | .assign _ x _ | .discard x _ | .ret x _ => x.leavesOf_plain
  | .cond test yes none _ => by
    simp [Statement.plain, Statement.nodes, test.leavesOf_plain, Block.leavesOf_plain yes]
  | .cond test yes (some no) _ => by
    simp [Statement.plain, Statement.nodes, test.leavesOf_plain, Block.leavesOf_plain yes,
      Block.leavesOf_plain no]
  | .loop test body _ => by
    simp [Statement.plain, Statement.nodes, test.leavesOf_plain, Block.leavesOf_plain body]
theorem Block.leavesOf_plain :
    (b : Block) → leavesOf (Block.nodes (Block.plain b)) = leavesOf (Block.nodes b)
  | [] => rfl
  | s :: rest => by
    simp [Block.plain, Block.nodes, s.leavesOf_plain, Block.leavesOf_plain rest]
end

theorem Function.leavesOf_plain (fs : List Function) :
    leavesOf ((fs.map Function.plain).flatMap (Block.nodes ·.body)) =
      leavesOf (fs.flatMap (Block.nodes ·.body)) := by
  induction fs with
  | nil => rfl
  | cons f fs ih => simp [Function.plain, Block.leavesOf_plain, ih]

/-- Collapsing keeps the leaves and their order. -/
theorem Program.leaves_normalize (p : Program) : p.normalize.leaves = p.leaves := by
  rw [normalize_eq_plain]
  simp [leaves, nodes, plain, Function.leavesOf_plain, Block.leavesOf_plain]

end Leaves

section Hooks

variable {m : Type → Type} [Monad m] [LawfulMonad m] {α : Type} [Inhabited α]

theorem forM_leavesOf (f : Leaf → m Unit) (xs : List Operand) :
    (forM xs fun x => forM x.leaf?.toList f) = forM (leavesOf xs) f := by
  induction xs with
  | nil => simp [leavesOf]
  | cons x xs ih => simp [ih]

theorem forM_pure (xs : List Operand) : (forM xs fun _ => (pure () : m Unit)) = pure () := by
  induction xs with
  | nil => simp
  | cons x xs ih => simp [ih]

theorem Visitor.visitProgram_leaves (onInt : Word → m α) (onVar : String → Span → m α)
    (p : Program) : visitProgram { int := onInt, var := onVar } p =
      (do forM p.leaves (Leaf.run onInt onVar)
          return default) := by
  have hwatching : ({ int := onInt, var := onVar } : Visitor m α) =
      watching (fun _ => pure ()) onInt onVar := by simp [watching]
  have hmeet : Operand.meet (fun _ => pure ()) onInt onVar =
      fun x => forM x.leaf?.toList (Leaf.run onInt onVar) := by
    funext x
    simp [Operand.meet]
  rw [hwatching, visitProgram_watching, hmeet, forM_leavesOf, Program.leaves]

theorem Visitor.visitProgram_operands (onOperand : Operand → m Unit) (p : Program) :
    visitProgram { operand := fun x walk => do onOperand x; walk } p =
      (do forM p.nodes onOperand
          return (default : α)) := by
  have hwatching : ({ operand := fun x walk => do onOperand x; walk } : Visitor m α) =
      watching onOperand (fun _ => pure default) (fun _ _ => pure default) := rfl
  have hmeet : Operand.meet onOperand (fun _ => (pure default : m α)) (fun _ _ => pure default) =
      onOperand := by
    funext x
    cases x <;> simp [Operand.meet, Operand.leaf?, Leaf.run, Functor.discard, map_const]
  rw [hwatching, visitProgram_watching, hmeet]

theorem Transformer.transformProgram_inert (p : Program) :
    transformProgram ({} : Transformer m) p = pure p := by
  have hwatching : ({} : Transformer m) = watching fun _ => pure () := by simp [watching]
  rw [hwatching, transformProgram_watching, forM_pure, pure_bind]

end Hooks

structure Program.Traversed (m : Type → Type) [Monad m] (α : Type) [Inhabited α]
    (p : Program) : Prop where
  /-- Hooks at the leaves run once for each leaf, from left to right. -/
  leaves : ∀ (onInt : Word → m α) (onVar : String → Span → m α),
    Visitor.visitProgram { int := onInt, var := onVar } p =
      (do forM p.leaves (Leaf.run onInt onVar)
          return default)
  /-- A visit meets each operand once, before what is inside of it. -/
  visited : ∀ onOperand : Operand → m Unit,
    Visitor.visitProgram { operand := fun x walk => do onOperand x; walk } p =
      (do forM p.nodes onOperand
          return (default : α))
  /-- A transformation meets the same operands in the same order. -/
  transformed : ∀ onOperand : Operand → m Unit,
    Transformer.transformProgram { operand := fun x walk => do onOperand x; walk } p =
      (do forM p.nodes onOperand
          return p)
  kept : Transformer.transformProgram ({} : Transformer m) p = pure p
  /-- Hooks at the leaves cannot tell the program from its normal form. -/
  normal : ∀ (onInt : Word → m α) (onVar : String → Span → m α),
    Visitor.visitProgram { int := onInt, var := onVar } p.normalize =
      Visitor.visitProgram { int := onInt, var := onVar } p

/-- Both traversals go through a program from left to right and meet each node once. -/
theorem Program.traversals_follow_nodes {m : Type → Type} [Monad m] [LawfulMonad m] {α : Type}
    [Inhabited α] (p : Program) : p.Traversed m α where
  leaves onInt onVar := Visitor.visitProgram_leaves onInt onVar p
  visited onOperand := Visitor.visitProgram_operands onOperand p
  transformed onOperand := Transformer.transformProgram_watching onOperand p
  kept := Transformer.transformProgram_inert p
  normal onInt onVar := by
    rw [Visitor.visitProgram_leaves, Visitor.visitProgram_leaves, leaves_normalize]

def Sample.assorted : Program where
  functions := [{
    name := "f"
    params := ["p"]
    body := [ret (bin (var "p") .add (int 1))] }]
  main := [
    declare "x" (int 2),
    loop (var "x") [assign "x" (bin (var "x") .sub (int 1))],
    ifElse (.unary .not (var "x")) [discard (call "f" [var "y"])]
      [ret (.group (var "z") [(.mul, int 3)])]]

theorem Program.traversals_follow_nodes_assorted :
    Sample.assorted.Traversed (Survey.Recording String) Unit ∧
      Survey.variableNames.visitProgram Sample.assorted #[] =
        ((), #["p", "x", "x", "x", "y", "z"]) ∧
      Transformer.transformProgram { operand := fun x walk => Survey.recordThen x.text walk }
          Sample.assorted #[] =
        (Sample.assorted, #["(p + 1)", "p", "1", "2", "x", "(x - 1)", "x", "1", "(!x)", "x",
          "f(y)", "y", "group(z * 3)", "z", "3"]) := by
  have h : Sample.assorted.Traversed (Survey.Recording String) Unit :=
    traversals_follow_nodes Sample.assorted
  refine ⟨h, ?_, ?_⟩
  · exact congrFun (h.leaves (fun _ => pure default) fun name _ => Survey.record name) #[]
  · exact congrFun (h.transformed fun x => Survey.record x.text) #[]

end Wordcode
