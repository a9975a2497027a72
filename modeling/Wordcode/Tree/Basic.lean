import Wordcode.Operator.Basic
import Wordcode.Span
import Wordcode.Word

/-!
Programs as trees. An expression is a chain, read from left to right at one level. Blocks open no
scope: a name is visible from its declaration to the end of the body.
-/

namespace Wordcode

inductive Operand where
  | int (value : Word)
  | var (name : String) (span : Span)
  | unary (op : UnaryOperator) (operand : Operand)
  | chain (first : Operand) (rest : List (BinaryOperator × Operand))
  | group (first : Operand) (rest : List (BinaryOperator × Operand))
  | call (name : String) (args : List Operand) (span : Span)
deriving Inhabited

abbrev Links := List (BinaryOperator × Operand)

structure Chain where
  first : Operand
  rest : Links
deriving Inhabited

def Chain.isTrivial (c : Chain) : Bool := c.rest.isEmpty

inductive Statement where
  | declare (name : String) (initial : Operand) (span : Span)
  | assign (name : String) (value : Operand) (span : Span)
  | cond (test : Operand) (yes : List Statement) (no : Option (List Statement)) (span : Span)
  | loop (test : Operand) (body : List Statement) (span : Span)
  | discard (value : Operand) (span : Span)
  | ret (value : Operand) (span : Span)
deriving Inhabited

abbrev Block := List Statement

structure Function where
  name : String
  params : List String
  body : Block
  span : Span := {}
deriving Inhabited

structure Program where
  functions : List Function := []
  main : Block
deriving Inhabited

end Wordcode
