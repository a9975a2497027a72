import Wordcode.Session

/-!
A catalogue of sample programs, each with the limits to run it under and what is expected of it.
-/

namespace Wordcode

inductive Expectation where
  | value (value : Word)
  | rejection (text : String)
  | fault (text : String)
deriving DecidableEq

structure Sample where
  name : String
  program : Program
  expected : Expectation
  limits : Limits := {}
  /-- Whether it runs long enough to be timed. -/
  timed : Bool := false

namespace Sample

def int (value : Word) : Operand := .int value

def var (name : String) : Operand := .var name {}

def bin (left : Operand) (op : BinaryOperator) (right : Operand) : Operand :=
  .chain left [(op, right)]

def call (name : String) (args : List Operand) : Operand := .call name args {}

def declare (name : String) (x : Operand) : Statement := .declare name x {}

def assign (name : String) (x : Operand) : Statement := .assign name x {}

def ifThen (test : Operand) (yes : Block) : Statement := .cond test yes none {}

def ifElse (test : Operand) (yes no : Block) : Statement := .cond test yes (some no) {}

def loop (test : Operand) (body : Block) : Statement := .loop test body {}

def discard (x : Operand) : Statement := .discard x {}

def ret (x : Operand) : Statement := .ret x {}

/-! ### Programs -/

def literalReturn : Program := { main := [ret (int 7)] }

def groupedPrecedence : Program :=
  { main := [ret (.chain (int 2) [(.add, .group (int 3) [(.mul, int 4)]), (.sub, int 1)])] }

def bitwiseChain : Program :=
  { main := [ret (.chain (.group (int 1) [(.shiftLeft, int 10)])
      [(.bitOr, .group (int 12) [(.bitAnd, int 10)]), (.bitXor, int 3)])] }

def unaryAndLogic : Program :=
  { main := [
      declare "x" (int 5),
      declare "y" (.unary .minus (int 1)),
      ret (.chain (.unary .minus (var "x"))
        [(.add, .unary .bitNot (var "y")),
         (.add, .group (.unary .not (int 0))
           [(.logicalAnd, .group (int 3) [(.logicalOr, int 0)])])])] }

def branches : Program :=
  { main := [
      declare "x" (int 3),
      ifElse (bin (var "x") .greater (int 2)) [assign "x" (int 10)] [assign "x" (int 20)],
      ret (var "x")] }

def branchOn (test : Word) : Program :=
  { main := [
      declare "r" (int 0),
      ifElse (int test) [assign "r" (int 1)] [assign "r" (int 2)],
      ret (var "r")] }

def sumDown : Program :=
  { main := [
      declare "n" (int 5),
      declare "sum" (int 0),
      loop (bin (var "n") .greater (int 0)) [
        assign "sum" (bin (var "sum") .add (var "n")),
        assign "n" (bin (var "n") .sub (int 1))],
      ret (var "sum")] }

def discarded : Program :=
  { main := [discard (int 5), discard (bin (int 6) .mul (int 6)), ret (int 7)] }

def fact : Function :=
  { name := "fact"
    params := ["n"]
    body := [
      ifThen (bin (var "n") .less (int 2)) [ret (int 1)],
      ret (bin (var "n") .mul (call "fact" [bin (var "n") .sub (int 1)]))] }

def factorialOf (n : Word) : Program :=
  { functions := [fact], main := [ret (call "fact" [int n])] }

def fibonacci : Program :=
  let fib (back : Word) := call "fib" [bin (var "n") .sub (int back)]
  { functions := [{
      name := "fib"
      params := ["n"]
      body := [
        ifThen (bin (var "n") .less (int 2)) [ret (var "n")],
        ret (bin (fib 1) .add (fib 2))] }]
    main := [ret (call "fib" [int 15])] }

def greatestCommonDivisor : Program :=
  { functions := [{
      name := "gcd"
      params := ["a", "b"]
      body := [
        loop (bin (var "b") .notEqual (int 0)) [
          declare "t" (var "b"),
          assign "b" (bin (var "a") .mod (var "b")),
          assign "a" (var "t")],
        ret (var "a")] }]
    main := [ret (call "gcd" [int 1071, int 462])] }

def parity (name other : String) (base : Word) : Function :=
  { name
    params := ["n"]
    body := [
      ifThen (bin (var "n") .equal (int 0)) [ret (int base)],
      ret (call other [bin (var "n") .sub (int 1)])] }

def mutualRecursion : Program :=
  { functions := [parity "is_even" "is_odd" 1, parity "is_odd" "is_even" 0]
    main := [ret (call "is_even" [int 10])] }

def countUp : Program :=
  { main := [
      declare "i" (int 0),
      declare "total" (int 0),
      loop (bin (var "i") .less (int 10000)) [
        assign "i" (bin (var "i") .add (int 1)),
        assign "total" (bin (var "total") .add (var "i"))],
      ret (var "total")] }

def undeclared : Program := { main := [ret (var "y")] }

def usedBeforeDeclared : Program :=
  { main := [declare "x" (var "y"), declare "y" (int 1), ret (var "x")] }

def declaredTwice : Program :=
  { main := [declare "x" (int 1), declare "x" (int 2), ret (var "x")] }

def undefinedCall : Program := { main := [ret (call "nope" [])] }

def wrongArity : Program :=
  { functions := [fact], main := [ret (call "fact" [int 1, int 2])] }

def divisionByZero : Program :=
  { main := [declare "zero" (int 0), ret (bin (int 1) .div (var "zero"))] }

def runaway : Program :=
  { functions := [{
      name := "f"
      params := ["n"]
      body := [ret (call "f" [bin (var "n") .add (int 1)])] }]
    main := [ret (call "f" [int 0])] }

def missingReturn : Program := { main := [declare "x" (int 1)] }

/-! ### The catalogue -/

def all : List Sample := [
  { name := "literal_return", program := literalReturn, expected := .value 7 },
  { name := "grouped_precedence", program := groupedPrecedence, expected := .value 13 },
  { name := "bitwise_chain", program := bitwiseChain, expected := .value 1035 },
  { name := "unary_and_logic", program := unaryAndLogic, expected := .value (-4) },
  { name := "if_else", program := branches, expected := .value 10 },
  { name := "while_sum", program := sumDown, expected := .value 15 },
  { name := "discarded_expressions", program := discarded, expected := .value 7 },
  { name := "if_literal_true", program := branchOn 1, expected := .value 1 },
  { name := "if_literal_false", program := branchOn 0, expected := .value 2 },
  { name := "factorial", program := factorialOf 10, expected := .value 3628800, timed := true },
  { name := "factorial_5", program := factorialOf 5, expected := .value 120 },
  { name := "factorial_0", program := factorialOf 0, expected := .value 1 },
  { name := "fibonacci", program := fibonacci, expected := .value 610, timed := true },
  { name := "gcd", program := greatestCommonDivisor, expected := .value 21 },
  { name := "mutual_recursion", program := mutualRecursion, expected := .value 1 },
  { name := "count_loop", program := countUp, expected := .value 50005000, timed := true },
  { name := "undeclared_variable", program := undeclared,
    expected := .rejection "Undeclared variable 'y'" },
  { name := "use_before_declaration", program := usedBeforeDeclared,
    expected := .rejection "Undeclared variable 'y'" },
  { name := "duplicate_declaration", program := declaredTwice,
    expected := .rejection "Duplicate declaration of 'x'" },
  { name := "undefined_function", program := undefinedCall,
    expected := .rejection "Undefined function 'nope'" },
  { name := "arity_mismatch", program := wrongArity,
    expected := .rejection "Function 'fact' expected 1 arguments, got 2" },
  { name := "division_by_zero", program := divisionByZero, expected := .fault "Division by zero" },
  { name := "runaway_recursion", program := runaway,
    expected := .fault "Call depth limit of 512 exceeded" },
  { name := "runaway_recursion_small_stack", program := runaway,
    expected := .fault "Stack overflow", limits := { stackCapacity := 64 } },
  { name := "missing_return", program := missingReturn, expected := .fault "ran past the end" }]

def find? (name : String) : Option Sample := all.find? (·.name == name)

def run (s : Sample) (steps : Nat) : Option (Except Failure Word) := s.program.run s.limits steps

def runJournal (s : Sample) (steps : Nat) : List Record := s.program.runJournal s.limits steps

def failureMessage (s : Sample) (f : Failure) : String :=
  "Running fixture " ++ s.name ++ ": " ++ f.message

end Sample

end Wordcode
