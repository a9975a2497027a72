import Wordcode.Tree.Text
import Wordcode.Tree.Transformer
import Wordcode.Tree.Visitor

/-!
Passes built on the two traversals: surveys that collect what a tree holds, and transformations that
show the order of the nodes met.
-/

namespace Wordcode.Survey

abbrev Recording (ε : Type) := StateM (Array ε)

def record {ε : Type} (e : ε) : Recording ε Unit := modify (·.push e)

def recordThen {α : Type} (line : String) (walk : Recording String α) : Recording String α := do
  record line
  walk

def yesNo (b : Bool) : String := if b then "true" else "false"

def nodeLines : Visitor (Recording String) Unit where
  program _ walk := recordThen "program" walk
  function f walk := recordThen ("function " ++ f.name) walk
  block b walk := recordThen s!"block {b.length}" walk
  statement _ walk := recordThen "statement" walk
  declare name _ span walk := recordThen ("declaration " ++ name ++ " " ++ span.text) walk
  assign name _ span walk := recordThen ("assignment " ++ name ++ " " ++ span.text) walk
  cond _ _ no walk := recordThen ("if " ++ yesNo no.isSome) walk
  loop _ _ walk := recordThen "while" walk
  discard _ walk := recordThen "expression_statement" walk
  ret _ span walk := recordThen ("return " ++ span.text) walk
  operand _ walk := recordThen "operand" walk
  int value := record ("int " ++ value.text)
  var name span := record ("variable " ++ name ++ " " ++ span.text)
  unary op _ walk := recordThen ("unary " ++ op.symbol) walk
  chain c walk := recordThen ("expression " ++ yesNo c.isTrivial) walk
  call name args span walk :=
    recordThen (s!"call {name} {args.length} " ++ span.text) walk

def variableNames : Visitor (Recording String) Unit where
  var name _ := record name

def literalValues : Visitor (Recording Word) Word where
  int value := do
    record value
    return value

def blockSizes : Visitor (Recording Nat) Nat where
  block b walk := do
    let _ ← walk
    record b.length
    return b.length

def negating : Transformer Id where
  operand x walk := match x with
    | .int value => .int (-value)
    | _ => walk

def reversing : Transformer (Recording String) where
  program _ walk := recordThen "program" walk
  statement _ walk := recordThen "statement" walk
  operand x walk := recordThen ("operand " ++ x.text) walk
  chain c walk := do
    record ("expression " ++ c.text)
    let c' ← walk
    return { c' with rest := c'.rest.reverse }

def inert : Transformer Id := {}

end Wordcode.Survey
