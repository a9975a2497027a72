import Wordcode.Tree.Basic

/-!
The canonical text of a tree. Every chain and every unary operator is parenthesised, a group is
marked by the word `group`, and a block stands on one line. Spans do not show.
-/

namespace Wordcode

mutual
def Operand.text : Operand → String
  | .int value => value.text
  | .var name _ => name
  | .unary op x => "(" ++ op.symbol ++ x.text ++ ")"
  | .chain first rest => "(" ++ first.text ++ Links.text rest ++ ")"
  | .group first rest => "group(" ++ first.text ++ Links.text rest ++ ")"
  | .call name args _ => name ++ "(" ++ ", ".intercalate (Operand.texts args) ++ ")"
def Links.text : Links → String
  | [] => ""
  | (op, x) :: rest => " " ++ op.symbol ++ " " ++ x.text ++ Links.text rest
def Operand.texts : List Operand → List String
  | [] => []
  | x :: rest => x.text :: Operand.texts rest
end

def Chain.text (c : Chain) : String := (Operand.chain c.first c.rest).text

mutual
def Statement.text : Statement → String
  | .declare name x _ => "var " ++ name ++ " = " ++ x.text ++ ";"
  | .assign name x _ => name ++ " = " ++ x.text ++ ";"
  | .cond test yes none _ => "if (" ++ test.text ++ ") \x7b" ++ Block.inner yes ++ " \x7d"
  | .cond test yes (some no) _ =>
    "if (" ++ test.text ++ ") \x7b" ++ Block.inner yes ++ " \x7d else \x7b" ++ Block.inner no
      ++ " \x7d"
  | .loop test body _ => "while (" ++ test.text ++ ") \x7b" ++ Block.inner body ++ " \x7d"
  | .discard x _ => x.text ++ ";"
  | .ret x _ => "return " ++ x.text ++ ";"
def Block.inner : Block → String
  | [] => ""
  | s :: rest => " " ++ s.text ++ Block.inner rest
end

def Function.text (f : Function) : String :=
  "func " ++ f.name ++ "(" ++ ", ".intercalate f.params ++ ") \x7b" ++ Block.inner f.body ++ " \x7d"

def Program.text (p : Program) : String :=
  String.join ((p.functions.map Function.text ++ p.main.map Statement.text).map (· ++ "\n"))

end Wordcode
