import Wordcode.Yaml.Anchor
import Wordcode.Yaml.Token.Lexer

/-!
Counts as YAML values, and texts that hold a mapping from names to counts.
-/

namespace Wordcode.Yaml

/-- A count fits 64 bits. It may have a plus sign and a base mark; without a base mark it has no
leading zero. -/
def count? (cs : List Char) : Option Nat :=
  let cs := match cs with
    | '+' :: rest => rest
    | _ => cs
  let n? := match cs with
    | '0' :: 'x' :: rest => numeral? 16 rest
    | '0' :: 'o' :: rest => numeral? 8 rest
    | '0' :: 'b' :: rest => numeral? 2 rest
    | '0' :: _ :: _ => none
    | _ => numeral? 10 cs
  n?.filter (· ≤ 18446744073709551615)

def intTag : Uri := .ofString "tag:yaml.org,2002:int"

def Node.count? (n : Node) : Option Nat :=
  if n.scalar.style = .plain ∨ n.scalar.style = .literal ∧ n.tag = some intTag then
    Yaml.count? n.scalar.text.toList
  else none

def counts? (text : String) : Option (List (String × Nat)) := do
  let nodes ← (← Mapping.ofTokens? (← tokens? text)).nodes?
  nodes.mapM fun (key, value) => return (key.scalar.text, ← value.count?)

end Wordcode.Yaml
