import Wordcode.Yaml.Mapping

/-!
Anchors name nodes of a document, and references stand for the nodes they name.
-/

namespace Wordcode.Yaml

/-- The anchors met so far. Each gets the number of names known before it; `nodes` tells what bears
a number, the latest first, and has no node for a mapping. -/
structure Anchors where
  numbers : List (String × Nat) := []
  nodes : List (Nat × Option Node) := []

def Anchors.add (node : Option Node) (name : String) (a : Anchors) : Anchors :=
  let n := a.numbers.length
  ⟨(name, n) :: a.numbers.filter (·.1 != name), (n, node) :: a.nodes⟩

inductive Target where
  | node (n : Node)
  | number (n : Nat)

/-- An anchor counts from its node on; a reference needs one before it. -/
def Leaf.target? (a : Anchors) : Leaf → Option (Target × Anchors)
  | .node anchor n => some (.node n, anchor.elim a fun name => a.add (some n) name)
  | .reference name => (a.numbers.lookup name).map fun n => (.number n, a)

def targets? (a : Anchors) : List (Leaf × Leaf) → Option (List (Target × Target) × Anchors)
  | [] => some ([], a)
  | (key, value) :: entries => do
    let (key, a) ← key.target? a
    let (value, a) ← value.target? a
    let (targets, a) ← targets? a entries
    return ((key, value) :: targets, a)

def Target.node? (a : Anchors) : Target → Option Node
  | .node n => some n
  | .number n => (a.nodes.lookup n).join

def Mapping.nodes? (m : Mapping) : Option (List (Node × Node)) := do
  let a : Anchors := m.anchor.elim {} fun name => Anchors.add none name {}
  let (targets, a) ← targets? a m.entries
  targets.mapM fun (key, value) => return (← key.node? a, ← value.node? a)

end Wordcode.Yaml
