import Wordcode.Yaml.Token

/-!
A document with a flat mapping of scalars, made of tokens. Other collections are refused, and a
document without content is the empty mapping.
-/

namespace Wordcode.Yaml

structure Node where
  tag : Option Uri := none
  scalar : Scalar
  deriving Repr, DecidableEq

inductive Leaf where
  | node (anchor : Option String) (n : Node)
  | reference (name : String)
  deriving Repr, DecidableEq

structure Mapping where
  anchor : Option String := none
  entries : List (Leaf × Leaf) := []
  deriving Repr, DecidableEq

/-! ### Properties of nodes -/

abbrev Handles := List (String × Uri)

def standardHandles : Handles :=
  [("!", .ofString "!"), ("!!", .ofString "tag:yaml.org,2002:")]

def resolveTag? (handles : Handles) (handle : String) (suffix : Uri) : Option Uri :=
  if handle.isEmpty then some suffix
  else (handles.lookup handle).map (· ++ suffix)

structure Properties where
  anchor : Option String := none
  tag : Option Uri := none

def Properties.isEmpty (p : Properties) : Bool := p.anchor.isNone && p.tag.isNone

def properties? (handles : Handles) : List Token → Option (Properties × List Token)
  | .anchor name :: .tag handle suffix :: rest
  | .tag handle suffix :: .anchor name :: rest => do
    return (⟨some name, some (← resolveTag? handles handle suffix)⟩, rest)
  | .anchor name :: rest => some (⟨some name, none⟩, rest)
  | .tag handle suffix :: rest => do
    return (⟨none, some (← resolveTag? handles handle suffix)⟩, rest)
  | rest => some ({}, rest)

/-! ### Entries -/

def startsCollection : Token → Bool
  | .sequenceStart | .mappingStart | .flowSequenceStart | .flowMappingStart | .item => true
  | _ => false

def leaf? (handles : Handles) (ts : List Token) : Option (Leaf × List Token) := do
  match ts with
  | .reference name :: rest => some (.reference name, rest)
  | _ =>
    let (p, rest) ← properties? handles ts
    match rest with
    | .scalar s :: rest => some (.node p.anchor ⟨p.tag, s⟩, rest)
    | _ =>
      if p.isEmpty || rest.head?.any startsCollection then none
      else some (.node p.anchor ⟨p.tag, ⟨.plain, ""⟩⟩, rest)

def entry? (handles : Handles) (ts : List Token) : Option ((Leaf × Leaf) × List Token) := do
  match ← leaf? handles ts with
  | (key, .value :: rest) =>
    let (value, rest) ← leaf? handles rest
    return ((key, value), rest)
  | _ => none

def blockEntries? (handles : Handles) (ts : List Token) :
    Option (List (Leaf × Leaf) × List Token) :=
  match ts with
  | .blockEnd :: rest => some ([], rest)
  | .key :: ts =>
    match entry? handles ts with
    | none => none
    | some (entry, rest) =>
      if rest.length ≤ ts.length then
        (blockEntries? handles rest).map fun (entries, rest) => (entry :: entries, rest)
      else none
  | _ => none
termination_by ts.length

def flowEntries? (handles : Handles) (ts : List Token) :
    Option (List (Leaf × Leaf) × List Token) :=
  match ts with
  | .flowMappingEnd :: rest => some ([], rest)
  | .key :: ts =>
    match entry? handles ts with
    | some (entry, .flowMappingEnd :: rest) => some ([entry], rest)
    | some (entry, .separator :: rest) =>
      if rest.length ≤ ts.length then
        (flowEntries? handles rest).map fun (entries, rest) => (entry :: entries, rest)
      else none
    | _ => none
  | _ => none
termination_by ts.length

/-! ### Documents -/

def root? (handles : Handles) (ts : List Token) : Option (Mapping × List Token) := do
  let (p, rest) ← properties? handles ts
  match rest with
  | .mappingStart :: rest => return (← blockEntries? handles rest).map (⟨p.anchor, ·⟩) id
  | .flowMappingStart :: rest => return (← flowEntries? handles rest).map (⟨p.anchor, ·⟩) id
  | _ =>
    if p.isEmpty || rest.head?.any (fun t => startsCollection t || t matches .scalar _) then none
    else return (⟨p.anchor, []⟩, rest)

/-- The handles that the directives before a document declare, each once, and what follows. The
version is 1.1 or 1.2 and given at most once. -/
def directives? : (versioned : Bool) → (declared : Handles) → List Token →
    Option (Handles × List Token)
  | versioned, declared, .version major minor :: rest =>
    if !versioned && major == 1 && (minor == 1 || minor == 2) then directives? true declared rest
    else none
  | versioned, declared, .handle name start :: rest =>
    if (declared.lookup name).isSome then none
    else directives? versioned (declared ++ [(name, start)]) rest
  | _, declared, rest => some (declared, rest)

def endsDocument : Option Token → Bool
  | none | some .documentStart | some .documentEnd
  | some (.version _ _) | some (.handle _ _) => true
  | _ => false

namespace Mapping

/-- The mapping of the only document among the tokens of a text. The mark of its start is needed
after directives, and for a document without content. -/
def ofTokens? (ts : List Token) : Option Mapping := do
  let (declared, rest) ← directives? false [] ts
  let handles := declared ++ standardHandles
  let (mapping, rest) ← match rest with
    | .documentStart :: rest =>
      if endsDocument rest.head? then some ({}, rest) else root? handles rest
    | [] => if ts.isEmpty then some ({}, []) else none
    | _ => if rest.length < ts.length then none else root? handles rest
  if rest.all (· == .documentEnd) then some mapping else none

end Mapping

end Wordcode.Yaml
