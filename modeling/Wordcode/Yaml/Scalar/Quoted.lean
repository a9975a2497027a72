import Wordcode.Yaml.Scalar

/-!
Quoted scalars. Between double quotes a backslash starts an escape; between single quotes a doubled
quote stands for itself. Both may go over several lines.
-/

namespace Wordcode.Yaml

def singleRun : List Char → List Char × List Char
  | [] => ([], [])
  | '\'' :: '\'' :: rest =>
    let (run, rest) := singleRun rest
    ('\'' :: run, rest)
  | c :: rest =>
    if c == '\'' || isGap c then ([], c :: rest)
    else
      let (run, rest) := singleRun rest
      (c :: run, rest)

def escape? : Char → Option Char
  | '0' => some '\x00'
  | 'a' => some '\x07'
  | 'b' => some '\x08'
  | 't' => some '\t'
  | '\t' => some '\t'
  | 'n' => some '\n'
  | 'v' => some '\x0b'
  | 'f' => some '\x0c'
  | 'r' => some '\r'
  | 'e' => some '\x1b'
  | ' ' => some ' '
  | '"' => some '"'
  | '/' => some '/'
  | '\\' => some '\\'
  | 'N' => some '\u0085'
  | '_' => some '\u00a0'
  | 'L' => some '\u2028'
  | 'P' => some '\u2029'
  | _ => none

def coded? (digits : List Char) : Option Char :=
  (numeral? 16 digits).bind fun n => if n.isValidChar then some (Char.ofNat n) else none

def doubleRun? : List Char → Option (List Char × List Char)
  | [] => some ([], [])
  | '\\' :: 'x' :: a :: b :: rest => do
    let ch ← coded? [a, b]
    let (run, rest) ← doubleRun? rest
    return (ch :: run, rest)
  | '\\' :: 'u' :: a :: b :: c :: d :: rest => do
    let ch ← coded? [a, b, c, d]
    let (run, rest) ← doubleRun? rest
    return (ch :: run, rest)
  | '\\' :: 'U' :: a :: b :: c :: d :: e :: f :: g :: h :: rest => do
    let ch ← coded? [a, b, c, d, e, f, g, h]
    let (run, rest) ← doubleRun? rest
    return (ch :: run, rest)
  | '\\' :: e :: rest =>
    if isBreak e then some ([], '\\' :: e :: rest)
    else do
      let ch ← escape? e
      let (run, rest) ← doubleRun? rest
      return (ch :: run, rest)
  | c :: rest =>
    if c == '"' || isGap c then some ([], c :: rest)
    else do
      let (run, rest) ← doubleRun? rest
      return (c :: run, rest)

/-- What the gap at a place stands for, and the place after it. It may begin with an escaped line
break, which joins the lines. -/
def quotedGap (c : Cursor) : List Char × Cursor :=
  if c.rest.head? == some '\\' then
    let c := c.next.lineBreak.2
    (breaksOf (c.rest.takeWhile isGap), c.skipWhile isGap)
  else (folded (c.rest.takeWhile isGap), c.skipWhile isGap)

def quotedFrom? (quote : Char) (text : List Char) (c : Cursor) : Option (List Char × Cursor) :=
  if c.atAnyMark then none
  else
    match if quote == '"' then doubleRun? c.rest else some (singleRun c.rest) with
    | none | some (_, []) => none
    | some (run, stop :: rest) =>
      let c₁ := c.upTo (stop :: rest)
      if stop == quote then some (text ++ run, c₁.next)
      else
        let (gap, c₂) := quotedGap c₁
        if c₂.rest.length < c.rest.length then quotedFrom? quote (text ++ run ++ gap) c₂
        else none
termination_by c.rest.length

def quoted? (quote : Char) (c : Cursor) : Option (Scalar × Cursor) :=
  (quotedFrom? quote [] c.next).map fun (text, c) => (⟨.quoted, String.ofList text⟩, c)

end Wordcode.Yaml
