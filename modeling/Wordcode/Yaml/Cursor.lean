import Wordcode.Yaml.Character

/-!
A place in a text: what is still to be read, and how far into the text and into its line that is.
-/

namespace Wordcode.Yaml

/-- `breaks` counts the break characters passed, so two places are on one line iff it is equal. -/
structure Cursor where
  rest : List Char
  index : Nat := 0
  breaks : Nat := 0
  column : Nat := 0

namespace Cursor

def next (c : Cursor) : Cursor :=
  match c.rest with
  | [] => c
  | ch :: rest =>
    if isBreak ch then ⟨rest, c.index + 1, c.breaks + 1, 0⟩
    else ⟨rest, c.index + 1, c.breaks, c.column + 1⟩

def skip : Nat → Cursor → Cursor
  | 0, c => c
  | n + 1, c => skip n c.next

def upTo (rest : List Char) (c : Cursor) : Cursor := c.skip (c.rest.length - rest.length)

def skipWhile (p : Char → Bool) (c : Cursor) : Cursor := c.upTo (c.rest.dropWhile p)

def lineBreak (c : Cursor) : List Char × Cursor :=
  match c.rest with
  | '\r' :: '\n' :: _ => (['\n'], c.skip 2)
  | ch :: _ => if isBreak ch then (breaksOf [ch], c.next) else ([], c)
  | [] => ([], c)

def lineEnd? (c : Cursor) : Option Cursor :=
  let c := c.skipWhile isBlank
  let c := if c.rest.head? == some '#' then c.skipWhile (!isBreak ·) else c
  if c.rest.head?.all isBreak then some c.lineBreak.2 else none

def startMark : List Char := ['-', '-', '-']

def endMark : List Char := ['.', '.', '.']

def atMark (mark : List Char) (c : Cursor) : Bool :=
  c.column == 0 && mark.isPrefixOf c.rest && endsWord (c.rest.drop mark.length).head?

def atAnyMark (c : Cursor) : Bool := c.atMark startMark || c.atMark endMark

end Cursor

end Wordcode.Yaml
