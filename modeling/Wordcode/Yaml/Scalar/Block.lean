import Wordcode.Yaml.Scalar

/-!
Block scalars: the indented lines below a header. Literal ones keep their line breaks, folded ones
turn single breaks between lines into spaces.
-/

namespace Wordcode.Yaml

inductive Chomp where
  | strip
  | clip
  | keep
  deriving DecidableEq

def Chomp.ofChar? : Char → Option Chomp
  | '-' => some .strip
  | '+' => some .keep
  | _ => none

def indentMark? (c : Char) : Option Nat := (digit? 10 c).filter (0 < ·)

def blockHeader : List Char → Chomp × Option Nat × Nat
  | a :: b :: _ =>
    match Chomp.ofChar? a, indentMark? a, Chomp.ofChar? b, indentMark? b with
    | some chomp, _, _, some n => (chomp, some n, 2)
    | some chomp, _, _, none => (chomp, none, 1)
    | none, some n, some chomp, _ => (chomp, some n, 2)
    | none, some n, none, _ => (.clip, some n, 1)
    | none, none, _, _ => (.clip, none, 0)
  | [a] =>
    match Chomp.ofChar? a, indentMark? a with
    | some chomp, _ => (chomp, none, 1)
    | none, some n => (.clip, some n, 1)
    | none, none => (.clip, none, 0)
  | [] => (.clip, none, 0)

/-- Past blank lines and the indentation of the next line, up to column `indent` where it is
known: the breaks passed, the widest column reached and the place. Tabs do not indent. -/
def blankLines? (indent : Option Nat) (breaks : List Char) (widest : Nat) (c : Cursor) :
    Option (List Char × Nat × Cursor) :=
  let spaces := (c.rest.takeWhile (· == ' ')).length
  let c₁ := c.skip (indent.elim spaces fun n => min spaces (n - c.column))
  let widest := max widest c₁.column
  if c₁.rest.head? == some '\t' && indent.all (c₁.column < ·) then none
  else
    let (lineBreak, c₂) := c₁.lineBreak
    if lineBreak.isEmpty then some (breaks, widest, c₁)
    else if c₂.rest.length < c.rest.length then
      blankLines? indent (breaks ++ lineBreak) widest c₂
    else none
termination_by c.rest.length

/-- The lines of a block scalar as they are gathered: `lineBreak` ends the last line, `breaks` are
those of the blank lines after it, and `shifted` says that it starts with a blank. -/
structure Lines where
  text : List Char := []
  lineBreak : List Char := []
  breaks : List Char := []
  shifted : Bool := false

def Lines.add (keepBreaks : Bool) (ls : Lines) (line lineBreak breaks : List Char) : Lines :=
  let shifted := line.head?.any isBlank
  let joint :=
    if !keepBreaks && ls.lineBreak == ['\n'] && !ls.shifted && !shifted then
      if ls.breaks.isEmpty then [' '] else []
    else ls.lineBreak
  ⟨ls.text ++ joint ++ ls.breaks ++ line, lineBreak, breaks, shifted⟩

def Lines.chomped (chomp : Chomp) (ls : Lines) : List Char :=
  match chomp with
  | .strip => ls.text
  | .clip => ls.text ++ ls.lineBreak
  | .keep => ls.text ++ ls.lineBreak ++ ls.breaks

def lines? (keepBreaks : Bool) (indent : Nat) (ls : Lines) (c : Cursor) :
    Option (Lines × Cursor) :=
  if c.column = indent ∧ c.rest ≠ [] then
    let line := c.rest.takeWhile (!isBreak ·)
    let (lineBreak, c₁) := (c.skip line.length).lineBreak
    match blankLines? (some indent) [] 0 c₁ with
    | none => none
    | some (breaks, _, c₂) =>
      if c₂.rest.length < c.rest.length then
        lines? keepBreaks indent (ls.add keepBreaks line lineBreak breaks) c₂
      else none
  else some (ls, c)
termination_by c.rest.length

/-- The block scalar whose mark is at this place, below a collection that is indented to the column
before `floor`, and the place after it. -/
def block? (keepBreaks : Bool) (floor : Nat) (c : Cursor) : Option (Scalar × Cursor) := do
  let (chomp, mark, width) := blockHeader c.next.rest
  let c ← (c.next.skip width).lineEnd?
  let (breaks, widest, c) ← blankLines? (mark.map (floor - 1 + ·)) [] 0 c
  let indent := (mark.map (floor - 1 + ·)).getD (max (max widest floor) 1)
  let (ls, c) ← lines? keepBreaks indent { breaks } c
  return (⟨if keepBreaks then .literal else .folded, String.ofList (ls.chomped chomp)⟩, c)

end Wordcode.Yaml
