import Wordcode.Yaml.Scalar

/-!
Plain scalars: words without quotes. A comment, a document mark, a colon that ends a word or a
smaller indentation ends them, and so do the marks of a flow collection inside one.
-/

namespace Wordcode.Yaml

/-- The characters up to the next gap or end of the scalar. In a flow collection a colon must not
stand right before another mark. -/
def plainRun? (inFlow : Bool) : List Char → Option (List Char)
  | [] => some []
  | c :: rest =>
    if isGap c || (c == ':' && endsWord rest.head?) || (inFlow && isFlowMark c) then some []
    else if inFlow && c == ':' && rest.head?.any (fun d => d == '?' || isFlowMark d) then none
    else (plainRun? inFlow rest).map (c :: ·)

def hasTabBefore (floor : Nat) : Option Nat → List Char → Bool
  | _, [] => false
  | column, c :: rest =>
    if isBreak c then hasTabBefore floor (some 0) rest
    else (c == '\t' && column.any (· < floor)) || hasTabBefore floor (column.map (· + 1)) rest

/-- The rest of a plain scalar after `text` and a gap: the whole text, whether a line ended behind
it, and the place where reading goes on. Outside flow collections its lines reach column `floor`. -/
def plainFrom? (inFlow : Bool) (floor : Nat) (text gap : List Char) (c : Cursor) :
    Option (List Char × Bool × Cursor) :=
  let ended := some (text, gap.any isBreak, c)
  if c.atAnyMark || c.rest.head? == some '#' then ended
  else
    match plainRun? inFlow c.rest with
    | none => none
    | some [] => ended
    | some run =>
      let text := text ++ folded gap ++ run
      let c₁ := c.skip run.length
      let gap := c₁.rest.takeWhile isGap
      let c₂ := c₁.skip gap.length
      if gap.isEmpty then some (text, false, c₁)
      else if hasTabBefore floor none gap then none
      else if !inFlow && c₂.column < floor then some (text, gap.any isBreak, c₂)
      else if c₂.rest.length < c.rest.length then plainFrom? inFlow floor text gap c₂
      else none
termination_by c.rest.length

def plain? (inFlow : Bool) (floor : Nat) (c : Cursor) : Option (Scalar × Bool × Cursor) :=
  (plainFrom? inFlow floor [] [] c).map fun (text, broken, c) =>
    (⟨.plain, String.ofList text⟩, broken, c)

end Wordcode.Yaml
