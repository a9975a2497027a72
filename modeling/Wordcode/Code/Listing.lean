import Wordcode.Code.Image
import Wordcode.Text.Blank

/-!
The listing of an image: for each body a header, its slots and its instructions, with a label in
front of every address that a jump leads to.
-/

namespace Wordcode

namespace Image

def operandText (im : Image) (b : Body) (address : Nat) (i : Instruction) : String :=
  match i with
  | .load slot | .store slot =>
    (slot.toIndex?.bind (b.locals[·]?)).getD ("@" ++ slot.text)
  | .int value | .stackAdjust value => value.text
  | .jump _ | .jumpIfFalse _ =>
    match i.jumpTarget address with
    | some target => if target == .ofNat im.code.size then "end" else target.text
    | none => ""
  | .call argc target =>
    ((target.toIndex?.bind im.bodyAt?).map (·.name)).getD ("@" ++ target.text) ++ ", " ++ argc.text
  | .unary _ | .binary _ | .ret | .pop => ""

def instructionLine (im : Image) (b : Body) (address : Nat) (i : Instruction) : String :=
  Text.trimEnd (Text.padLeft 4 (toString address) ++ "  " ++ Text.padRight 12 i.opcode.mnemonic
    ++ im.operandText b address i)

/-- An instruction's line, after its label if it has one. A stretch that cannot be read ends in a
remark. -/
def decodedLines (im : Image) (labels : List Nat) (b : Body) : Decoded → List String
  | .ok (address, i) =>
    (if labels.contains address then [s!"{address}:"] else []) ++ [im.instructionLine b address i]
  | .error e => ["      ; " ++ e.message]

def slotLines (b : Body) : List String :=
  b.locals.zipIdx.map fun (name, slot) => "      local       " ++ name ++ s!", @{slot}"

def bodyLines (im : Image) (labels : List Nat) (b : Body) : List String :=
  (b.name ++ s!"/{b.arity}:") :: slotLines b
    ++ (sweep im.code b.start b.stop).flatMap (im.decodedLines labels b)

def listingLines (im : Image) : List String :=
  let labels := im.jumpTargets
  im.bodies.flatMap (im.bodyLines labels) ++ ["end:"]

def listing (im : Image) : String := String.join (im.listingLines.map (· ++ "\n"))

end Image

end Wordcode
