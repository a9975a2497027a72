import Wordcode.Code.Image

/-!
A check of where control can go: the stream decodes, calls lead to bodies, and jumps stay in theirs
or lead to the end of the stream. Jumps whose destination is no word are not looked at.
-/

namespace Wordcode

structure JumpSite where
  address : Nat
  target : Word
  conditional : Bool
deriving DecidableEq

inductive ControlFlowError where
  | undecodable (error : DecodeError)
  | negativeCallTarget
  | callToNoBody (address target : Nat)
  | jumpBeforeStream (address : Nat)
  | jumpOffBoundary (address target : Nat)
  | jumpOutsideBodies (address : Nat)
  | jumpLeavesBody (address : Nat) (body : String) (target : Nat)
deriving DecidableEq

def ControlFlowError.message : ControlFlowError → String
  | undecodable e => e.message
  | negativeCallTarget => "Negative call target"
  | callToNoBody address target => s!"Call at {address} targets {target}, which starts no body"
  | jumpBeforeStream address => s!"Jump at {address} lands before the stream"
  | jumpOffBoundary address target =>
    s!"Jump at {address} lands on {target}, which is not an instruction boundary"
  | jumpOutsideBodies address => s!"Jump at {address} lies outside every body"
  | jumpLeavesBody address body target =>
    s!"Jump at {address} in " ++ body ++ s!" leaves its body for {target}"

namespace Image

def jumpSites (im : Image) : Except DecodeError (List JumpSite) := do
  let decoded ← im.instructions.mapM id
  return decoded.filterMap fun (address, i) =>
    (i.jumpTarget address).map fun target => { address, target, conditional := i.isConditional }

def checkCall (im : Image) : Decoded → Except ControlFlowError Nat
  | .error e => .error (.undecodable e)
  | .ok (address, .call _ target) =>
    match target.toIndex? with
    | none => .error .negativeCallTarget
    | some entry =>
      if (im.bodyAt? entry).isSome then .ok address else .error (.callToNoBody address entry)
  | .ok (address, _) => .ok address

def checkJump (im : Image) (boundaries : List Nat) (site : JumpSite) :
    Except ControlFlowError Unit :=
  match site.target.toIndex? with
  | none => .error (.jumpBeforeStream site.address)
  | some target =>
    if boundaries.contains target then
      match im.enclosing? site.address with
      | none => .error (.jumpOutsideBodies site.address)
      | some body =>
        if target == im.code.size || body.contains target then .ok ()
        else .error (.jumpLeavesBody site.address body.name target)
    else .error (.jumpOffBoundary site.address target)

/-- Calls are checked in the order of the stream, and jumps after them. -/
def checkControlFlow (im : Image) : Except ControlFlowError Unit := do
  let addresses ← im.instructions.mapM im.checkCall
  let sites ← im.jumpSites.mapError .undecodable
  sites.forM (im.checkJump (addresses ++ [im.code.size]))

end Image

end Wordcode
