import Wordcode.Code.Image
import Wordcode.Compile.Lowering
import Wordcode.Machine.Run
import Wordcode.Tree.NormalForm

/-!
The journal: what normalization, compilation and runs say about their progress. Calls and single
bodies are recorded at the finer of two levels.
-/

namespace Wordcode

inductive Level where
  | debug
  | trace
deriving DecidableEq

inductive Record where
  | normalized (collapsed : Nat)
  | bodyCompiled (body : Body)
  | compileFailed (diagnostics : Nat)
  | compiled (bodies words : Nat)
  | prepared (words bodies : Nat)
  | started (words entry : Nat)
  | called (entry argc depth : Nat)
  | returned (value : Word)
  | faulted (fault : Fault)
deriving DecidableEq

namespace Record

def level : Record → Level
  | bodyCompiled _ | called _ _ _ => .trace
  | _ => .debug

def message : Record → String
  | normalized n => s!"normalized program: {n} nodes collapsed"
  | bodyCompiled b =>
    "compiled body " ++ b.name
      ++ s!" at {b.start}: {b.stop - b.start} words, {b.locals.length} locals"
  | compileFailed n => s!"compilation failed with {n} errors"
  | compiled bodies words => s!"compiled {bodies} bodies into {words} words"
  | prepared words bodies => s!"prepared {words} words across {bodies} bodies"
  | started words entry => s!"executing {words} words from address {entry}"
  | called entry argc depth => s!"call {entry} with {argc} args at depth {depth}"
  | returned value => "execution returned " ++ value.text
  | faulted fault => "execution faulted: " ++ fault.message

def line (r : Record) : String :=
  (match r.level with | .debug => "DEBUG " | .trace => "TRACE ") ++ r.message

def shownAt (finest : Level) (r : Record) : Bool :=
  match finest with
  | .trace => true
  | .debug => r.level == .debug

end Record

def Program.normalizeJournal (p : Program) : List Record := [.normalized p.collapseAll.2]

def Program.compileJournal (p : Program) : List Record :=
  let e := p.emission
  e.bodies.map .bodyCompiled
    ++ [match e.finish with
        | .error ds => .compileFailed ds.length
        | .ok im => .compiled im.bodies.length im.code.size]

namespace Exec

def callsFrom (limit : Nat) (code : Array Word) : Nat → State → Array Record → Array Record
  | 0, _, calls => calls
  | steps + 1, s, calls =>
    let depth := s.depth
    match (step limit code).run s with
    | .ok none s =>
      callsFrom limit code steps s <|
        if depth < s.depth then
          calls.push (.called s.pc (s.frame.top - s.frame.base) s.depth)
        else calls
    | _ => calls

end Exec

def Machine.journal (m : Machine) (steps : Nat) (code : Array Word) (entry base : Nat := 0) :
    List Record :=
  if m.stack.size < base then []
  else
    let calls := Exec.callsFrom m.limits.callDepth code steps (m.start entry base) #[]
    .started code.size entry :: calls.toList
      ++ match m.execute steps code entry base with
         | some (.ok value, _) => [.returned value]
         | some (.error fault, _) => [.faulted fault]
         | none => []

end Wordcode
