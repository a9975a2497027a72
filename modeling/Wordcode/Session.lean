import Wordcode.Code.Listing
import Wordcode.Journal

/-!
From a program to its value under given limits. The limits are checked first; then the program is
normalized, compiled and run on a machine of its own.
-/

namespace Wordcode

structure SyntaxError where
  span : Span := {}
  message : String
deriving DecidableEq

def SyntaxError.text (e : SyntaxError) : String :=
  "Parse error at " ++ e.span.text ++ ": " ++ e.message

abbrev Reader := String → Except SyntaxError Program

inductive Failure where
  | unreadable (error : SyntaxError)
  | limits (error : LimitsError)
  | rejected (diagnostics : List Diagnostic)
  | faulted (fault : Fault)
deriving DecidableEq

def Failure.message : Failure → String
  | unreadable e => "Parsing source: " ++ e.text
  | limits e => e.message
  | rejected ds => Diagnostic.summary ds
  | faulted f => "Executing bytecode: " ++ f.message

structure Prepared where
  image : Image
  limits : Limits
deriving DecidableEq

namespace Prepared

def run (p : Prepared) (steps : Nat) : Option (Except Failure Word) :=
  ((Machine.new p.limits).execute steps p.image.code p.image.entry).map fun (result, _) =>
    result.mapError .faulted

def runJournal (p : Prepared) (steps : Nat) : List Record :=
  (Machine.new p.limits).journal steps p.image.code p.image.entry

end Prepared

namespace Program

def prepare (p : Program) (limits : Limits) : Except Failure Prepared :=
  match limits.problem? with
  | some e => .error (.limits e)
  | none =>
    match p.normalize.compile with
    | .error ds => .error (.rejected ds)
    | .ok image => .ok { image, limits }

def prepareJournal (p : Program) (limits : Limits) : List Record :=
  match limits.problem? with
  | some _ => []
  | none =>
    p.normalizeJournal ++ p.normalize.compileJournal
      ++ match p.normalize.compile with
         | .error _ => []
         | .ok im => [.prepared im.code.size im.bodies.length]

def run (p : Program) (limits : Limits) (steps : Nat) : Option (Except Failure Word) :=
  match p.prepare limits with
  | .error e => some (.error e)
  | .ok prepared => prepared.run steps

def runJournal (p : Program) (limits : Limits) (steps : Nat) : List Record :=
  p.prepareJournal limits
    ++ match p.prepare limits with
       | .error _ => []
       | .ok prepared => prepared.runJournal steps

end Program

def Reader.run (read : Reader) (source : String) (limits : Limits) (steps : Nat) :
    Option (Except Failure Word) :=
  match read source with
  | .error e => some (.error (.unreadable e))
  | .ok p => p.run limits steps

def Reader.runJournal (read : Reader) (source : String) (limits : Limits) (steps : Nat) :
    List Record :=
  match read source with
  | .error _ => []
  | .ok p => p.runJournal limits steps

end Wordcode
