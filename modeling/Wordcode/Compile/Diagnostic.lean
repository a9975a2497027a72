import Wordcode.Span

/-!
What can be wrong with a program: names that are missing or declared twice, and calls with the wrong
number of arguments.
-/

namespace Wordcode

inductive Diagnostic where
  | undeclaredVariable (name : String) (span : Span)
  | duplicateDeclaration (name : String) (span : Span)
  | duplicateFunction (name : String) (span : Span)
  | undefinedFunction (name : String) (span : Span)
  | arityMismatch (name : String) (expected found : Nat) (span : Span)
deriving DecidableEq, Inhabited

namespace Diagnostic

def span : Diagnostic → Span
  | undeclaredVariable _ s | duplicateDeclaration _ s | duplicateFunction _ s
  | undefinedFunction _ s | arityMismatch _ _ _ s => s

def message : Diagnostic → String
  | undeclaredVariable name s => "Undeclared variable '" ++ name ++ "' at " ++ s.text
  | duplicateDeclaration name s => "Duplicate declaration of '" ++ name ++ "' at " ++ s.text
  | duplicateFunction name s => "Duplicate function definition '" ++ name ++ "' at " ++ s.text
  | undefinedFunction name s => "Undefined function '" ++ name ++ "' at " ++ s.text
  | arityMismatch name expected found s =>
    "Function '" ++ name ++ s!"' expected {expected} arguments, got {found} at " ++ s.text

def summary (ds : List Diagnostic) : String :=
  "Compilation failed: " ++ "; ".intercalate (ds.map message)

end Diagnostic

end Wordcode
