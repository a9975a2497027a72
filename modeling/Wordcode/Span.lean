/-!
Source ranges. A span tags a node with the byte range it was read from; it shows up in
diagnostics and nowhere else.
-/

namespace Wordcode

/-- A half-open byte range of a source text. -/
structure Span where
  start : Nat := 0
  stop : Nat := 0
deriving DecidableEq, Inhabited

def Span.text (s : Span) : String := s!"{s.start}..{s.stop}"

end Wordcode
