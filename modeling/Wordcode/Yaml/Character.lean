/-!
The characters of YAML texts: which of them a text may hold, which end a line and which part words.
-/

namespace Wordcode.Yaml

def isPrintable (c : Char) : Bool :=
  let n := c.toNat
  c == '\t' || c == '\n' || c == '\r' || (0x20 ≤ n && n ≤ 0x7e) || n == 0x85
    || (0xa0 ≤ n && n ≤ 0xfffd) || 0x10000 ≤ n

def isBlank (c : Char) : Bool := c == ' ' || c == '\t'

def isBreak (c : Char) : Bool :=
  c == '\n' || c == '\r' || c == '\u0085' || c == '\u2028' || c == '\u2029'

def isGap (c : Char) : Bool := isBlank c || isBreak c

def endsWord (next : Option Char) : Bool := next.all isGap

def isFlowMark (c : Char) : Bool := [',', '[', ']', '\x7b', '\x7d'].contains c

def isNameChar (c : Char) : Bool := c.isAlphanum || c == '-' || c == '_'

def digit? (base : Nat) (c : Char) : Option Nat :=
  let d? :=
    if '0' ≤ c ∧ c ≤ '9' then some (c.toNat - '0'.toNat)
    else if 'a' ≤ c ∧ c ≤ 'f' then some (c.toNat - 'a'.toNat + 10)
    else if 'A' ≤ c ∧ c ≤ 'F' then some (c.toNat - 'A'.toNat + 10)
    else none
  d?.filter (· < base)

def numeral? (base : Nat) (cs : List Char) : Option Nat :=
  if cs.isEmpty then none
  else cs.foldlM (fun n c => (digit? base c).map (n * base + ·)) 0

/-- The line breaks among the characters of a gap. All but the two separators are line feeds; a
carriage return and its line feed are one break. -/
def breaksOf : List Char → List Char
  | [] => []
  | '\r' :: '\n' :: rest => '\n' :: breaksOf rest
  | c :: rest =>
    if c == '\u2028' || c == '\u2029' then c :: breaksOf rest
    else if isBreak c then '\n' :: breaksOf rest
    else breaksOf rest

/-- What a gap inside a scalar stands for. Blanks within a line stay. A single line feed becomes a
space, and before further breaks it goes. -/
def folded (gap : List Char) : List Char :=
  match breaksOf gap with
  | [] => gap
  | ['\n'] => [' ']
  | '\n' :: more => more
  | breaks => breaks

end Wordcode.Yaml
