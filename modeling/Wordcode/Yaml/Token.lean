import Wordcode.Yaml.Scalar.Block
import Wordcode.Yaml.Scalar.Plain
import Wordcode.Yaml.Scalar.Quoted

/-!
The tokens of a YAML text, and how those with a name are read: anchors, references, tags and
directives.
-/

namespace Wordcode.Yaml

abbrev Uri := List Nat

def Uri.ofString (s : String) : Uri := s.toList.map Char.toNat

/-- A tag with an empty handle is written out in full; another handle stands for the start of
it. -/
inductive Token where
  | version (major minor : Nat)
  | handle (name : String) (start : Uri)
  | documentStart
  | documentEnd
  | sequenceStart
  | mappingStart
  | blockEnd
  | flowSequenceStart
  | flowSequenceEnd
  | flowMappingStart
  | flowMappingEnd
  | item
  | separator
  | key
  | value
  | anchor (name : String)
  | reference (name : String)
  | tag (handle : String) (suffix : Uri)
  | scalar (s : Scalar)
  deriving Repr, DecidableEq

/-! ### Names -/

def anchorName? (c : Cursor) : Option (String × Cursor) :=
  let name := c.rest.takeWhile isNameChar
  let c := c.skip name.length
  if name.isEmpty then none
  else if c.rest.head?.all fun d =>
      isGap d || ['?', ':', ',', ']', '\x7d', '%', '@', '\x60'].contains d then
    some (String.ofList name, c)
  else none

def octetsAfter? (octet : Nat) : Option Nat :=
  if octet < 0x80 then some 0
  else if octet < 0xc0 then none
  else if octet < 0xe0 then some 1
  else if octet < 0xf0 then some 2
  else if octet < 0xf8 then some 3
  else none

def uriMarks : List Char :=
  [';', '/', '?', ':', '@', '&', '=', '+', '$', '.', '!', '~', '*', '\'', '(', ')']

def isUriChar (withFlowMarks : Bool) (c : Char) : Bool :=
  isNameChar c || uriMarks.contains c || (withFlowMarks && [',', '[', ']'].contains c)

/-- The octets of a tag's name, some of them escaped, and what follows. `pending` octets of a
character are still to come. -/
def octets? (withFlowMarks : Bool) : (pending : Nat) → List Char → Option (Uri × List Char)
  | pending, '%' :: a :: b :: rest => do
    let octet ← numeral? 16 [a, b]
    let pending ← match pending with
      | 0 => octetsAfter? octet
      | n + 1 => if 0x80 ≤ octet ∧ octet < 0xc0 then some n else none
    let (octets, rest) ← octets? withFlowMarks pending rest
    return (octet :: octets, rest)
  | _ + 1, _ => none
  | 0, c :: rest =>
    if c == '%' then none
    else if isUriChar withFlowMarks c then do
      let (octets, rest) ← octets? withFlowMarks 0 rest
      return (c.toNat :: octets, rest)
    else some ([], c :: rest)
  | 0, [] => some ([], [])

/-- A tag's name, and what follows. A zero octet ends the name; what is written behind it has to be
well formed and does not count. -/
def uri? (withFlowMarks : Bool) (cs : List Char) : Option (Uri × List Char) :=
  (octets? withFlowMarks 0 cs).map fun (octets, rest) => (octets.takeWhile (· != 0), rest)

def writtenUri? (withFlowMarks : Bool) (cs : List Char) : Option (Uri × List Char) :=
  (uri? withFlowMarks cs).filter (·.2.length < cs.length)

/-! ### Tags -/

/-- The tag behind its mark, and what follows: `<…>` in full, a handle between two marks with the
rest of the name, or a name of its own. A mark without a name is a tag too. -/
def tagName? (cs : List Char) : Option (Token × List Char) :=
  match cs with
  | '<' :: cs => do
    match ← writtenUri? true cs with
    | (uri, '>' :: rest) => some (.tag "" uri, rest)
    | _ => none
  | _ => do
    let word := cs.takeWhile isNameChar
    match cs.drop word.length with
    | '!' :: rest =>
      let (uri, rest) ← writtenUri? false rest
      return (.tag (String.ofList ('!' :: word ++ ['!'])) uri, rest)
    | rest =>
      let (uri, rest) ← uri? false rest
      let uri := word.map Char.toNat ++ uri
      return (if uri.isEmpty then .tag "" (.ofString "!") else .tag "!" uri, rest)

def tag? (inFlow : Bool) (c : Cursor) : Option (Token × Cursor) := do
  let (tag, rest) ← tagName? c.next.rest
  if endsWord rest.head? || (inFlow && rest.head? == some ',') then return (tag, c.upTo rest)
  else none

/-! ### Directives -/

def versionNumber? (cs : List Char) : Option (Nat × List Char) := do
  let digits := cs.takeWhile Char.isDigit
  if 9 < digits.length then none
  else return (← numeral? 10 digits, cs.drop digits.length)

def version? (cs : List Char) : Option (Token × List Char) := do
  match ← versionNumber? (cs.dropWhile isBlank) with
  | (major, '.' :: rest) =>
    let (minor, rest) ← versionNumber? rest
    return (.version major minor, rest)
  | _ => none

def handle? (cs : List Char) : Option (Token × List Char) := do
  match cs.dropWhile isBlank with
  | '!' :: rest =>
    let word := rest.takeWhile isNameChar
    let (name, rest) ← match word, rest.drop word.length with
      | _, '!' :: rest => some ('!' :: word ++ ['!'], rest)
      | [], rest => some (['!'], rest)
      | _, _ => none
    if rest.head?.any isBlank then
      let (start, rest) ← writtenUri? true (rest.dropWhile isBlank)
      if endsWord rest.head? then return (.handle (String.ofList name) start, rest) else none
    else none
  | _ => none

def directive? (c : Cursor) : Option (Token × Cursor) := do
  let name := c.next.rest.takeWhile isNameChar
  let rest := c.next.rest.drop name.length
  if !endsWord rest.head? then none
  else
    let (token, rest) ←
      if name = ['Y', 'A', 'M', 'L'] then version? rest
      else if name = ['T', 'A', 'G'] then handle? rest
      else none
    return (token, ← (c.upTo rest).lineEnd?)

end Wordcode.Yaml
