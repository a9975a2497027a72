import Wordcode.Yaml.Token

/-!
The tokens of a text in order. A word turns out to be a key when a colon follows it on its line, so
a token is sometimes put in before others.
-/

namespace Wordcode.Yaml

/-- A token that may still turn out to begin a key: its number and its place. It must do so if it
stands where only a key of a block mapping can. -/
structure PendingKey where
  token : Nat
  required : Bool
  place : Cursor

/-- Reading in progress. `blocks` has the columns of the open block collections, innermost first;
`outer` has an entry for each flow collection around, with the pending key outside of it. -/
structure Lexer where
  cursor : Cursor
  tokens : Array Token := #[]
  blocks : List Nat := []
  key : Option PendingKey := none
  outer : List (Option PendingKey) := []
  keyAllowed : Bool := true

namespace Lexer

def inFlow (s : Lexer) : Bool := !s.outer.isEmpty

def floor (s : Lexer) : Nat := s.blocks.head?.elim 0 (· + 1)

def emit (t : Token) (s : Lexer) : Lexer := { s with tokens := s.tokens.push t }

def mark (t : Token) (width : Nat) (s : Lexer) : Lexer :=
  { s.emit t with cursor := s.cursor.skip width }

/-! ### Keys -/

def dropKey? (s : Lexer) : Option Lexer :=
  if s.key.any (·.required) then none else some { s with key := none }

def saveKey? (s : Lexer) : Option Lexer :=
  if s.keyAllowed then do
    let s ← s.dropKey?
    let required := !s.inFlow && s.blocks.head? == some s.cursor.column
    return { s with key := some ⟨s.tokens.size, required, s.cursor⟩ }
  else some s

/-- A key and its colon are on one line and at most 1024 characters apart. -/
def isOpen (colon : Cursor) (k : PendingKey) : Bool :=
  k.place.breaks == colon.breaks && colon.index ≤ k.place.index + 1024

def openKey? (s : Lexer) (k : Option PendingKey) : Option (Option PendingKey) :=
  match k with
  | none => some none
  | some k =>
    if isOpen s.cursor k then some (some k)
    else if k.required then none
    else some none

def expireKeys? (s : Lexer) : Option Lexer := do
  let key ← s.openKey? s.key
  let outer ← s.outer.mapM s.openKey?
  return { s with key, outer }

/-! ### Indentation -/

def openBlock (t : Token) (column number : Nat) (s : Lexer) : Lexer :=
  if !s.inFlow && s.floor ≤ column then
    { s with blocks := column :: s.blocks, tokens := s.tokens.insertIdxIfInBounds number t }
  else s

def closeBlocks (stays : Nat → Bool) (s : Lexer) : Lexer :=
  if s.inFlow then s
  else
    let closed := s.blocks.takeWhile (!stays ·)
    { s with
      blocks := s.blocks.drop closed.length
      tokens := s.tokens ++ (Array.replicate closed.length Token.blockEnd) }

def leaveBlocks? (s : Lexer) : Option Lexer := do
  let s ← (s.closeBlocks fun _ => false).dropKey?
  return { s with keyAllowed := false }

/-! ### Gaps between tokens -/

/-- How many characters up to the next token, and whether a key is allowed there. Outside flow
collections a new line allows one, and then tabs are no gap. A byte order mark may start a line. -/
def gapWidth (inFlow : Bool) : (keyAllowed inComment : Bool) → (column width : Nat) →
    List Char → Nat × Bool
  | keyAllowed, _, _, width, [] => (width, keyAllowed)
  | keyAllowed, inComment, column, width, c :: rest =>
    if isBreak c then gapWidth inFlow (keyAllowed || !inFlow) false 0 (width + 1) rest
    else if inComment || c == ' ' || (c == '\t' && (inFlow || !keyAllowed))
        || (c == '\ufeff' && column == 0) then
      gapWidth inFlow keyAllowed inComment (column + 1) (width + 1) rest
    else if c == '#' then gapWidth inFlow keyAllowed true (column + 1) (width + 1) rest
    else (width, keyAllowed)

def skipGap (s : Lexer) : Lexer :=
  let (width, keyAllowed) :=
    gapWidth s.inFlow s.keyAllowed false s.cursor.column 0 s.cursor.rest
  { s with cursor := s.cursor.skip width, keyAllowed }

/-! ### Tokens -/

def documentMark? (t : Token) (s : Lexer) : Option Lexer := do
  return (← s.leaveBlocks?).mark t 3

def readDirective? (s : Lexer) : Option Lexer := do
  let s ← s.leaveBlocks?
  let (t, cursor) ← directive? s.cursor
  return { s.emit t with cursor }

def openFlow? (t : Token) (s : Lexer) : Option Lexer := do
  let s ← s.saveKey?
  return { s.mark t 1 with key := none, outer := s.key :: s.outer, keyAllowed := true }

def closeFlow? (t : Token) (s : Lexer) : Option Lexer := do
  let s ← s.dropKey?
  return { s.mark t 1 with
    key := s.outer.head?.join, outer := s.outer.drop 1, keyAllowed := false }

def separate? (s : Lexer) : Option Lexer := do
  return { (← s.dropKey?).mark .separator 1 with keyAllowed := true }

def blockMark? (t start : Token) (s : Lexer) : Option Lexer :=
  if s.inFlow || s.keyAllowed then do
    let s ← (s.openBlock start s.cursor.column s.tokens.size).dropKey?
    return s.mark t 1
  else none

def readItem? (s : Lexer) : Option Lexer := do
  return { ← s.blockMark? .item .sequenceStart with keyAllowed := true }

def readKey? (s : Lexer) : Option Lexer := do
  return { ← s.blockMark? .key .mappingStart with keyAllowed := !s.inFlow }

/-- A colon makes the pending key a key. Without one it belongs to a key written out. -/
def readValue? (s : Lexer) : Option Lexer :=
  match s.key with
  | some k =>
    let s := { s with tokens := s.tokens.insertIdxIfInBounds k.token .key }
    let s := s.openBlock .mappingStart k.place.column k.token
    some { s.mark .value 1 with key := none, keyAllowed := false }
  | none =>
    if s.inFlow || s.keyAllowed then
      let s := s.openBlock .mappingStart s.cursor.column s.tokens.size
      some { s.mark .value 1 with keyAllowed := !s.inFlow }
    else none

def readAnchor? (named : String → Token) (s : Lexer) : Option Lexer := do
  let s ← s.saveKey?
  let (name, cursor) ← anchorName? s.cursor.next
  return { s.emit (named name) with cursor, keyAllowed := false }

def readTag? (s : Lexer) : Option Lexer := do
  let s ← s.saveKey?
  let (t, cursor) ← tag? s.inFlow s.cursor
  return { s.emit t with cursor, keyAllowed := false }

def readBlock? (keepBreaks : Bool) (s : Lexer) : Option Lexer := do
  let s ← s.dropKey?
  let (scalar, cursor) ← block? keepBreaks s.floor s.cursor
  return { s.emit (.scalar scalar) with cursor, keyAllowed := true }

def readQuoted? (quote : Char) (s : Lexer) : Option Lexer := do
  let s ← s.saveKey?
  let (scalar, cursor) ← quoted? quote s.cursor
  return { s.emit (.scalar scalar) with cursor, keyAllowed := false }

def readPlain? (s : Lexer) : Option Lexer := do
  let s ← s.saveKey?
  let (scalar, broken, cursor) ← plain? s.inFlow s.floor s.cursor
  return { s.emit (.scalar scalar) with cursor, keyAllowed := broken }

def isIndicator (c : Char) : Bool :=
  isFlowMark c
    || ['-', '?', ':', '#', '&', '*', '!', '|', '>', '\'', '"', '%', '@', '\x60'].contains c

/-- A dash starts a plain scalar unless a blank follows; a question mark or colon does so outside
flow collections, unless it ends a word. -/
def startsPlain (inFlow : Bool) (c : Char) (next : Option Char) : Bool :=
  !(isGap c || isIndicator c) || (c == '-' && !next.any isBlank)
    || (!inFlow && (c == '?' || c == ':') && !endsWord next)

def read? (c : Char) (next : Option Char) (s : Lexer) : Option Lexer :=
  if c == '%' && s.cursor.column == 0 then s.readDirective?
  else if s.cursor.atMark Cursor.startMark then s.documentMark? .documentStart
  else if s.cursor.atMark Cursor.endMark then s.documentMark? .documentEnd
  else if c == '[' then s.openFlow? .flowSequenceStart
  else if c == '\x7b' then s.openFlow? .flowMappingStart
  else if c == ']' then s.closeFlow? .flowSequenceEnd
  else if c == '\x7d' then s.closeFlow? .flowMappingEnd
  else if c == ',' then s.separate?
  else if c == '-' && endsWord next then s.readItem?
  else if c == '?' && (s.inFlow || endsWord next) then s.readKey?
  else if c == ':' && (s.inFlow || endsWord next) then s.readValue?
  else if c == '*' then s.readAnchor? .reference
  else if c == '&' then s.readAnchor? .anchor
  else if c == '!' then s.readTag?
  else if c == '|' && !s.inFlow then s.readBlock? true
  else if c == '>' && !s.inFlow then s.readBlock? false
  else if c == '\'' || c == '"' then s.readQuoted? c
  else if startsPlain s.inFlow c next then s.readPlain?
  else none

def run? (s : Lexer) : Option (Array Token) :=
  match s.skipGap.expireKeys? with
  | none => none
  | some s₁ =>
    match s₁.cursor.rest with
    | [] => s₁.leaveBlocks?.map (·.tokens)
    | c :: rest =>
      match (s₁.closeBlocks (· ≤ s₁.cursor.column)).read? c rest.head? with
      | none => none
      | some s₂ => if s₂.cursor.rest.length < s.cursor.rest.length then run? s₂ else none
termination_by s.cursor.rest.length

end Lexer

def tokens? (text : String) : Option (List Token) :=
  if text.toList.all isPrintable then
    (Lexer.run? { cursor := { rest := text.toList } }).map Array.toList
  else none

end Wordcode.Yaml
