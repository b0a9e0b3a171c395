import LoxLang.Token.Scan

/-!
Scanning byte by byte. The segmentation of a text cuts characters off, so that there is nothing about it
that could fail. Here a loop moves an index through the UTF-8 bytes of the text. It looks at the next byte
and at the one behind it, and slices the text between indices. What such a loop could do wrong is an
outcome: to take a byte where there is none, to slice at an index that is inside a character or in the
wrong order, and not to end, which is to run out of fuel. Each segment leaves a note of the indices that
it lies between.

A byte is shown as the character of its value. It is a character of the text if it is one of ASCII.
-/

namespace LoxLang.Bytewise

/-- A loop's state: `start` is the index of the first byte of the segment in progress, and `current` that
of the next byte to look at. -/
structure Scanner where
  text : String
  start : Nat
  current : Nat
  line : Nat
  done : Bool
  spans : List (Nat × Nat)

/-- Why a loop stops: an error of the text or one of three faults of the loop. -/
inductive Stop where
  | refused (e : LexicalError)
  | outside
  | insideCharacter
  | outOfFuel

abbrev Loop := EStateM Stop Scanner

/-- What a segment is found to be. -/
structure Found where
  kind : Kind
  payload : Option Payload := none

/-- What the loop gives for a segment, or for the end. -/
inductive Answer where
  | token (t : Token) (payload : Option Payload)
  | error (e : LexicalError)

namespace Scanner

def new (text : String) : Scanner :=
  ⟨text, 0, 0, 1, false, []⟩

def bytes (s : Scanner) : List UInt8 :=
  s.text.toByteArray.data.toList

/-- The byte so many bytes ahead. Past the end, it is zero. -/
def look (s : Scanner) (ahead : Nat) : Char :=
  Char.ofUInt8 (s.bytes[s.current + ahead]?.getD 0)

/-- Fuel for a loop that takes a byte on each pass. -/
def passes (s : Scanner) : Nat :=
  s.bytes.length + 1

def forward (s : Scanner) (count : Nat) : Scanner :=
  { s with current := s.current + count }

def nextLine (s : Scanner) : Scanner :=
  { s with line := s.line + 1 }

/-- Begins a segment. -/
def begun (s : Scanner) : Scanner :=
  { s with start := s.current }

/-- Notes the segment in progress, which is done. -/
def noted (s : Scanner) : Scanner :=
  { s with spans := s.spans ++ [(s.start, s.current)] }

end Scanner

/-! ### Single bytes -/

def isAtEnd : Loop Bool := do
  let s ← get
  return s.bytes.length ≤ s.current

def advance : Loop Char := fun s =>
  match s.bytes[s.current]? with
  | some b => .ok (Char.ofUInt8 b) (s.forward 1)
  | none => .error .outside s

def peek : Loop Char :=
  return (← get).look 0

def peekNext : Loop Char :=
  return (← get).look 1

/-- Takes the next byte if it is the expected one, and tells whether it did. -/
def accept (expected : Char) : Loop Bool := do
  if (← peek) == expected && !(← isAtEnd) then
    modify (·.forward 1)
    return true
  else return false

/-- The text between two indices, which have to be boundaries of characters in this order. -/
def slice (low high : Nat) : Loop String := fun s =>
  if low ≤ high ∧ (String.Pos.Raw.mk low).isValid s.text ∧ (String.Pos.Raw.mk high).isValid s.text then
    .ok (String.Pos.Raw.extract s.text ⟨low⟩ ⟨high⟩) s
  else .error .insideCharacter s

def lexeme : Loop String := do
  let s ← get
  slice s.start s.current

/-! ### Segments -/

def refuse {α : Type} (cause : LexicalCause) : Loop α := do
  throw (.refused ⟨(← get).line, cause⟩)

/-- Moves on to the next line break, which is left for a segment of its own, or to the end. -/
def skipLine : Loop Unit := fun s =>
  if s.current ≤ s.bytes.length then
    match (s.bytes.drop s.current).findIdx? (Char.ofUInt8 · == '\n') with
    | some i => .ok () (s.forward i)
    | none => .ok () { s with current := s.bytes.length }
  else .error .outside s

def passWhile (test : Char → Bool) : Nat → Loop Unit
  | 0 => throw .outOfFuel
  | n + 1 => do
    if test (← peek) then
      let _ ← advance
      passWhile test n

def stringBody : Nat → Loop Unit
  | 0 => throw .outOfFuel
  | n + 1 => do
    if !(← isAtEnd) && (← peek) != '"' then
      if (← advance) == '\n' then modify (·.nextLine)
      stringBody n

def string : Loop Found := do
  stringBody (← get).passes
  if ← isAtEnd then refuse .unterminatedString
  let _ ← advance
  let s ← get
  let contents ← slice (s.start + 1) (s.current - 1)
  return ⟨.string, some (.text contents)⟩

/-- Passes a point that has a digit behind it, and the digits. -/
def fraction : Loop Unit := do
  if (← peek) == '.' && (← peekNext).isDigit then
    let _ ← advance
    passWhile Char.isDigit (← get).passes

def number : Loop Found := do
  passWhile Char.isDigit (← get).passes
  fraction
  return ⟨.number, some (.number (Decimal.read (← lexeme)))⟩

def word : Loop Found := do
  passWhile Segment.isWordChar (← get).passes
  return { kind := Kind.ofWord (← lexeme) }

/-- Steps over the whole character of which the first byte begins no segment. -/
def stray {α : Type} : Loop α := do
  let s ← get
  let c := (← slice s.start s.bytes.length).toList.head?.getD '\uFFFD'
  set { s with current := s.start + c.utf8Size }
  refuse (.unexpectedCharacter c)

/-- Takes the longer of two marks that a byte begins. -/
def dispatchMark (c : Char) : Loop (Option Found) :=
  match Kind.ofMarkEqual? c, Kind.ofMark? c with
  | some double, some single => return some { kind := if ← accept '=' then double else single }
  | none, some single => return some { kind := single }
  | _, none => stray

/-- Goes by the first byte of a segment, which has been taken. Blanks and comments are no finds. -/
def dispatch (c : Char) : Loop (Option Found) :=
  if c == ' ' || c == '\r' || c == '\t' then return none
  else if c == '\n' then do
    modify (·.nextLine)
    return none
  else if c == '/' then do
    if ← accept '/' then
      skipLine
      return none
    else return some { kind := .slash }
  else if c == '"' then some <$> string
  else if c.isDigit then some <$> number
  else if Segment.isLetter c then some <$> word
  else dispatchMark c

def scanToken : Loop (Option Found) := do
  dispatch (← advance)

/-! ### Answers -/

/-- A loop that an error of the text does not stop. -/
def attempt {α : Type} (x : Loop α) : Loop (Except LexicalError α) := fun s =>
  match x s with
  | .ok a s' => .ok (.ok a) s'
  | .error (.refused e) s' => .ok (.error e) s'
  | .error stop s' => .error stop s'

def answerLoop : Nat → Loop Answer
  | 0 => throw .outOfFuel
  | n + 1 => do
    if ← isAtEnd then
      modify fun s => { s with done := true }
      return .token (Token.eof (← get).line) none
    else
      modify (·.begun)
      let result ← attempt scanToken
      modify (·.noted)
      match result with
      | .ok (some found) => return .token ⟨found.kind, ← lexeme, (← get).line⟩ found.payload
      | .ok none => answerLoop n
      | .error e => return .error e

/-- The next answer, of which there is none once the end has been told. -/
def next : Loop (Option Answer) := do
  let s ← get
  if s.done then return none else some <$> answerLoop s.passes

/-- What the first so many calls of `next` give. -/
def calls : Nat → Loop (List (Option Answer))
  | 0 => return []
  | n + 1 => return (← next) :: (← calls n)

end LoxLang.Bytewise
