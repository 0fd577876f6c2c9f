import PathScript.Text

/-! # Places in a source

A place is a byte offset; people are shown the line and, within it, the column
counted in characters, both from one. -/

namespace PathScript

structure Span where
  start : Nat
  stop : Nat
deriving DecidableEq, Inhabited

namespace Span

def cover (a b : Span) : Span := ⟨min a.start b.start, max a.stop b.stop⟩

/-- The stretch between the delimiters of a group. -/
def inner (s : Span) : Span := ⟨s.start + 1, max (s.stop - 1) (s.start + 1)⟩

end Span

namespace Source

/-- The characters before an offset; all of them if the offset cuts a character in two. -/
def before (cs : List Char) (offset : Nat) : List Char :=
  let offset := min offset (Text.byteLength cs)
  if Text.isBoundary offset cs then Text.takeBytes offset cs else cs

def line (cs : List Char) (offset : Nat) : Nat := (before cs offset).count '\n' + 1

def column (cs : List Char) (offset : Nat) : Nat :=
  ((before cs offset).reverse.takeWhile (· != '\n')).length + 1

/-- The offsets behind the line feeds of a text that starts at an offset. -/
def lineStartsFrom (offset : Nat) : List Char → List Nat
  | [] => []
  | c :: rest =>
    let next := offset + c.utf8Size
    if c = '\n' then next :: lineStartsFrom next rest else lineStartsFrom next rest

def lineStarts (cs : List Char) : List Nat := 0 :: lineStartsFrom 0 cs

/-- The line of an offset, by where lines start: as many of them do so there or before. -/
def lineAmong (starts : List Nat) (offset : Nat) : Nat := (starts.takeWhile (· ≤ offset)).length

/-- A text cut after every line feed. -/
def splitLines : List Char → List (List Char)
  | [] => [[]]
  | c :: rest =>
    if c = '\n' then [] :: splitLines rest
    else match splitLines rest with
      | [] => [[c]]
      | l :: more => (c :: l) :: more

/-- The line of that number, counted from one and without its end. Before a line feed a carriage return is part of the end. -/
def lineText (cs : List Char) (n : Nat) : List Char :=
  let lines := splitLines cs
  let text := lines[n - 1]?.getD []
  if n < lines.length && text.getLast? == some '\r' then text.dropLast else text

/-- A message with its place, and below it the line of the place with a caret. -/
def render (source : String) (offset : Nat) (name : Option String) (message : String) : String :=
  let cs := source.toList
  let l := line cs offset
  let c := column cs offset
  let place := (name.map (· ++ ":")).getD "" ++ toString l ++ ":" ++ toString c ++ ": "
  place ++ message ++ "\n" ++ String.ofList (lineText cs l) ++ "\n" ++
    String.ofList (List.replicate (c - 1) ' ') ++ "^"

end Source

/-! # Compile errors

A source is refused for one cause, at one place. The cause determines the kind
of the error and its wording. -/

inductive CompileErrorKind where
  | syntaxError
  | unbalanced
  | reservedWord
  | unresolvedType
  | redeclaration
  | invalidRegex
  | invalidLiteral
deriving DecidableEq, Inhabited

def CompileErrorKind.title : CompileErrorKind → String
  | syntaxError => "syntax error"
  | unbalanced => "unbalanced delimiter"
  | reservedWord => "reserved word"
  | unresolvedType => "unresolved type"
  | redeclaration => "conflicting declaration"
  | invalidRegex => "invalid regex"
  | invalidLiteral => "invalid literal"

inductive CompileFault where
  | unterminatedComment
  | unterminatedString
  | unexpectedCloser (closer : Char)
  | mismatched (opener closer : Char)
  | unterminatedGroup (opener : Char)
  | bracketExpected
  | unexpectedCharacter (c : Char)
  | unexpectedEnd
  | unexpectedToken (text : String)
  /-- Something else had to stand here. -/
  | expected (what : String)
  | semicolonExpected (before : String)
  | emptyExpression
  | notAssignablePath
  | methodTarget
  | notAssignable
  | withTarget
  /-- A reserved word where a name is bound. -/
  | reservedName (word : String)
  /-- A reserved word where an operand has to stand. -/
  | reservedOperand (word : String)
  /-- A reserved word on the left of an assignment. -/
  | reservedTarget (word : String)
  | unknownType (name : String)
  | unknownImport (name : String)
  | unknownClass (name : String)
  | unresolvedVariable (name : String)
  | unresolvedMember (name : String)
  | unresolvedMethod (name : String)
  | redeclared (name : String)
  | duplicateParameter (name : String)
  | badPattern (pattern cause : String)
  | emptyHexLiteral
  | malformedNumber
  | badEscape
  | badNumber (text : String)
  /-- A stretch was asked for that is no part of the source. -/
  | outsideSource
  | custom (kind : CompileErrorKind) (message : String)
deriving DecidableEq, Inhabited

namespace CompileFault

def kind : CompileFault → CompileErrorKind
  | unterminatedComment | unterminatedString | unexpectedCloser _ | mismatched _ _
  | unterminatedGroup _ => .unbalanced
  | bracketExpected | unexpectedCharacter _ | unexpectedEnd | unexpectedToken _ | expected _
  | semicolonExpected _ | emptyExpression | notAssignablePath | methodTarget | notAssignable
  | withTarget | outsideSource => .syntaxError
  | reservedName _ | reservedOperand _ | reservedTarget _ => .reservedWord
  | unknownType _ | unknownImport _ | unknownClass _ | unresolvedVariable _ | unresolvedMember _
  | unresolvedMethod _ => .unresolvedType
  | redeclared _ | duplicateParameter _ => .redeclaration
  | badPattern _ _ => .invalidRegex
  | emptyHexLiteral | malformedNumber | badEscape | badNumber _ => .invalidLiteral
  | custom k _ => k

def inQuotes (s : String) : String := "'" ++ s ++ "'"

def charInQuotes (c : Char) : String := inQuotes (String.singleton c)

def message : CompileFault → String
  | unterminatedComment => "unterminated comment"
  | unterminatedString => "unterminated string literal"
  | unexpectedCloser c => "unexpected " ++ charInQuotes c
  | mismatched o c => charInQuotes o ++ " closed by " ++ charInQuotes c
  | unterminatedGroup o => "unterminated " ++ charInQuotes o
  | bracketExpected => "expected a bracket"
  | unexpectedCharacter c => "unexpected character " ++ charInQuotes c
  | unexpectedEnd => "unexpected end of input"
  | unexpectedToken t => "unexpected " ++ inQuotes t
  | expected what => "expected " ++ what
  | semicolonExpected t => "expected ';' before " ++ inQuotes t
  | emptyExpression => "empty expression"
  | notAssignablePath => "not an assignable property path"
  | methodTarget => "cannot assign to a method call"
  | notAssignable => "left side of assignment is not assignable"
  | withTarget => "with body assignments must target a property"
  | reservedName w => inQuotes w ++ " is a reserved word"
  | reservedOperand w => "unexpected reserved word " ++ inQuotes w
  | reservedTarget w => "cannot assign to reserved word " ++ inQuotes w
  | unknownType n => "unknown type " ++ inQuotes n
  | unknownImport n => "cannot import unknown class " ++ inQuotes n
  | unknownClass n => "unknown class " ++ inQuotes n
  | unresolvedVariable n => "unresolved variable " ++ inQuotes n
  | unresolvedMember n => "unresolved member " ++ inQuotes n
  | unresolvedMethod n => "unresolved method " ++ inQuotes n
  | redeclared n => inQuotes n ++ " is already declared in this block with another type"
  | duplicateParameter n => "duplicate parameter " ++ inQuotes n
  | badPattern p cause => "invalid pattern " ++ inQuotes p ++ ": " ++ cause
  | emptyHexLiteral => "empty hex literal"
  | malformedNumber => "malformed number literal"
  | badEscape => "invalid escape sequence"
  | badNumber t => "invalid number " ++ inQuotes t
  | outsideSource => "text outside of the source"
  | custom _ m => m

end CompileFault

structure CompileError where
  fault : CompileFault
  offset : Nat
  line : Nat
  column : Nat
  sourceName : Option String
deriving DecidableEq, Inhabited

namespace CompileError

def atOffset (source : List Char) (fault : CompileFault) (offset : Nat) : CompileError :=
  ⟨fault, offset, Source.line source offset, Source.column source offset, none⟩

def message (e : CompileError) : String :=
  e.fault.kind.title ++ ": " ++ e.fault.message ++ " (line " ++ toString e.line ++ ", column " ++
    toString e.column ++ ")"

end CompileError

end PathScript
