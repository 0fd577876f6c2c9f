import PathScript.Token.Cursor

/-! # Readers

A reader is a cursor that remembers the lexeme it has just read and where it
stood before. Reading moves it past blanks even where no lexeme follows. -/

namespace PathScript

structure Reader where
  source : List Char
  stop : Nat
  cursor : Cursor
  last : Option (Lexeme × Cursor)

namespace Reader

/-- A reader at the start of a part of a text. -/
def ofRange (source : List Char) (start stop : Nat) : Reader :=
  let stop := min stop (Text.byteLength source)
  ⟨source, stop, .ofRange source start stop, none⟩

def ofText (source : List Char) : Reader := ofRange source 0 (Text.byteLength source)

/-- Moves past blanks and comments, and not beyond the end. -/
def skip (r : Reader) : Except Located Unit × Reader :=
  match r.cursor.skipTrivia with
  | .ok c => (.ok (), { r with cursor := { c with pos := max r.cursor.pos (min c.pos r.stop) } })
  | .error e => (.error e, r)

def next (r : Reader) : Except Located Lexeme × Reader :=
  match r.skip with
  | (.error e, r') => (.error e, r')
  | (.ok (), r') =>
    match r'.cursor.lexeme with
    | .ok (l, c) => (.ok l, { r' with cursor := c, last := some (l, r.cursor) })
    | .error e => (.error e, r')

def peek (r : Reader) : Except Located Lexeme × Reader :=
  match r.next with
  | (.ok l, _) => (.ok l, r)
  | (.error e, r') => (.error e, r')

/-- Returns to before the last lexeme, once. -/
def back (r : Reader) : Reader :=
  match r.last with
  | some (_, c) => { r with cursor := c, last := none }
  | none => r

def capture (r : Reader) : String :=
  match r.last with
  | some (l, _) => Text.trim l.text
  | none => ""

/-- Whether only blanks and comments are left. -/
def atEnd (r : Reader) : Except Located Bool × Reader :=
  match r.skip with
  | (.ok (), r') => (.ok (decide (r'.stop ≤ r'.cursor.pos)), r')
  | (.error e, r') => (.error e, r')

def charAt? (r : Reader) (offset : Nat) : Option Char :=
  if Text.isBoundary offset r.source then (Text.dropBytes offset r.source).head? else none

/-- Where the bracket at an offset is closed. -/
def closing (r : Reader) (offset : Nat) : Except Located Nat :=
  match (r.charAt? offset).bind Delim.ofOpener? with
  | none => .error ⟨.bracketExpected, offset⟩
  | some d =>
    let c := Cursor.ofRange r.source (offset + 1) r.stop
    (Scan.groupEnd c.after ⟨d, offset⟩ [] c.pos c.rest).map (·.1)

def unescape (r : Reader) (start stop : Nat) : Except Located String :=
  (Literal.unescape (start + 1) (Text.slice r.source (start + 1) (stop - 1))).map String.ofList

end Reader

end PathScript
