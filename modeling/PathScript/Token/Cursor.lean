import PathScript.Token

/-! # Cursors

A cursor stands in a text, or in the part of it inside a bracket group. It
holds the characters still to read and, since a comment is recognised by two
characters, the character that follows its part. Every scanner returns what is
left of the characters, a suffix of what it was given. -/

namespace PathScript

structure Cursor where
  pos : Nat
  rest : List Char
  /-- The character behind the part that is read. -/
  after : Option Char
deriving DecidableEq, Inhabited

namespace Scan

/-! ## Blanks and comments -/

/-- What follows the end of a comment in `/*` and `*/`. -/
def blockEnd? : List Char → Option (List Char)
  | [] => none
  | '*' :: '/' :: rest => some rest
  | _ :: rest => blockEnd? rest

/-- The comment that a slash starts, if it does. -/
inductive Comment where
  | none
  /-- Nothing closes the comment. -/
  | unterminated
  | closed (rest : List Char)

/-- What a slash starts, from the characters behind it. -/
def comment (after : Option Char) (rest : List Char) : Comment :=
  match rest.head?.or after with
  | some '/' => .closed (rest.dropWhile (· != '\n'))
  | some '*' =>
    match blockEnd? rest.tail with
    | some rest => .closed rest
    | none => .unterminated
  | _ => .none

theorem length_dropWhile_le {α : Type} (p : α → Bool) (xs : List α) : (xs.dropWhile p).length ≤ xs.length :=
  (xs.dropWhile_suffix p).length_le

theorem length_of_blockEnd? {cs rest : List Char} (h : blockEnd? cs = some rest) : rest.length < cs.length := by
  fun_induction blockEnd? cs with
  | case1 => cases h
  | case2 r =>
    cases h
    simp only [List.length_cons]
    omega
  | case3 c r _ ih => have := ih h; simp; omega

theorem length_of_comment {after : Option Char} {cs rest : List Char} (h : comment after cs = .closed rest) :
    rest.length ≤ cs.length := by
  unfold comment at h
  split at h
  · cases h; exact length_dropWhile_le _ _
  · split at h
    · rename_i r hr
      cases h
      have := length_of_blockEnd? hr
      simp at this; omega
    · cases h
  · cases h

def bytesUpTo (cs rest : List Char) : Nat := Text.byteLength cs - Text.byteLength rest

/-- Past blanks and comments. -/
def trivia (after : Option Char) (pos : Nat) (cs : List Char) : Except Located (Nat × List Char) :=
  match cs with
  | [] => .ok (pos, [])
  | c :: rest =>
    if Text.isTokenBlank c then trivia after (pos + c.utf8Size) rest
    else if c = '/' then
      match _h : comment after rest with
      | .none => .ok (pos, cs)
      | .unterminated => .error ⟨.unterminatedComment, pos⟩
      | .closed rest' => trivia after (pos + bytesUpTo cs rest') rest'
    else .ok (pos, cs)
termination_by cs.length
decreasing_by
  · simp
  · have := length_of_comment _h
    simp; omega

/-! ## Names, numbers, strings -/

def isNameChar (c : Char) : Bool := c = '_' || c = '$' || Text.isAlphanumeric c

/-- A character at which a name is read. Beyond ASCII these are more than can stand in one. -/
def isNameStart (c : Char) : Bool := c = '_' || c = '$' || c.isAlpha || decide (0x80 ≤ c.toNat)

def isHexDigit (c : Char) : Bool := c.isDigit || ('a' ≤ c && c ≤ 'f') || ('A' ≤ c && c ≤ 'F')

def isHexMark (c : Char) : Bool := c = 'x' || c = 'X'

def isExponentMark (c : Char) : Bool := c = 'e' || c = 'E'

def isSign (c : Char) : Bool := c = '+' || c = '-'

/-- A letter after a number that names its type. -/
def isSuffix (c : Char) : Bool := ['L', 'l', 'd', 'D', 'f', 'F'].contains c

/-- A character that cannot follow a number. -/
def continuesNumber (c : Char) : Bool := c.isAlphanum || c = '_'

/-- What follows a character of some class, or all if there is none. -/
def skipOne (p : Char → Bool) : List Char → List Char
  | [] => []
  | c :: rest => if p c then rest else c :: rest

def startsWith (p : Char → Bool) (cs : List Char) : Bool := cs.head?.any p

/-- Past a point and the digits behind it; without digits the point is no part of the number. -/
def fraction : List Char → List Char
  | '.' :: rest => if startsWith Char.isDigit rest then rest.dropWhile Char.isDigit else '.' :: rest
  | cs => cs

/-- Past an exponent; without digits the mark is no part of it. -/
def exponent (cs : List Char) : List Char :=
  let digits := skipOne isSign (skipOne isExponentMark cs)
  if startsWith isExponentMark cs && startsWith Char.isDigit digits then digits.dropWhile Char.isDigit else cs

/-- Whether a character starts a number: a digit, or a point before one. -/
def startsNumber (c : Char) (rest : List Char) : Bool :=
  c.isDigit || (c = '.' && startsWith Char.isDigit rest)

def decimal (cs : List Char) : List Char := exponent (fraction (cs.dropWhile Char.isDigit))

/-- Past the letter behind a number that names its type, or the fault that it goes on. -/
def numberEnd (cs : List Char) : Except CompileFault (List Char) :=
  let rest := skipOne isSuffix cs
  if startsWith continuesNumber rest then .error .malformedNumber else .ok rest

/-- Past a number, or the fault in it. -/
def number (cs : List Char) : Except CompileFault (List Char) :=
  match cs with
  | '0' :: x :: rest =>
    if isHexMark x then
      if startsWith isHexDigit rest then numberEnd (rest.dropWhile isHexDigit) else .error .emptyHexLiteral
    else numberEnd (decimal cs)
  | _ => numberEnd (decimal cs)

/-- Past the closing quote of a string, from behind its opening quote. A backslash takes the next character with it. -/
def stringEnd? (quote : Char) : List Char → Option (List Char)
  | [] => none
  | '\\' :: [] => none
  | '\\' :: _ :: rest => stringEnd? quote rest
  | c :: rest => if c = quote then some rest else stringEnd? quote rest

theorem length_of_stringEnd? {quote : Char} {cs rest : List Char} (h : stringEnd? quote cs = some rest) :
    rest.length < cs.length := by
  fun_induction stringEnd? quote cs with
  | case1 => cases h
  | case2 => cases h
  | case3 c r ih => have := ih h; simp; omega
  | case4 c => cases h; simp
  | case5 c r _ _ _ ih => have := ih h; simp; omega

def isQuote (c : Char) : Bool := c = '"' || c = '\''

/-! ## Groups -/

/-- A bracket that is still open, and its place. -/
structure Opened where
  delim : Delim
  pos : Nat
deriving DecidableEq, Inhabited

/-- The brackets inside of `first` that are open behind a character; none, if it closes `first`. -/
def bracketsBehind (first : Opened) (nested : List Opened) (pos : Nat) (c : Char) :
    Except Located (Option (List Opened)) :=
  let innermost := nested.head?.getD first
  match Delim.ofOpener? c with
  | some d => .ok (some (⟨d, pos⟩ :: nested))
  | none =>
    if Delim.isCloser c then
      if innermost.delim.closer = c then
        match nested with
        | [] => .ok none
        | _ :: outer => .ok (some outer)
      else .error ⟨.mismatched innermost.delim.opener c, innermost.pos⟩
    else .ok (some nested)

/-- The comment that a character starts, if it does. -/
def commentAt (after : Option Char) (c : Char) (rest : List Char) : Comment :=
  if c = '/' then comment after rest else .none

theorem length_of_commentAt {after : Option Char} {c : Char} {cs rest : List Char}
    (h : commentAt after c cs = .closed rest) : rest.length ≤ cs.length := by
  unfold commentAt at h
  split at h
  · exact length_of_comment h
  · cases h

/-- Past the bracket that closes `first`. Of the brackets inside, innermost first, `nested` are open; strings and
comments are passed over. The place returned is that of the closing bracket. -/
def groupEnd (after : Option Char) (first : Opened) (nested : List Opened) (pos : Nat) (cs : List Char) :
    Except Located (Nat × List Char) :=
  match cs with
  | [] =>
    let innermost := nested.head?.getD first
    .error ⟨.unterminatedGroup innermost.delim.opener, innermost.pos⟩
  | c :: rest =>
    if isQuote c then
      match _h : stringEnd? c rest with
      | none => .error ⟨.unterminatedString, pos⟩
      | some rest' => groupEnd after first nested (pos + bytesUpTo cs rest') rest'
    else
      match _h : commentAt after c rest with
      | .unterminated => .error ⟨.unterminatedComment, pos⟩
      | .closed rest' => groupEnd after first nested (pos + bytesUpTo cs rest') rest'
      | .none =>
        match bracketsBehind first nested pos c with
        | .error e => .error e
        | .ok none => .ok (pos, rest)
        | .ok (some nested) => groupEnd after first nested (pos + c.utf8Size) rest
termination_by cs.length
decreasing_by
  · have := length_of_stringEnd? _h
    simp; omega
  · have := length_of_commentAt _h
    simp; omega
  · simp

/-! ## Operators -/

/-- The texts of operators and punctuation. Of two that start alike the longer comes first. -/
def symbols : List (String × TokenKind) := [
  (">>>", .operator .ushr),
  ("**", .operator .pow),
  ("<<", .operator .shl),
  (">>", .operator .shr),
  ("<=", .operator .le),
  (">=", .operator .ge),
  ("==", .operator .eq),
  ("!=", .operator .ne),
  ("&&", .operator .and),
  ("||", .operator .or),
  ("~=", .operator .regexMatch),
  ("++", .incr),
  ("--", .decr),
  ("+=", .assign (some .add)),
  ("-=", .assign (some .sub)),
  ("*=", .assign (some .mul)),
  ("/=", .assign (some .div)),
  ("%=", .assign (some .rem)),
  ("?.", .safeDot),
  ("+", .operator .add),
  ("-", .operator .sub),
  ("*", .operator .mul),
  ("/", .operator .div),
  ("%", .operator .rem),
  ("<", .operator .lt),
  (">", .operator .gt),
  ("&", .operator .bitAnd),
  ("^", .operator .bitXor),
  ("|", .operator .bitOr),
  ("!", .not),
  ("=", .assign none),
  (".", .dot),
  (",", .comma),
  (":", .colon),
  ("?", .question),
  (";", .semicolon)]

/-- Past a text, if the characters start with it. -/
def dropText? (text cs : List Char) : Option (List Char) :=
  match text, cs with
  | [], cs => some cs
  | _ :: _, [] => none
  | t :: text, c :: cs => if t = c then dropText? text cs else none

/-- The symbol the characters start with. Before a digit `?.` is a question mark and a number. -/
def symbol? (cs : List Char) : Option (TokenKind × List Char) :=
  symbols.findSome? fun (text, kind) =>
    match dropText? text.toList cs with
    | none => none
    | some rest => if kind = .safeDot && startsWith Char.isDigit rest then none else some (kind, rest)

/-! ## Tokens -/

/-- Past the token that starts right here, and its kind. -/
def token (after : Option Char) (pos : Nat) (cs : List Char) : Except Located (TokenKind × List Char) :=
  match cs with
  | [] => .ok (.eof, [])
  | c :: rest =>
    if isNameStart c then .ok (.ident, cs.dropWhile isNameChar)
    else if startsNumber c rest then
      match number cs with
      | .ok rest => .ok (.number, rest)
      | .error fault => .error ⟨fault, pos⟩
    else if isQuote c then
      match stringEnd? c rest with
      | some rest => .ok (.str, rest)
      | none => .error ⟨.unterminatedString, pos⟩
    else match Delim.ofOpener? c with
      | some d => (groupEnd after ⟨d, pos⟩ [] (pos + c.utf8Size) rest).map fun (_, rest) => (.group d, rest)
      | none =>
        if Delim.isCloser c then .error ⟨.unexpectedCloser c, pos⟩
        else match symbol? cs with
          | some found => .ok found
          | none => .error ⟨.unexpectedCharacter c, pos⟩

end Scan

namespace Cursor

def ofText (cs : List Char) : Cursor := ⟨0, cs, none⟩

/-- A part of a text between two byte offsets. A character that the part cuts at its end is read as a whole; nothing
can be read from inside of a character. -/
def ofRange (cs : List Char) (start stop : Nat) : Cursor :=
  let rest := if Text.isBoundary start cs then Text.takeStarted (stop - start) (Text.dropBytes start cs) else []
  ⟨start, rest, (Text.dropBytes stop cs).head?⟩

def stop (c : Cursor) : Nat := c.pos + Text.byteLength c.rest

def skipTrivia (c : Cursor) : Except Located Cursor :=
  (Scan.trivia c.after c.pos c.rest).map fun (pos, rest) => ⟨pos, rest, c.after⟩

/-- The lexeme from a cursor to a suffix of what it has left, and the cursor behind it. -/
def cut (c : Cursor) (kind : TokenKind) (rest : List Char) : Lexeme × Cursor :=
  let chars := c.rest.take (c.rest.length - rest.length)
  let stop := c.pos + Text.byteLength chars
  (⟨kind, ⟨c.pos, stop⟩, chars⟩, ⟨stop, rest, c.after⟩)

def lexeme (c : Cursor) : Except Located (Lexeme × Cursor) :=
  (Scan.token c.after c.pos c.rest).map fun (kind, rest) => c.cut kind rest

def next (c : Cursor) : Except Located (Lexeme × Cursor) := c.skipTrivia.bind lexeme

end Cursor

/-! # Token streams

A stream is read to its end at once. That is possible because what a place
holds depends on nothing but the text, and it ends because every token but the
empty name takes at least one character. -/

namespace Scan

theorem length_of_trivia {after : Option Char} {pos pos' : Nat} {cs rest : List Char}
    (h : trivia after pos cs = .ok (pos', rest)) : rest.length ≤ cs.length := by
  fun_induction trivia after pos cs with
  | case1 => cases h; exact Nat.le_refl _
  | case2 pos c r _ ih => have := ih h; simp; omega
  | case3 => cases h; exact Nat.le_refl _
  | case4 => cases h
  | case5 pos r rest' hc _ ih => have := ih h; have := length_of_comment hc; simp; omega
  | case6 => cases h; exact Nat.le_refl _

end Scan

namespace Cursor

/-- The part between the brackets of a group. -/
def inside (l : Lexeme) : Cursor := ⟨l.span.start + 1, (l.chars.drop 1).dropLast, l.chars.getLast?⟩

theorem length_of_skipTrivia {c c' : Cursor} (h : c.skipTrivia = .ok c') : c'.rest.length ≤ c.rest.length := by
  unfold skipTrivia at h
  cases ht : Scan.trivia c.after c.pos c.rest with
  | error e => rw [ht] at h; cases h
  | ok r => rw [ht] at h; cases h; exact Scan.length_of_trivia ht

/-- A lexeme is cut from the start of what is left. -/
theorem length_of_lexeme {c c' : Cursor} {l : Lexeme} (h : c.lexeme = .ok (l, c')) : l.chars.length ≤ c.rest.length := by
  unfold lexeme at h
  cases ht : Scan.token c.after c.pos c.rest with
  | error e => rw [ht] at h; cases h
  | ok r =>
    rw [ht] at h
    cases h
    simp only [List.length_take]
    exact Nat.min_le_right _ _

theorem length_of_next {c c' : Cursor} {l : Lexeme} (h : c.next = .ok (l, c')) : l.chars.length ≤ c.rest.length := by
  unfold next at h
  cases hs : c.skipTrivia with
  | error e => rw [hs] at h; cases h
  | ok c1 =>
    rw [hs] at h
    exact Nat.le_trans (length_of_lexeme h) (length_of_skipTrivia hs)

def tokens (c : Cursor) : Tokens :=
  match _h : c.next with
  | .error e => .fail e
  | .ok (l, c') =>
    if l.kind = .eof then .eof l.span.start
    else if _lt : c'.rest.length < c.rest.length then
      let inner := match l.kind with
        | .group _ => (inside l).tokens
        | _ => .eof l.span.stop
      .cons ⟨l, inner⟩ c'.tokens
    else .stuck l.span.start
termination_by c.rest.length
decreasing_by
  · have := length_of_next _h
    simp only [inside, List.length_dropLast, List.length_drop]
    omega
  · exact _lt

end Cursor

def Tokens.ofText (cs : List Char) : Tokens := (Cursor.ofText cs).tokens

end PathScript
