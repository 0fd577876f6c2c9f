import PathScript.Operator
import PathScript.Source

/-! # Tokens

A bracket group is a single token, from its opening to its closing bracket, and
carries the tokens between them as a stream of its own. A stream ends in one of
three ways: at the end of its text, at a place that holds no token, or at a
character that starts a name but belongs to none, where reading yields an empty
name again and again. -/

namespace PathScript

inductive Delim where
  | paren
  | bracket
  | brace
deriving DecidableEq, Inhabited

namespace Delim

def opener : Delim → Char
  | paren => '('
  | bracket => '['
  | brace => '\x7b'

def closer : Delim → Char
  | paren => ')'
  | bracket => ']'
  | brace => '\x7d'

def ofOpener? (c : Char) : Option Delim :=
  [paren, bracket, brace].find? (·.opener == c)

def isCloser (c : Char) : Bool := [paren, bracket, brace].any (·.closer == c)

end Delim

inductive TokenKind where
  | ident
  | number
  | str
  | operator (op : Operator)
  | not
  /-- `=`, or with an operator a compound assignment. -/
  | assign (op : Option Operator)
  | incr
  | decr
  | dot
  | safeDot
  | comma
  | colon
  | question
  | semicolon
  | group (delim : Delim)
  | eof
deriving DecidableEq, Inhabited

def TokenKind.name : TokenKind → String
  | ident => "Ident"
  | number => "Number"
  | str => "Str"
  | operator op => "Operator " ++ op.symbol
  | not => "Not"
  | assign none => "Assign"
  | assign (some op) => "Assign " ++ op.symbol
  | incr => "Incr"
  | decr => "Decr"
  | dot => "Dot"
  | safeDot => "SafeDot"
  | comma => "Comma"
  | colon => "Colon"
  | question => "Question"
  | semicolon => "Semicolon"
  | group .paren => "Group Paren"
  | group .bracket => "Group Bracket"
  | group .brace => "Group Brace"
  | eof => "Eof"

structure Located where
  fault : CompileFault
  offset : Nat
deriving DecidableEq, Inhabited

/-- A stretch of text that makes a token. -/
structure Lexeme where
  kind : TokenKind
  span : Span
  chars : List Char
deriving DecidableEq, Inhabited

def Lexeme.text (l : Lexeme) : String := String.ofList l.chars

mutual

/-- A token: its lexeme and, for a group, the tokens inside. -/
structure Token where
  lexeme : Lexeme
  inner : Tokens

inductive Tokens where
  | eof (offset : Nat)
  /-- A place that holds no token. -/
  | fail (fault : Located)
  /-- An empty name, again and again. -/
  | stuck (offset : Nat)
  | cons (token : Token) (rest : Tokens)

end

instance : Inhabited Tokens := ⟨.eof 0⟩

instance : Inhabited Token := ⟨⟨default, .eof 0⟩⟩

namespace Token

def kind (t : Token) : TokenKind := t.lexeme.kind

def span (t : Token) : Span := t.lexeme.span

def text (t : Token) : String := t.lexeme.text

def blank (kind : TokenKind) (offset : Nat) : Token := ⟨⟨kind, ⟨offset, offset⟩, []⟩, .eof offset⟩

def isWord (t : Token) (word : String) : Bool := t.kind == .ident && t.text == word

end Token

namespace Tokens

def size : Tokens → Nat
  | eof _ | fail _ | stuck _ => 0
  | cons ⟨_, inner⟩ rest => inner.size + rest.size + 1

theorem size_cons (t : Token) (rest : Tokens) : (cons t rest).size = t.inner.size + rest.size + 1 := by
  cases t; rw [size]

def head : Tokens → Except Located Token
  | eof p => .ok (.blank .eof p)
  | fail e => .error e
  | stuck p => .ok (.blank .ident p)
  | cons t _ => .ok t

def tail : Tokens → Tokens
  | cons _ rest => rest
  | ts => ts

theorem size_tail_le (ts : Tokens) : ts.tail.size ≤ ts.size := by
  cases ts with
  | cons t rest => rw [tail, size_cons]; omega
  | _ => exact Nat.le_refl _

theorem size_le_refl (ts : Tokens) : ts.size ≤ ts.size := Nat.le_refl _

theorem size_le_trans {a b c : Tokens} (hab : a.size ≤ b.size) (hbc : b.size ≤ c.size) : a.size ≤ c.size :=
  Nat.le_trans hab hbc

end Tokens

end PathScript

/-! # Literals

A string literal is its body with escapes replaced. A number literal is an
integer unless a point, an exponent or a suffix makes it a double; a sign in
front of it is part of the number, so that the least integer can be written. -/

namespace PathScript.Literal

/-- The character that a one-letter escape stands for. -/
def escaped? : Char → Option Char
  | 'n' => some '\n'
  | 't' => some '\t'
  | 'r' => some '\x0d'
  | 'b' => some '\x08'
  | 'f' => some '\x0c'
  | '0' => some '\x00'
  | '\\' => some '\\'
  | '\'' => some '\''
  | '"' => some '"'
  | _ => none

/-- The character with a code. Surrogates and numbers beyond the last character are none. -/
def charOfCode? (n : Nat) : Option Char := if n.isValidChar then some (Char.ofNat n) else none

/-- The character that four hexadecimal digits stand for; the first may be a plus sign. -/
def unicode? (digits : List Char) : Option Char :=
  if Text.byteLength digits = 4 then
    let number := match digits with
      | '+' :: rest => rest
      | _ => digits
    (Number.readNat? 16 number).bind charOfCode?
  else none

/-- The body of a string literal, found at an offset, with its escapes replaced. -/
def unescape (offset : Nat) (cs : List Char) : Except Located (List Char) :=
  match cs with
  | [] => .ok []
  | '\\' :: rest =>
    match rest with
    | [] => .error ⟨.badEscape, offset⟩
    | 'u' :: rest =>
      match unicode? (rest.take 4) with
      | none => .error ⟨.badEscape, offset⟩
      | some c => (unescape (offset + 2 + Text.byteLength (rest.take 4)) (rest.drop 4)).map (c :: ·)
    | e :: rest =>
      match escaped? e with
      | none => .error ⟨.badEscape, offset⟩
      | some c => (unescape (offset + 1 + e.utf8Size) rest).map (c :: ·)
  | c :: rest => (unescape (offset + c.utf8Size) rest).map (c :: ·)
termination_by cs.length

def text (l : Lexeme) : Except Located String :=
  (unescape (l.span.start + 1) (l.chars.drop 1).dropLast).map String.ofList

/-- Characters without those of some class at their end. -/
def trimEnd (p : Char → Bool) (cs : List Char) : List Char := (cs.reverse.dropWhile p).reverse

/-- The value of a number in lower case, behind a sign. -/
def number? (sign cs : List Char) : Option Value :=
  let isFloat := cs.getLast? == some 'd' || cs.getLast? == some 'f'
  match cs with
  | '0' :: 'x' :: digits => (Number.readInt? 16 (sign ++ trimEnd (· = 'l') digits)).map .int
  | _ =>
    if cs.getLast? = some 'l' then (Number.readInt? 10 (sign ++ cs.dropLast)).map .int
    else if isFloat then (Number.readFloat? (sign ++ cs.dropLast)).map .float
    else if cs.any (fun c => c = '.' || c = 'e') then (Number.readFloat? (sign ++ cs)).map .float
    else (Number.readInt? 10 (sign ++ cs)).map .int

/-- The value of a number literal, behind a minus sign or not. -/
def number (l : Lexeme) (negative : Bool) : Except Located Value :=
  let sign := if negative then ['-'] else []
  match number? sign (l.chars.map Char.toLower) with
  | some v => .ok v
  | none => .error ⟨.badNumber (String.ofList (sign ++ l.chars)), l.span.start⟩

end PathScript.Literal
