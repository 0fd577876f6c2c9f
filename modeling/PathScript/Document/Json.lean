import PathScript.Number

/-! # Documents

A document is plain data: nothing shared, nothing to call. Numbers keep whether
they are integers, and maps the order of their entries. What is missing reads
as `null`. -/

namespace PathScript

/-- Plain data. -/
inductive Document where
  | null
  | bool (b : Bool)
  | int (n : Int)
  | float (x : Float)
  | str (s : String)
  | list (items : List Document)
  | map (entries : List (String × Document))
deriving Inhabited

namespace Document

def get (d : Document) (key : String) : Document :=
  match d with
  | map entries => ((entries.find? (·.1 == key)).map (·.2)).getD null
  | _ => null

def isNull : Document → Bool
  | null => true
  | _ => false

def has (d : Document) (key : String) : Bool := !(d.get key).isNull

def items : Document → List Document
  | list xs => xs
  | _ => []

def entries : Document → List (String × Document)
  | map es => es
  | _ => []

def item (d : Document) (i : Nat) : Document := d.items[i]?.getD null

def text? : Document → Option String
  | str s => some s
  | _ => none

def text (d : Document) : String := d.text?.getD ""

def isTrue : Document → Bool
  | bool b => b
  | _ => false

def nat? : Document → Option Nat
  | int n => if 0 ≤ n then some n.toNat else none
  | _ => none

def nat (d : Document) : Nat := d.nat?.getD 0

def ofNat (n : Nat) : Document := int n

def ofOption {α : Type} (f : α → Document) : Option α → Document
  | some a => f a
  | none => null

def texts (xs : List String) : Document := list (xs.map str)

/-- Writes a value under a key, in front. -/
def set (d : Document) (key : String) (v : Document) : Document :=
  match d with
  | map es => map ((key, v) :: es.filter (·.1 != key))
  | d => d

/-- Adds entries behind those of a map. -/
def append (d : Document) (more : List (String × Document)) : Document :=
  match d with
  | map es => map (es ++ more)
  | d => d

end Document

end PathScript

/-! # JSON

Maps keep the order of their entries. A number is an integer when it is written
without a fraction and an exponent; the zero with a minus sign is a double,
because only a double has one. -/

namespace PathScript.Json

/-! ## Writing -/

def hex4 (n : Nat) : List Char :=
  let digits := Nat.toDigits 16 n
  List.replicate (4 - digits.length) '0' ++ digits

def escapeChar (c : Char) : List Char :=
  if c = '\x22' || c = '\\' then ['\\', c]
  else if c.toNat < 32 then '\\' :: 'u' :: hex4 c.toNat
  else [c]

def quoted (s : String) : String := String.ofList ('\x22' :: s.toList.flatMap escapeChar ++ ['\x22'])

mutual

/-- The text of a document. A double that is not finite is written as `null`. -/
def text : Document → String
  | .null => "null"
  | .bool b => if b then "true" else "false"
  | .int n => toString n
  | .float x => if x.isFinite then Number.floatText x else "null"
  | .str s => quoted s
  | .list items => "[" ++ String.intercalate "," (itemTexts items) ++ "]"
  | .map entries => "\x7b" ++ String.intercalate "," (entryTexts entries) ++ "\x7d"

def itemTexts : List Document → List String
  | [] => []
  | d :: rest => text d :: itemTexts rest

def entryTexts : List (String × Document) → List String
  | [] => []
  | (k, d) :: rest => (quoted k ++ ":" ++ text d) :: entryTexts rest

end

/-! ## Reading -/

def isBlank (c : Char) : Bool := [' ', '\t', '\n', '\r'].contains c

def skipBlanks (cs : List Char) : List Char := cs.dropWhile isBlank

def hexDigit? (c : Char) : Option Nat :=
  if c.isDigit then some (c.toNat - 48)
  else if 'a' ≤ c && c ≤ 'f' then some (c.toNat - 87)
  else if 'A' ≤ c && c ≤ 'F' then some (c.toNat - 55)
  else none

/-- The code unit that four digits stand for. -/
def unit? : List Char → Option (Nat × List Char)
  | a :: b :: c :: d :: rest => do
    pure ((← hexDigit? a) * 4096 + (← hexDigit? b) * 256 + (← hexDigit? c) * 16 + (← hexDigit? d), rest)
  | _ => none

/-- The character of one code unit, or of two that belong together. -/
def escapedUnit? (cs : List Char) : Option (Char × List Char) := do
  let (high, rest) ← unit? cs
  if 0xD800 ≤ high && high < 0xDC00 then
    match rest with
    | '\\' :: 'u' :: rest => do
      let (low, rest) ← unit? rest
      if 0xDC00 ≤ low && low < 0xE000 then
        pure (Char.ofNat (0x10000 + (high - 0xD800) * 1024 + (low - 0xDC00)), rest)
      else none
    | _ => none
  else if high.isValidChar then pure (Char.ofNat high, rest)
  else none

/-- The character behind a backslash. -/
def escaped? : List Char → Option (Char × List Char)
  | 'u' :: rest => escapedUnit? rest
  | 'n' :: rest => some ('\n', rest)
  | 't' :: rest => some ('\t', rest)
  | 'r' :: rest => some ('\r', rest)
  | 'b' :: rest => some ('\x08', rest)
  | 'f' :: rest => some ('\x0c', rest)
  | c :: rest => if ['\x22', '\\', '/'].contains c then some (c, rest) else none
  | [] => none

def chars? : Nat → List Char → Option (List Char × List Char)
  | 0, _ => none
  | _ + 1, [] => none
  | fuel + 1, c :: rest =>
    if c = '\x22' then some ([], rest)
    else do
      let (c, rest) ← if c = '\\' then escaped? rest else some (c, rest)
      let (cs, rest) ← chars? fuel rest
      pure (c :: cs, rest)

def isNumberChar (c : Char) : Bool := c.isDigit || ['-', '+', '.', 'e', 'E'].contains c

/-- The integer that digits with an optional sign stand for. -/
def integer? (cs : List Char) : Option Int :=
  let natural? (digits : List Char) : Option Nat :=
    if digits.isEmpty || !digits.all Char.isDigit then none
    else some (digits.foldl (fun n c => n * 10 + (c.toNat - 48)) 0)
  match cs with
  | '-' :: digits => (natural? digits).map fun n => -(n : Int)
  | digits => (natural? digits).map fun n => (n : Int)

/-- The number that characters stand for. -/
def number? (cs : List Char) : Option Document :=
  match integer? cs with
  | some n => if n = 0 && cs.head? = some '-' then some (.float (-0.0)) else some (.int n)
  | none => (Number.readFloat? cs).map .float

/-- The rest behind a word that has to stand here. -/
def word? (word : String) (cs : List Char) : Option (List Char) :=
  if word.toList.isPrefixOf cs then some (cs.drop word.length) else none

mutual

/-- A document at the start of a text, and what follows it. The fuel bounds the number of steps. -/
def value? : Nat → List Char → Option (Document × List Char)
  | 0, _ => none
  | fuel + 1, cs =>
    match skipBlanks cs with
    | '\x22' :: rest => (chars? (fuel + 1) rest).map fun (s, rest) => (.str (String.ofList s), rest)
    | '[' :: rest =>
      match skipBlanks rest with
      | ']' :: rest => some (.list [], rest)
      | rest => (items? fuel rest).map fun (xs, rest) => (.list xs, rest)
    | '\x7b' :: rest =>
      match skipBlanks rest with
      | '\x7d' :: rest => some (.map [], rest)
      | rest => (entries? fuel rest).map fun (es, rest) => (.map es, rest)
    | 't' :: rest => (word? "rue" rest).map fun rest => (.bool true, rest)
    | 'f' :: rest => (word? "alse" rest).map fun rest => (.bool false, rest)
    | 'n' :: rest => (word? "ull" rest).map fun rest => (.null, rest)
    | cs => (number? (cs.takeWhile isNumberChar)).map fun d => (d, cs.dropWhile isNumberChar)

/-- The items of a list, of which there is at least one. -/
def items? : Nat → List Char → Option (List Document × List Char)
  | 0, _ => none
  | fuel + 1, cs => do
    let (d, rest) ← value? fuel cs
    match skipBlanks rest with
    | ',' :: rest => do
      let (ds, rest) ← items? fuel rest
      pure (d :: ds, rest)
    | ']' :: rest => pure ([d], rest)
    | _ => none

/-- The entries of a map, of which there is at least one. -/
def entries? : Nat → List Char → Option (List (String × Document) × List Char)
  | 0, _ => none
  | fuel + 1, cs =>
    match skipBlanks cs with
    | '\x22' :: rest => do
      let (k, rest) ← chars? (fuel + 1) rest
      match skipBlanks rest with
      | ':' :: rest => do
        let (d, rest) ← value? fuel rest
        match skipBlanks rest with
        | ',' :: rest => do
          let (es, rest) ← entries? fuel rest
          pure ((String.ofList k, d) :: es, rest)
        | '\x7d' :: rest => pure ([(String.ofList k, d)], rest)
        | _ => none
      | _ => none
    | _ => none

end

/-- The document that a text stands for. Every step takes a character, so the length of the text is fuel enough. -/
def parse? (s : String) : Option Document := do
  let cs := s.toList
  let (d, rest) ← value? (cs.length + 1) cs
  if (skipBlanks rest).isEmpty then some d else none

end PathScript.Json
