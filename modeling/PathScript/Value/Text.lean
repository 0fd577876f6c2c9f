import PathScript.Heap
import PathScript.Number
import PathScript.Text

/-! # Texts of values

A container is rendered with its elements, and texts inside it in quotes. A
container that holds itself has no text. A rendering that visits no cell twice
on any path is at most as deep as the heap has cells, so that depth is enough
for every value that has a text at all. -/

namespace PathScript.Value

def commas (parts : List String) : String := String.intercalate ", " parts

/-- The rendering of a value inside a container, given the one of containers. -/
def nestedText (render : Value → Option String) : Value → Option String
  | str s => some (Text.quoted s)
  | char c => some (Text.quotedChar c)
  | v => render v

/-- The rendering of a value that nests containers at most `depth` deep. -/
def textWithin (h : Heap) : Nat → Value → Option String
  | _, null => some "null"
  | _, void => some "void"
  | _, bool b => some (if b then "true" else "false")
  | _, int n => some (toString n.toInt)
  | _, float x => some (Number.floatText x)
  | _, char c => some (String.singleton c)
  | _, str s => some s
  | _, function f => some ("def " ++ f.name ++ "(" ++ commas f.params ++ ")")
  | _, native f => some ("native " ++ f.name)
  | _, cls c => some ("class " ++ c.name)
  | 0, _ => none
  | depth + 1, list a => do
    let parts ← (h.list a).toList.mapM (nestedText (textWithin h depth))
    pure ("[" ++ commas parts ++ "]")
  | depth + 1, array a => do
    let parts ← (h.array a).toList.mapM (nestedText (textWithin h depth))
    pure ("\x7b" ++ commas parts ++ "\x7d")
  | depth + 1, map a => do
    let parts ← (h.map a).entries.mapM fun e => do
      pure (Text.quoted e.1 ++ ": " ++ (← nestedText (textWithin h depth) e.2))
    pure ("[" ++ (if parts.isEmpty then ":" else commas parts) ++ "]")
  | depth + 1, object c a => do
    let parts ← (h.object a).mapM fun e => do
      pure (e.1 ++ ": " ++ (← nestedText (textWithin h depth) e.2))
    pure (c.name ++ "\x7b" ++ commas parts ++ "\x7d")

def text (h : Heap) (v : Value) : Option String := textWithin h (h.size + 1) v

/-- The rendering for developers: simple values with the name of their form, all others with their type. -/
def debug (h : Heap) : Value → Option String
  | null => some "Null"
  | void => some "Void"
  | bool b => some ("Bool(" ++ (if b then "true" else "false") ++ ")")
  | int n => some ("Int(" ++ toString n.toInt ++ ")")
  | float x => some ("Float(" ++ Number.floatText x ++ ")")
  | char c => some ("Char(" ++ Text.quotedChar c ++ ")")
  | str s => some ("Str(" ++ Text.quoted s ++ ")")
  | v => (text h v).map fun t => v.typeOf.name ++ "(" ++ t ++ ")"

/-- The key under which a value is looked up in a map: a text itself, any other value by its text. -/
def key (h : Heap) : Value → Option String := text h

def display (v : Value) : HeapM String := Run.query fun h => v.text h

/-- The text of a value with its type, as messages show it. -/
def displayTyped (v : Value) : HeapM String := do
  let t ← v.display
  pure (t ++ " (" ++ v.typeOf.name ++ ")")

/-! # Equality

Numbers are compared across integers and doubles, a character equals the text
made of it alone, containers are equal when their elements are, and all other
references when they refer to the same thing; classes are the same when their
names are.

Comparing two containers that hold themselves may never end. A comparison that
does end meets no pair of cells twice on any path, so the number of pairs
bounds its depth. A list that is searched is held meanwhile: it cannot be read,
and a comparison that asks for its elements does not end either. -/

/-- All elements in turn, stopping at the first that decides. -/
def allM {α : Type} (p : α → Option Bool) : List α → Option Bool
  | [] => some true
  | x :: rest => do if (← p x) then allM p rest else pure false

def itemsEqual (eq : Value → Value → Option Bool) (xs ys : Array Value) : Option Bool :=
  if xs.size = ys.size then allM (fun p => eq p.1 p.2) (xs.toList.zip ys.toList) else some false

/-- Maps of the same size where every entry of the first has its equal in the second. -/
def entriesEqual (eq : Value → Value → Option Bool) (left right : Dict Value) : Option Bool :=
  if left.size = right.size then
    allM (fun e => match right.get? e.1 with
      | some v => eq e.2 v
      | none => some false) left.entries
  else some false

/-- Equality of values that nest containers at most `depth` deep, while a list may be held. -/
def equalWithin (h : Heap) (held : Option Nat) : Nat → Value → Value → Option Bool
  | _, null, null => some true
  | _, void, void => some true
  | _, bool a, bool b => some (a == b)
  | _, int a, int b => some (decide (a = b))
  | _, int a, float b => some (a.toFloat == b)
  | _, float a, int b => some (a == b.toFloat)
  | _, float a, float b => some (a == b)
  | _, char a, char b => some (decide (a = b))
  | _, str a, str b => some (decide (a = b))
  | _, char c, str s => some (decide (s.toList = [c]))
  | _, str s, char c => some (decide (s.toList = [c]))
  | _, object _ a, object _ b => some (decide (a = b))
  | _, function f, function g => some (decide (f.id = g.id))
  | _, native f, native g => some (decide (f.id = g.id))
  | _, cls c, cls d => some (decide (c.name = d.name))
  | 0, list _, list _ => none
  | 0, array _, array _ => none
  | 0, map _, map _ => none
  | depth + 1, list a, list b =>
    if a = b then some true
    else if held = some a || held = some b then none
    else itemsEqual (equalWithin h held depth) (h.list a) (h.list b)
  | depth + 1, array a, array b =>
    if a = b then some true else itemsEqual (equalWithin h held depth) (h.array a) (h.array b)
  | depth + 1, map a, map b =>
    if a = b then some true else entriesEqual (equalWithin h held depth) (h.map a) (h.map b)
  | _, _, _ => some false

/-- Whether two values are equal, if the comparison ends while a list is held. -/
def equalHolding (h : Heap) (held : Option Nat) (a b : Value) : Option Bool := equalWithin h held (h.size * h.size + 1) a b

def equal (h : Heap) (a b : Value) : Option Bool := equalHolding h none a b

def equals (a b : Value) : HeapM Bool := Run.query fun h => a.equal h b

/-- Whether a value is equal to some element. -/
def memberOf (h : Heap) (held : Option Nat) (v : Value) : List Value → Option Bool
  | [] => some false
  | x :: rest => do if (← x.equalHolding h held v) then pure true else memberOf h held v rest

def length? (h : Heap) : Value → Option Nat
  | list a => some (h.list a).size
  | array a => some (h.array a).size
  | map a => some (h.map a).size
  | str s => some s.length
  | _ => none

/-- What the word `empty` stands for: nothing, false, zero, and everything of length zero. -/
def isEmpty (h : Heap) : Value → Bool
  | null | void => true
  | bool b => !b
  | int n => decide (n = 0)
  | float x => x == 0.0
  | str s => s.isEmpty
  | list a => (h.list a).isEmpty
  | array a => (h.array a).isEmpty
  | map a => (h.map a).isEmpty
  | _ => false

end PathScript.Value
