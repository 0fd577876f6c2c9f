import PathScript.Class
import PathScript.Convert
import PathScript.Regex.Parse

/-! # Arguments of built-in members

Members are usually called with arguments already converted to their parameter
types. A body still answers for every list of arguments: what is missing or of
another form is a fault that shows it. -/

namespace PathScript.Builtin

def method (name : String) (params : List Ty) (returns : Ty) (invoke : Value → List Value → HeapM Value) : MethodDef :=
  ⟨name, params, returns, false, invoke⟩

def static (name : String) (params : List Ty) (returns : Ty) (body : List Value → HeapM Value) : MethodDef :=
  ⟨name, params, returns, true, fun _ args => body args⟩

/-- A class of the language itself: no fields, no constructors. -/
def builtinClass (name : String) (constants : List (String × Value)) (methods : List MethodDef) : ClassDef :=
  ⟨name, [], Dict.ofList constants, methods, []⟩

/-- An argument that may be missing, as messages show it. -/
def debugArgument (arg : Option Value) : HeapM String :=
  match arg with
  | none => pure "None"
  | some v => do
    let t ← Run.query v.debug
    pure ("Some(" ++ t ++ ")")

/-- The fault of an argument that is not what a member asks for. -/
def unexpectedArgument {α : Type} (member expected : String) (arg : Option Value) : HeapM α := do
  let shown ← debugArgument arg
  Run.fail (.invocation member ("expected " ++ expected ++ ", got " ++ shown))

/-- An integer argument; doubles are cut off and characters count as their code point. -/
def intArgument (member : String) (args : List Value) (i : Nat) : HeapM Int64 :=
  match args[i]? with
  | some (.int n) => pure n
  | some (.float x) => pure x.toInt64
  | some (.char c) => pure (Value.charCode c)
  | arg => unexpectedArgument member "int argument" arg

def floatArgument (member : String) (args : List Value) (i : Nat) : HeapM Float :=
  match args[i]?.bind Value.toFloat? with
  | some x => pure x
  | none => unexpectedArgument member "numeric argument" args[i]?

/-- The text of an argument, empty if it is missing. -/
def textArgument (args : List Value) (i : Nat) : HeapM String :=
  match args[i]? with
  | some v => v.display
  | none => pure ""

/-- An argument as it is, `null` if it is missing. -/
def anyArgument (args : List Value) (i : Nat) : Value := args[i]?.getD .null

/-- A position in a sequence of that length. -/
def checkedIndex (index : Int64) (length : Nat) : HeapM Nat :=
  if 0 ≤ index.toInt ∧ index.toInt < length then pure index.toInt.toNat
  else Run.fail (.outOfBounds index length)

/-- The fault of a member called on a value of another form. -/
def wrongReceiver {α : Type} (member : String) (receiver : Value) : HeapM α :=
  Run.fail (.invocation member ("receiver is " ++ receiver.typeOf.name))

/-! # Members of containers

All references to a container see what a member does to it. A list is held while
it is searched. -/

def withList {α : Type} (this : Value) (f : Nat → HeapM α) : HeapM α :=
  match this with
  | .list a => f a
  | other => wrongReceiver "List" other

def withMap {α : Type} (this : Value) (f : Nat → HeapM α) : HeapM α :=
  match this with
  | .map a => f a
  | other => wrongReceiver "Map" other

/-- Where a value first occurs among others. -/
def positionOf (h : Heap) (held : Option Nat) (v : Value) : List Value → Option (Option Nat)
  | [] => some none
  | x :: rest => do
    if (← x.equalHolding h held v) then pure (some 0) else pure ((← positionOf h held v rest).map (· + 1))

def listClass : ClassDef := builtinClass "List" [] [
  method "size" [] .int fun this _ => withList this fun a => do
    pure (.ofNat ((← Run.get).list a).size),
  method "isEmpty" [] .bool fun this _ => withList this fun a => do
    pure (.bool ((← Run.get).list a).isEmpty),
  method "get" [.int] .any fun this args => do
    let index ← intArgument "get" args 0
    withList this fun a => do
      let items := (← Run.get).list a
      let i ← checkedIndex index items.size
      pure ((items[i]?).getD .null),
  method "set" [.int, .any] .any fun this args => do
    let index ← intArgument "set" args 0
    withList this fun a => do
      let items := (← Run.get).list a
      let i ← checkedIndex index items.size
      Run.modify (·.modifyList a (·.setIfInBounds i (anyArgument args 1)))
      pure ((items[i]?).getD .null),
  method "add" [.any] .bool fun this args => withList this fun a => do
    Run.modify (·.modifyList a (·.push (anyArgument args 0)))
    pure (.bool true),
  method "add" [.int, .any] .void fun this args => do
    let index ← intArgument "add" args 0
    withList this fun a => do
      let length := ((← Run.get).list a).size
      if 0 ≤ index.toInt ∧ index.toInt ≤ length then
        Run.modify (·.modifyList a fun items => items.insertIdxIfInBounds index.toInt.toNat (anyArgument args 1))
        pure .void
      else Run.fail (.outOfBounds index length),
  method "addAll" [.list] .bool fun this args => do
    let h ← Run.get
    let more := match args.head? with
      | some (.list b) => h.list b
      | _ => #[]
    withList this fun a => do
      Run.modify (·.modifyList a (· ++ more))
      pure (.bool true),
  method "remove" [.int] .any fun this args => do
    let index ← intArgument "remove" args 0
    withList this fun a => do
      let items := (← Run.get).list a
      let i ← checkedIndex index items.size
      Run.modify (·.modifyList a (·.eraseIdxIfInBounds i))
      pure ((items[i]?).getD .null),
  method "contains" [.any] .bool fun this args => withList this fun a => do
    pure (.bool (← Run.query fun h => Value.memberOf h (some a) (anyArgument args 0) (h.list a).toList)),
  method "indexOf" [.any] .int fun this args => withList this fun a => do
    match ← Run.query fun h => positionOf h (some a) (anyArgument args 0) (h.list a).toList with
    | some i => pure (.ofNat i)
    | none => pure (.int (-1)),
  method "clear" [] .void fun this _ => withList this fun a => do
    Run.modify (·.setList a #[])
    pure .void]

def mapClass : ClassDef := builtinClass "Map" [] [
  method "size" [] .int fun this _ => withMap this fun a => do
    pure (.ofNat ((← Run.get).map a).size),
  method "isEmpty" [] .bool fun this _ => withMap this fun a => do
    pure (.bool ((← Run.get).map a).isEmpty),
  method "get" [.any] .any fun this args => do
    let key ← (anyArgument args 0).display
    withMap this fun a => do
      pure ((((← Run.get).map a).get? key).getD .null),
  method "put" [.any, .any] .any fun this args => do
    let key ← (anyArgument args 0).display
    withMap this fun a => do
      let old := ((← Run.get).map a).get? key
      Run.modify (·.modifyMap a (·.insert key (anyArgument args 1)))
      pure (old.getD .null),
  method "containsKey" [.any] .bool fun this args => do
    let key ← (anyArgument args 0).display
    withMap this fun a => do
      pure (.bool (((← Run.get).map a).contains key)),
  method "remove" [.any] .any fun this args => do
    let key ← (anyArgument args 0).display
    withMap this fun a => do
      let old := ((← Run.get).map a).get? key
      Run.modify (·.modifyMap a (·.erase key))
      pure (old.getD .null),
  method "keySet" [] .list fun this _ => withMap this fun a => do
    Run.step (Heap.newList (((← Run.get).map a).keys.map Value.str).toArray),
  method "values" [] .list fun this _ => withMap this fun a => do
    Run.step (Heap.newList ((← Run.get).map a).values.toArray),
  method "clear" [] .void fun this _ => withMap this fun a => do
    Run.modify (·.setMap a .empty)
    pure .void]

def arrayClass : ClassDef := builtinClass "Array" [] [
  method "clone" [] .array fun this _ =>
    match this with
    | .array a => do Run.step (Heap.newArray ((← Run.get).array a))
    | other => wrongReceiver "clone" other]

/-! # Static members

The classes for numbers, truth values and characters have static members only. -/

/-- The greater of two doubles; a value that is not a number gives way to the other. -/
def maxFloat (x y : Float) : Float :=
  if x.isNaN then y else if y.isNaN then x else if x < y then y else x

/-- The lesser of two doubles; a value that is not a number gives way to the other. -/
def minFloat (x y : Float) : Float :=
  if x.isNaN then y else if y.isNaN then x else if y < x then y else x

/-- A double rounded to the nearest integer, a half upwards. -/
def roundHalfUp (x : Float) : Int64 := (x + 0.5).floor.toInt64

def floatFunction (name : String) (f : Float → Float) : MethodDef :=
  static name [.float] .float fun args => do
    pure (.float (f (← floatArgument name args 0)))

def floatFunction₂ (name : String) (f : Float → Float → Float) : MethodDef :=
  static name [.float, .float] .float fun args => do
    let x ← floatArgument name args 0
    pure (.float (f x (← floatArgument name args 1)))

def intFunction₂ (name : String) (f : Int64 → Int64 → Int64) : MethodDef :=
  static name [.int, .int] .int fun args => do
    let a ← intArgument name args 0
    pure (.int (f a (← intArgument name args 1)))

def mathClass : ClassDef := builtinClass "Math"
  [("PI", .float 3.141592653589793), ("E", .float 2.718281828459045)] [
  static "abs" [.int] .int fun args => do
    match Number.abs? (← intArgument "abs" args 0) with
    | some n => pure (.int n)
    | none => Run.fail (.arithmetic "integer overflow in abs"),
  floatFunction "abs" Float.abs,
  intFunction₂ "max" fun a b => if a < b then b else a,
  floatFunction₂ "max" maxFloat,
  intFunction₂ "min" fun a b => if b < a then b else a,
  floatFunction₂ "min" minFloat,
  floatFunction "sqrt" Float.sqrt,
  floatFunction₂ "pow" Float.pow,
  floatFunction "floor" Float.floor,
  floatFunction "ceil" Float.ceil,
  static "round" [.float] .int fun args => do
    pure (.int (roundHalfUp (← floatArgument "round" args 0)))]

def integerClass : ClassDef := builtinClass "Integer"
  [("MAX_VALUE", .int 2147483647), ("MIN_VALUE", .int (-2147483648))] [
  static "parseInt" [.str] .int fun args => do
    let s ← textArgument args 0
    match Number.readInt? 10 (Text.trimChars s.toList) with
    | some n => pure (.int n)
    | none => Run.fail (.coercion (Text.quoted s) Ty.int.name),
  static "valueOf" [.any] .int fun args => Convert.convert (anyArgument args 0) .int]

def doubleClass : ClassDef := builtinClass "Double"
  [("MAX_VALUE", .float (Float.ofBits 0x7fefffffffffffff)),
    ("MIN_VALUE", .float (Float.ofBits 0x0010000000000000))] [
  static "parseDouble" [.str] .float fun args => do
    let s ← textArgument args 0
    match Convert.textToFloat? s with
    | some x => pure (.float x)
    | none => Run.fail (.coercion (Text.quoted s) Ty.float.name),
  static "isNaN" [.float] .bool fun args => do
    pure (.bool (← floatArgument "isNaN" args 0).isNaN)]

def booleanClass : ClassDef := builtinClass "Boolean"
  [("TRUE", .bool true), ("FALSE", .bool false)] [
  static "parseBoolean" [.str] .bool fun args => do
    let s ← textArgument args 0
    pure (.bool (decide (s.toList.map Char.toLower = "true".toList)))]

/-- A character argument; a text of one character counts as that character. -/
def charArgument (member : String) (args : List Value) : HeapM Char :=
  match args.head? with
  | some (.char c) => pure c
  | some (.str s) =>
    match s.toList with
    | [c] => pure c
    | _ => unexpectedArgument member "char" args.head?
  | arg => unexpectedArgument member "char" arg

/-- A static method that asks something of a character. -/
def charTest (name : String) (p : Char → Bool) : MethodDef :=
  static name [.char] .bool fun args => do
    pure (.bool (p (← charArgument name args)))

def characterClass : ClassDef := builtinClass "Character" [] [
  charTest "isDigit" Char.isDigit,
  charTest "isLetter" Text.isAlphabetic,
  charTest "isWhitespace" Text.isBlank,
  static "toUpperCase" [.char] .char fun args => do
    let c ← charArgument "toUpperCase" args
    pure (.char ((Text.upperChar c).head?.getD '\x00'))]

/-! # Members of texts

Positions and lengths count characters. -/

/-- The characters from `start` up to `stop`. -/
def substring (s : String) (start stop : Int64) : HeapM Value :=
  let cs := s.toList
  if start.toInt < 0 || stop.toInt < start.toInt then Run.fail (.outOfBounds start cs.length)
  else if (cs.length : Int) < stop.toInt then Run.fail (.outOfBounds stop cs.length)
  else pure (.str (String.ofList ((cs.drop start.toInt.toNat).take (stop.toInt - start.toInt).toNat)))

def charAt (s : String) (index : Int64) : HeapM Value := do
  let cs := s.toList
  let i ← checkedIndex index cs.length
  pure ((cs[i]?.map Value.char).getD .null)

/-- Where a text first occurs, or minus one. -/
def indexOf (s needle : String) : Value :=
  match PathScript.Text.find? s needle with
  | some i => .ofNat i
  | none => .int (-1)

/-- Whether a text as a whole matches a pattern. -/
def matchesPattern (member s pattern : String) : HeapM Bool :=
  match Regex.whole pattern with
  | .ok r => pure (r.isMatch s)
  | .error e => Run.fail (.invocation member e.message)

def stringClass : ClassDef := builtinClass "String" [] [
  method "length" [] .int fun this _ => do
    pure (.ofNat (← this.display).length),
  method "isEmpty" [] .bool fun this _ => do
    pure (.bool (← this.display).isEmpty),
  method "charAt" [.int] .char fun this args => do
    let s ← this.display
    charAt s (← intArgument "charAt" args 0),
  method "substring" [.int] .str fun this args => do
    let s ← this.display
    substring s (← intArgument "substring" args 0) (Int64.ofNat s.length),
  method "substring" [.int, .int] .str fun this args => do
    let s ← this.display
    let start ← intArgument "substring" args 0
    substring s start (← intArgument "substring" args 1),
  method "indexOf" [.str] .int fun this args => do
    let s ← this.display
    pure (indexOf s (← textArgument args 0)),
  method "contains" [.str] .bool fun this args => do
    let s ← this.display
    pure (.bool (PathScript.Text.occurs s (← textArgument args 0))),
  method "startsWith" [.str] .bool fun this args => do
    let s ← this.display
    pure (.bool (PathScript.Text.startsWith s (← textArgument args 0))),
  method "endsWith" [.str] .bool fun this args => do
    let s ← this.display
    pure (.bool (PathScript.Text.endsWith s (← textArgument args 0))),
  method "toUpperCase" [] .str fun this _ => do
    pure (.str (PathScript.Text.toUpper (← this.display))),
  method "toLowerCase" [] .str fun this _ => do
    pure (.str (PathScript.Text.toLower (← this.display))),
  method "trim" [] .str fun this _ => do
    pure (.str (PathScript.Text.trim (← this.display))),
  method "concat" [.str] .str fun this args => do
    let s ← this.display
    pure (.str (s ++ (← textArgument args 0))),
  method "replace" [.str, .str] .str fun this args => do
    let s ← this.display
    let old ← textArgument args 0
    pure (.str (PathScript.Text.replace s old (← textArgument args 1))),
  method "split" [.str] .list fun this args => do
    let s ← this.display
    let parts := PathScript.Text.split s (← textArgument args 0)
    Run.step (Heap.newList (parts.map Value.str).toArray),
  method "matches" [.str] .bool fun this args => do
    let pattern ← textArgument args 0
    let s ← this.display
    pure (.bool (← matchesPattern "matches" s pattern)),
  method "equals" [.any] .bool fun this args =>
    match args.head? with
    | some v => do pure (.bool (← v.equals this))
    | none => pure (.bool false),
  static "valueOf" [.any] .str fun args => do
    pure (.str (← textArgument args 0))]

end PathScript.Builtin

/-! # Class libraries

A class reference names a definition by its number: first the classes of the
language, then those of the host. A library says which names an `import`, a
`new` or a bare name can use. -/

namespace PathScript

def builtinClasses : Array ClassDef := #[
  Builtin.stringClass, Builtin.listClass, Builtin.mapClass, Builtin.mathClass,
  Builtin.integerClass, Builtin.doubleClass, Builtin.booleanClass, Builtin.characterClass,
  Builtin.arrayClass]

/-- The definitions behind class references. -/
structure ClassTable where
  hosts : Array ClassDef
deriving Inhabited

namespace ClassTable

def standard : ClassTable := ⟨#[]⟩

def definition (t : ClassTable) (ref : ClassRef) : ClassDef :=
  match ref.definition with
  | none => .bare ref.name
  | some i =>
    if i < builtinClasses.size then builtinClasses[i]?.getD (.bare ref.name)
    else t.hosts[i - builtinClasses.size]?.getD (.bare ref.name)

def add (t : ClassTable) (c : ClassDef) : ClassRef × ClassTable :=
  (⟨c.name, some (builtinClasses.size + t.hosts.size)⟩, ⟨t.hosts.push c⟩)

/-- The class whose members a value has. -/
def classOf? (t : ClassTable) : Value → Option ClassDef
  | .str _ => some Builtin.stringClass
  | .list _ => some Builtin.listClass
  | .map _ => some Builtin.mapClass
  | .array _ => some Builtin.arrayClass
  | .object c _ => some (t.definition c)
  | _ => none

end ClassTable

/-- The class whose members the values of a type have, for types of the language. -/
def Ty.builtinClass? : Ty → Option ClassDef
  | .str => some Builtin.stringClass
  | .list => some Builtin.listClass
  | .map => some Builtin.mapClass
  | .array => some Builtin.arrayClass
  | _ => none

structure ClassLibrary where
  names : Dict ClassRef
deriving Inhabited

namespace ClassLibrary

def get? (l : ClassLibrary) (name : String) : Option ClassRef := l.names.get? name

def register (l : ClassLibrary) (c : ClassRef) : ClassLibrary := ⟨l.names.insert c.name c⟩

/-- The classes of the language that can be named: all but the one of arrays. -/
def standard : ClassLibrary :=
  ⟨Dict.ofList ((builtinClasses.toList.take 8).zipIdx.map fun (c, i) => (c.name, ⟨c.name, some i⟩))⟩

end ClassLibrary

end PathScript
