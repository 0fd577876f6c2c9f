
/-! # Types

Every value has a runtime type, and every expression a static one; `any` is the
static type of an expression about which nothing is known. A type is written
with the name that programs use for it. -/

namespace PathScript

inductive Ty where
  /-- Nothing is known. -/
  | any
  | void
  | null
  | bool
  | int
  | float
  | char
  | str
  | list
  | array
  | map
  | function
  | object (name : String)
  | cls (name : String)
deriving DecidableEq, Inhabited

namespace Ty

def name : Ty → String
  | any => "Object"
  | void => "void"
  | null => "null"
  | bool => "boolean"
  | int => "int"
  | float => "double"
  | char => "char"
  | str => "String"
  | list => "List"
  | array => "Array"
  | map => "Map"
  | function => "Function"
  | object n => n
  | cls n => "Class<" ++ n ++ ">"

/-- The type that a declaration keyword or a well-known name stands for. -/
def ofName? (word : String) : Option Ty :=
  if word ∈ ["int", "long", "short", "byte", "Integer", "Long", "Short", "Byte"] then some int
  else if word ∈ ["double", "float", "Double", "Float", "Number"] then some float
  else if word ∈ ["boolean", "Boolean"] then some bool
  else if word ∈ ["char", "Character"] then some char
  else if word ∈ ["String", "CharSequence"] then some str
  else if word ∈ ["List", "ArrayList", "Collection"] then some list
  else if word ∈ ["Map", "HashMap", "LinkedHashMap"] then some map
  else if word ∈ ["Object", "var"] then some any
  else if word = "void" then some void
  else none

/-- The types other than those of instances and classes. -/
def simple : List Ty := [any, void, null, bool, int, float, char, str, list, array, map, function]

/-- The type with that name. What names no other type names the instances of a class. -/
def ofShown (shown : String) : Ty :=
  match simple.find? (·.name == shown) with
  | some t => t
  | none =>
    if "Class<".toList.isPrefixOf shown.toList && shown.toList.getLast? == some '>' then
      cls (String.ofList (shown.toList.drop 6).dropLast)
    else object shown

/-- Whether `null` may stand where this type is asked for. -/
def isNullable : Ty → Bool
  | bool | int | float | char | void => false
  | _ => true

def isNumeric : Ty → Bool
  | int | float => true
  | _ => false

def isKnown : Ty → Bool
  | any => false
  | _ => true

def promote : Ty → Ty → Ty
  | int, int => int
  | int, float | float, int | float, float => float
  | _, _ => any

/-- A type that says something, if this one does. -/
def known? (t : Ty) : Option Ty := if t.isKnown then some t else none

end Ty

inductive Conformance where
  | none
  /-- Fits after a conversion that may lose something. -/
  | numeric
  /-- Fits after a conversion that loses nothing. -/
  | widening
  | exact
deriving DecidableEq, Inhabited

namespace Conformance

/-- The weight of a fit in the choice between overloads. -/
def score : Conformance → Nat
  | none => 0
  | numeric => 1
  | widening => 2
  | exact => 3

def accepts : Conformance → Bool
  | none => false
  | _ => true

end Conformance

/-- How well a value of type `source` fits a place of type `target`. -/
def Ty.conformance (target source : Ty) : Conformance :=
  if target = source then .exact
  else match target, source with
    | .any, _ => .widening
    | t, .null => if t.isNullable then .widening else .none
    | .float, .int => .widening
    | .str, .char => .widening
    | .int, .char => .numeric
    | .int, .float => .numeric
    | _, .any => .numeric
    | _, _ => .none

/-! # Values

A value is either complete in itself or a reference. Lists, arrays, maps and
objects are references to cells of the heap: copying the value shares the
cell. Functions and classes are references to definitions; the name is kept in
the reference so that types and messages need no look-up. -/

/-- A reference to a class. A class without a definition has a name and no members. -/
structure ClassRef where
  name : String
  definition : Option Nat
deriving DecidableEq, Inhabited

structure FunctionRef where
  id : Nat
  name : String
  params : List String
deriving DecidableEq, Inhabited

structure NativeRef where
  id : Nat
  name : String
deriving DecidableEq, Inhabited

inductive Value where
  | null
  /-- The result of something that has none. -/
  | void
  | bool (b : Bool)
  | int (n : Int64)
  | float (x : Float)
  | char (c : Char)
  | str (s : String)
  | list (addr : Nat)
  | array (addr : Nat)
  | map (addr : Nat)
  | object (of : ClassRef) (addr : Nat)
  | function (f : FunctionRef)
  | native (f : NativeRef)
  | cls (c : ClassRef)
deriving DecidableEq

namespace Value

instance : Inhabited Value := ⟨null⟩

def typeOf : Value → Ty
  | null => .null
  | void => .void
  | bool _ => .bool
  | int _ => .int
  | float _ => .float
  | char _ => .char
  | str _ => .str
  | list _ => .list
  | array _ => .array
  | map _ => .map
  | object c _ => .object c.name
  | function _ => .function
  | native _ => .function
  | cls c => .cls c.name

inductive Kind where
  | null | void | bool | int | float | char | str | list | array | map | object | function | native
  | cls
deriving DecidableEq, Inhabited

/-- The form of a value; unlike the type it tells host functions from others and no class from another. -/
def kind : Value → Kind
  | null => .null
  | void => .void
  | bool _ => .bool
  | int _ => .int
  | float _ => .float
  | char _ => .char
  | str _ => .str
  | list _ => .list
  | array _ => .array
  | map _ => .map
  | object _ _ => .object
  | function _ => .function
  | native _ => .native
  | cls _ => .cls

def isNull : Value → Bool
  | null => true
  | _ => false

def ofNat (n : Nat) : Value := int (Int64.ofNat n)

def toFloat? : Value → Option Float
  | int n => some n.toFloat
  | float x => some x
  | _ => none

/-- A character counts as its code point. -/
def charCode (c : Char) : Int64 := Int64.ofNat c.toNat

/-- The order of two doubles; there is none with a value that is not a number. -/
def compareFloat (x y : Float) : Option Ordering :=
  if x < y then some .lt
  else if x == y then some .eq
  else if y < x then some .gt
  else none

/-- The order that the relational operators see. -/
def compare : Value → Value → Option Ordering
  | int a, int b => some (Ord.compare a.toInt b.toInt)
  | int a, float b => compareFloat a.toFloat b
  | float a, int b => compareFloat a b.toFloat
  | float a, float b => compareFloat a b
  | str a, str b => some (if a < b then .lt else if a = b then .eq else .gt)
  | char a, char b => some (Ord.compare a.toNat b.toNat)
  | char a, int b => some (Ord.compare (a.toNat : Int) b.toInt)
  | int a, char b => some (Ord.compare a.toInt (b.toNat : Int))
  | bool a, bool b => some (Ord.compare a.toNat b.toNat)
  | _, _ => none

end Value

/-- What a place of that type holds before anything is written to it. -/
def Ty.default : Ty → Value
  | .int => .int 0
  | .float => .float 0.0
  | .bool => .bool false
  | .char => .char '\x00'
  | _ => .null

end PathScript
