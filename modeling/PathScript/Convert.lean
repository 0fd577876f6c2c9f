import PathScript.Value.Text

/-! # Conversion

Typed variables, typed parameters and fields accept a value by converting it to
their type. A converter is asked for a target type; the standard one tries the
converters that the host registered for that target before the built-in rules. -/

namespace PathScript

structure Converter where
  /-- Whether values of type `source` can be converted to `target`. -/
  canConvert : (target source : Ty) → Bool
  convert : Value → Ty → HeapM Value
deriving Inhabited

namespace Convert

def canConvert (target source : Ty) : Bool :=
  if target = source || target = .any || source = .any then true
  else match target, source with
    | t, .null => t.isNullable
    | .str, _ => true
    | .int, .float | .int, .char | .int, .str | .int, .bool => true
    | .float, .int | .float, .str => true
    | .char, .int | .char, .str => true
    | .bool, .str | .bool, .int => true
    | .list, .array | .array, .list => true
    | _, _ => false

/-- The whole part of a double, held within the 64-bit range. -/
def truncate (x : Float) : Int64 := x.toInt64

/-- The integer a text stands for: a whole number, or the whole part of another finite one. -/
def textToInt? (s : String) : Option Int64 :=
  let cs := Text.trimChars s.toList
  match Number.readInt? 10 cs with
  | some n => some n
  | none => (Number.readFloat? cs).bind fun x => if x.isFinite then some (truncate x) else none

def textToFloat? (s : String) : Option Float := Number.readFloat? (Text.trimChars s.toList)

def textToBool? (s : String) : Option Bool :=
  let word := (Text.trimChars s.toList).map Char.toLower
  if word = "true".toList then some true
  else if word = "false".toList then some false
  else none

def codeToChar? (n : Int64) : Option Char :=
  if 0 ≤ n.toInt ∧ n.toInt.toNat.isValidChar then some (Char.ofNat n.toInt.toNat) else none

/-- The result of a conversion that needs no new container. -/
def simple? (h : Heap) (target : Ty) (v : Value) : Option (Option Value) :=
  match target, v with
  | .int, .int _ => some (some v)
  | .int, .float x => some (if x.isFinite then some (.int (truncate x)) else none)
  | .int, .char c => some (some (.int (Value.charCode c)))
  | .int, .bool b => some (some (.int (if b then 1 else 0)))
  | .int, .str s => some ((textToInt? s).map .int)
  | .float, .float _ => some (some v)
  | .float, .int n => some (some (.float n.toFloat))
  | .float, .str s => some ((textToFloat? s).map .float)
  | .str, _ => (v.text h).map fun t => some (.str t)
  | .char, .char _ => some (some v)
  | .char, .str s => some (match s.toList with
    | [c] => some (.char c)
    | _ => none)
  | .char, .int n => some ((codeToChar? n).map .char)
  | .bool, .bool _ => some (some v)
  | .bool, .str s => some ((textToBool? s).map .bool)
  | .bool, .int n => some (some (.bool (n != 0)))
  | .list, .list _ => some (some v)
  | .array, .array _ => some (some v)
  | .map, .map _ => some (some v)
  | .function, .function _ => some (some v)
  | .function, .native _ => some (some v)
  | .object name, .object c _ => some (if c.name = name then some v else none)
  | .cls name, .cls c => some (if c.name = name then some v else none)
  | _, _ => some none

/-- The fault of a value that has no counterpart. -/
def refuse (v : Value) (target : Ty) : HeapM Value := do
  Run.fail (.coercion (← v.displayTyped) target.name)

def convert (v : Value) (target : Ty) : HeapM Value :=
  match target, v with
  | .any, _ => pure v
  | _, .null => if target.isNullable then pure .null else refuse v target
  | .list, .array a => do Run.step (Heap.newList ((← Run.get).array a))
  | .array, .list a => do Run.step (Heap.newArray ((← Run.get).list a))
  | _, _ => do
    match ← Run.query (simple? · target v) with
    | some w => pure w
    | none => refuse v target

end Convert

/-- Converters of the host by target type, over the built-in rules. -/
structure ConversionRegistry where
  custom : List (Ty × Converter)
deriving Inhabited

namespace ConversionRegistry

def empty : ConversionRegistry := ⟨[]⟩

def register (r : ConversionRegistry) (target : Ty) (c : Converter) : ConversionRegistry :=
  ⟨(target, c) :: r.custom.filter (fun e => !decide (e.1 = target))⟩

/-- The host's converter for a target, if it takes values of that type. -/
def custom? (r : ConversionRegistry) (target source : Ty) : Option Converter :=
  ((r.custom.find? fun e => decide (e.1 = target)).map (·.2)).filter (·.canConvert target source)

def converter (r : ConversionRegistry) : Converter where
  canConvert target source := (r.custom? target source).isSome || Convert.canConvert target source
  convert v target :=
    match r.custom? target v.typeOf with
    | some c => c.convert v target
    | none => Convert.convert v target

end ConversionRegistry

end PathScript
