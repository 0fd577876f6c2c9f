import PathScript.Document.Json
import PathScript.Value.Text

/-! # Values and documents

Values become documents for exchange with the host, and documents values. -/

namespace PathScript

namespace Value

/-- The document of a value that nests containers at most `depth` deep. -/
def documentWithin (h : Heap) : Nat → Value → Option Document
  | _, null => some .null
  | _, void => some .null
  | _, bool b => some (.bool b)
  | _, int n => some (.int n.toInt)
  | _, float x => some (if x.isFinite then .float x else .null)
  | _, char c => some (.str (String.singleton c))
  | _, str s => some (.str s)
  | 0, _ => none
  | depth + 1, list a => do
    pure (.list (← (h.list a).toList.mapM (documentWithin h depth)))
  | depth + 1, array a => do
    pure (.list (← (h.array a).toList.mapM (documentWithin h depth)))
  | depth + 1, map a => do
    pure (.map (← (h.map a).entries.mapM fun e => do pure (e.1, ← documentWithin h depth e.2)))
  | depth + 1, object _ a => do
    pure (.map (← (h.object a).mapM fun e => do pure (e.1, ← documentWithin h depth e.2)))
  | _ + 1, v => (v.text h).map .str

/-- The document of a value, if it has one. What is neither data nor a container becomes its text, and a
number that is not finite becomes null. -/
def document (h : Heap) (v : Value) : Option Document := documentWithin h (h.size + 1) v

/-- The value of a whole number: an integer, or beyond the 64-bit range a double. -/
def ofInteger (n : Int) : Value :=
  if Int64.minValue.toInt ≤ n ∧ n ≤ Int64.maxValue.toInt then int (Int64.ofInt n) else float (Float.ofInt n)

mutual

def ofDocument {ε : Type} : Document → Run Heap ε Value
  | .null => pure null
  | .bool b => pure (bool b)
  | .int n => pure (ofInteger n)
  | .float x => pure (float x)
  | .str s => pure (str s)
  | .list items => do
    let vs ← ofDocuments items
    Run.step (Heap.newList vs.toArray)
  | .map entries => do
    let es ← ofEntries entries
    Run.step (Heap.newMap (Dict.ofList es))

def ofDocuments {ε : Type} : List Document → Run Heap ε (List Value)
  | [] => pure []
  | d :: rest => do
    let v ← ofDocument d
    let vs ← ofDocuments rest
    pure (v :: vs)

def ofEntries {ε : Type} : List (String × Document) → Run Heap ε (List (String × Value))
  | [] => pure []
  | (k, d) :: rest => do
    let v ← ofDocument d
    let es ← ofEntries rest
    pure ((k, v) :: es)

end

end Value

end PathScript
