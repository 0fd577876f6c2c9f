import PathScript.Heap

/-! # Copies

A deep copy allocates a new cell for every list, array and map on the way. All
other values, objects among them, are their own copies. -/

namespace PathScript.Value

/-- The copy of a value that nests containers at most `depth` deep, as they are in the heap `h`. -/
def copyWithin {ε : Type} (h : Heap) : Nat → Value → Run Heap ε Value
  | 0, list _ => Run.never
  | 0, array _ => Run.never
  | 0, map _ => Run.never
  | depth + 1, list a => do
    let items ← (h.list a).toList.mapM (copyWithin h depth)
    Run.step (Heap.newList items.toArray)
  | depth + 1, array a => do
    let items ← (h.array a).toList.mapM (copyWithin h depth)
    Run.step (Heap.newArray items.toArray)
  | depth + 1, map a => do
    let entries ← (h.map a).entries.mapM fun e => do
      pure (e.1, ← copyWithin h depth e.2)
    Run.step (Heap.newMap (Dict.ofList entries))
  | _, v => pure v

/-- A copy that shares no list, array or map with the value. Copying changes none of them. -/
def copy {ε : Type} (v : Value) : Run Heap ε Value := do
  let h ← Run.get
  copyWithin h (h.size + 1) v

end PathScript.Value
