import PathScript.Convert

/-! # Scopes

A scope binds names to slots; a chain lists scopes, the innermost first. Slots
hold a value and, for a declared variable, a type that every value written to
it is converted to. Scopes and slots have identities, so that a chain that was
extended still sees what is written to the scopes it extends. -/

namespace PathScript

abbrev SlotId := Nat

abbrev ScopeId := Nat

abbrev Chain := List ScopeId

structure Binding where
  value : Value
  ty : Option Ty
deriving DecidableEq, Inhabited

/-- A binding with a declared type; the type of everything declares nothing. -/
def Binding.of (value : Value) (ty : Option Ty) : Binding := ⟨value, ty.bind Ty.known?⟩

inductive ScopeKind where
  /-- The variables of the caller. -/
  | global
  /-- The frame of a function call. -/
  | indexed
  | block
  /-- The item of a loop and the locals of its body. -/
  | item
  | imports
deriving DecidableEq, Inhabited

def ScopeKind.name : ScopeKind → String
  | global => "Global"
  | indexed => "Indexed"
  | block => "Block"
  | item => "Item"
  | imports => "Import"

/-- A scope: its names in order, each with its slot if it has been bound. -/
structure Scope where
  kind : ScopeKind
  cells : List (String × Option SlotId)
deriving DecidableEq, Inhabited

namespace Scope

/-- Whether undeclared names can be placed here. -/
def isTarget (s : Scope) : Bool := s.kind == .global || s.kind == .indexed

def local? (s : Scope) (name : String) : Option SlotId := (Entries.find? name s.cells).join

def names (s : Scope) : List String := (s.cells.filter (·.2.isSome)).map (·.1)

/-- Binds a name to a slot, at its place or at the end. -/
def bind (s : Scope) (name : String) (slot : SlotId) : Scope :=
  { s with cells := Entries.put name (some slot) s.cells }

/-- Binds a name at a position of a frame, if the position is its own; anything else binds by name. -/
def bindAt (s : Scope) (i : Nat) (name : String) (slot : SlotId) : Scope :=
  if s.kind = .indexed && (s.cells[i]?).map (·.1) == some name then
    { s with cells := s.cells.set i (name, some slot) }
  else s.bind name slot

end Scope

structure Store where
  heap : Heap
  scopes : Table Scope
  slots : Table Binding
deriving Inhabited

abbrev StoreM := Run Store Fault

namespace Store

def empty : Store := ⟨.empty, .empty, .empty⟩

/-! ## Reading -/

def scope (st : Store) (id : ScopeId) : Scope := (st.scopes.get? id).getD default

def binding (st : Store) (slot : SlotId) : Binding := (st.slots.get? slot).getD default

def value (st : Store) (slot : SlotId) : Value := (st.binding slot).value

def local? (st : Store) (id : ScopeId) (name : String) : Option SlotId := (st.scope id).local? name

/-- The slot of a name, in the innermost scope that has it. -/
def resolve? (st : Store) (chain : Chain) (name : String) : Option SlotId := chain.findSome? (st.local? · name)

def lookup? (st : Store) (chain : Chain) (name : String) : Option Value := (st.resolve? chain name).map st.value

def kindOf (st : Store) (chain : Chain) : ScopeKind := ((chain.head?.map st.scope).map (·.kind)).getD .global

/-- The chain from the nearest scope on that takes undeclared names; the whole chain if there is none. -/
def nearestTarget (st : Store) (chain : Chain) : Chain :=
  match chain.dropWhile (fun id => !(st.scope id).isTarget) with
  | [] => chain
  | target => target

/-! ## Writing -/

def newSlot (b : Binding) (st : Store) : SlotId × Store :=
  match st.slots.alloc b with
  | (slot, slots) => (slot, { st with slots := slots })

def push (kind : ScopeKind) (cells : List (String × Option SlotId)) (chain : Chain) (st : Store) : Chain × Store :=
  match st.scopes.alloc ⟨kind, cells⟩ with
  | (id, scopes) => (id :: chain, { st with scopes := scopes })

/-- The scope where a chain creates names: the innermost that is not of imports. -/
def creationScope (st : Store) (chain : Chain) : Option ScopeId :=
  chain.find? fun id => (st.scope id).kind != .imports

/-- Creates a binding, or replaces the one of that name, where a chain creates names. -/
def create (chain : Chain) (name : String) (b : Binding) (st : Store) : SlotId × Store :=
  match st.creationScope chain with
  | none => st.newSlot b
  | some id =>
    match st.newSlot b with
    | (slot, st) => (slot, { st with scopes := st.scopes.update id fun s => s.bind name slot })

/-- Creates a binding at a position of the innermost scope. -/
def createAt (chain : Chain) (i : Nat) (name : String) (b : Binding) (st : Store) : SlotId × Store :=
  match chain with
  | [] => st.newSlot b
  | id :: _ =>
    if (st.scope id).kind = .indexed then
      match st.newSlot b with
      | (slot, st) => (slot, { st with scopes := st.scopes.update id fun s => s.bindAt i name slot })
    else st.create chain name b

/-- Creates a binding, at a register if the innermost scope is a frame and the name has one. -/
def createIn (chain : Chain) (name : String) (b : Binding) (register : Option Nat) (st : Store) : SlotId × Store :=
  match register with
  | some i => if st.kindOf chain = .indexed then st.createAt chain i name b else st.create chain name b
  | none => st.create chain name b

/-- Binds an imported name in a scope, if it is one of imports. -/
def importAt (id : ScopeId) (name : String) (v : Value) (st : Store) : Bool × Store :=
  if (st.scope id).kind = .imports then
    match st.newSlot ⟨v, none⟩ with
    | (slot, st) => (true, { st with scopes := st.scopes.update id fun s => s.bind name slot })
  else (false, st)

/-- Binds an imported name in the nearest scope of imports. -/
def importInto (chain : Chain) (name : String) (v : Value) (st : Store) : Bool × Store :=
  match chain.find? fun id => (st.scope id).kind == .imports with
  | some id => st.importAt id name v
  | none => (false, st)

/-- The heap, and the store around it. -/
@[always_inline, inline]
def splitHeap : Store → Heap × (Heap → Store)
  | ⟨heap, scopes, slots⟩ => (heap, fun h => ⟨h, scopes, slots⟩)

@[inline] def onHeap {α : Type} (x : HeapM α) : StoreM α :=
  Run.zoom splitHeap x

/-- Writes to a slot, through its type, and gives what was stored. -/
def assign (converter : Converter) (slot : SlotId) (v : Value) : StoreM Value := do
  let stored ← match ((← Run.get).binding slot).ty with
    | some ty => onHeap (converter.convert v ty)
    | none => pure v
  Run.modify fun st => { st with slots := st.slots.update slot fun b => { b with value := stored } }
  pure stored

end Store

def Binding.debug (h : Heap) (b : Binding) : Option String :=
  (b.value.debug h).map fun text =>
    match b.ty with
    | some ty => ty.name ++ ": " ++ text
    | none => text

/-- The variables of a caller: a global scope. -/
structure Variables where
  scope : ScopeId
deriving DecidableEq, Inhabited

namespace Variables

def new (st : Store) : Variables × Store :=
  match st.push .global [] [] with
  | (chain, st) => (⟨chain.headD 0⟩, st)

def slot? (vars : Variables) (st : Store) (name : String) : Option SlotId := st.local? vars.scope name

def get? (vars : Variables) (st : Store) (name : String) : Option Value := (vars.slot? st name).map st.value

def names (vars : Variables) (st : Store) : List String := (st.scope vars.scope).names

def entries (vars : Variables) (st : Store) : List (String × Value) :=
  (vars.names st).map fun name => (name, (vars.get? st name).getD .null)

/-- Writes an untyped variable; a typed one of that name is replaced. -/
def set (vars : Variables) (name : String) (v : Value) (st : Store) : Store :=
  match vars.slot? st name with
  | some slot =>
    if (st.binding slot).ty.isNone then
      { st with slots := st.slots.update slot fun b => { b with value := v } }
    else (st.create [vars.scope] name ⟨v, none⟩).2
  | none => (st.create [vars.scope] name ⟨v, none⟩).2

/-- Declares a typed variable. The value is kept as it is. -/
def declare (vars : Variables) (name : String) (ty : Ty) (v : Value) (st : Store) : Store :=
  (st.create [vars.scope] name (.of v (some ty))).2

def debug (vars : Variables) (st : Store) : Option String := do
  let texts ← (vars.names st).mapM fun name => do
    let slot ← vars.slot? st name
    let text ← (st.binding slot).debug st.heap
    pure (Text.quoted name ++ ": " ++ text)
  pure ("\x7b" ++ String.intercalate ", " texts ++ "\x7d")

end Variables

end PathScript
