import PathScript.Ast
import PathScript.Library
import PathScript.Token

/-! # Names while compiling

Compilation reads tokens and keeps, of what it has read, the names declared in
the blocks around the current place and the layout of the functions around it.
It stops at the first fault. -/

namespace PathScript

/-- Words that cannot name a variable, a function or a parameter. -/
def reservedWords : List String := [
  "if", "else", "foreach", "for", "while", "until", "do", "def", "function", "return", "new", "import", "assert",
  "with", "true", "false", "null", "nil", "empty", "this", "var", "instanceof", "is", "contains"]

def isReserved (word : String) : Bool := reservedWords.contains word

structure CompileOptions where
  /-- Names and members that cannot be resolved are errors. -/
  strict : Bool
  /-- Paths are given static types, as they are when `strict` is set. -/
  verify : Bool
  /-- Static types of what the caller will supply. -/
  inputs : Dict Ty
  /-- Names bound in every evaluation. -/
  imports : Dict Value
  /-- Source lines are recorded. -/
  debug : Bool
  sourceName : Option String

namespace CompileOptions

def standard : CompileOptions := ⟨false, false, .empty, .empty, false, none⟩

instance : Inhabited CompileOptions := ⟨standard⟩

def verifies (o : CompileOptions) : Bool := o.verify || o.strict

end CompileOptions

namespace Compile

structure Declared where
  ty : Ty
  /-- Declared with a type, rather than assigned. -/
  explicit : Bool
deriving DecidableEq, Inhabited

/-- The names of the function being compiled: those with a place in its frame, and those it only reads. -/
structure Layout where
  registers : List String
  freeVars : List String
deriving DecidableEq, Inhabited

structure Env where
  source : List Char
  options : CompileOptions
  classes : ClassTable
  library : ClassLibrary

/-- Where the lines of the source start, when lines are recorded. -/
def Env.lineStarts? (env : Env) : Option (List Nat) :=
  if env.options.debug then some (Source.lineStarts env.source) else none

structure State where
  imports : Dict Value
  /-- Declared names by block, the innermost first. -/
  blocks : List (Dict Declared)
  /-- The functions around the current place, the innermost first. -/
  layouts : List Layout
  /-- How many `with` targets are being read, whose paths are not typed. -/
  quiet : Nat
  nextSite : SiteId
  nextFunction : Nat
  functions : List Function

end Compile

def CompileM (α : Type) : Type := Compile.Env → Compile.State → Except Located (α × Compile.State)

namespace CompileM

@[inline] def pure {α : Type} (a : α) : CompileM α := fun _ st => .ok (a, st)

@[inline] def bind {α β : Type} (x : CompileM α) (f : α → CompileM β) : CompileM β := fun env st =>
  match x env st with
  | .ok (a, st') => f a env st'
  | .error e => .error e

instance : Monad CompileM where
  pure := CompileM.pure
  bind := CompileM.bind

instance {α : Type} : Inhabited (CompileM α) := ⟨fun _ _ => .error default⟩

def fail {α : Type} (fault : CompileFault) (offset : Nat) : CompileM α := fun _ _ => .error ⟨fault, offset⟩

def ofExcept {α : Type} (x : Except Located α) : CompileM α := fun _ st =>
  match x with
  | .ok a => .ok (a, st)
  | .error e => .error e

def env : CompileM Compile.Env := fun env st => .ok (env, st)

def state : CompileM Compile.State := fun _ st => .ok (st, st)

def modify (f : Compile.State → Compile.State) : CompileM Unit := fun _ st => .ok ((), f st)

end CompileM

namespace Compile

/-! ## Nodes -/

def info (span : Span) (egress : Ty) : CompileM Info := do
  let env ← CompileM.env
  pure ⟨span, egress, env.lineStarts?.map (Source.lineAmong · span.start)⟩

def node (span : Span) (egress : Ty) (kind : NodeKind) : CompileM Node := do
  pure ⟨← info span egress, kind⟩

def literal (v : Value) (span : Span) : CompileM Node := node span v.typeOf (.literal v)

def newSite : CompileM SiteId := fun _ st => .ok (st.nextSite, { st with nextSite := st.nextSite + 1 })

def sourceText (span : Span) : CompileM (List Char) := do
  match Text.slice? (← CompileM.env).source span.start span.stop with
  | some text => pure text
  | none => .fail .outsideSource span.start

/-! ## Classes and types -/

/-- The value an import binds to a name: one of the program, or one of the options. -/
def imported? (env : Env) (st : State) (name : String) : Option Value :=
  (st.imports.get? name).or (env.options.imports.get? name)

/-- The class that a name stands for. An import that is no class does not hide one. -/
def classNamed? (env : Env) (st : State) (name : String) : Option ClassRef :=
  match imported? env st name with
  | some (.cls c) => some c
  | _ => env.library.get? name

/-- The type that a word stands for in a declaration. -/
def typeNamed? (env : Env) (st : State) (name : String) : Option Ty :=
  if name = "var" then some .any
  else (Ty.ofName? name).or ((classNamed? env st name).map fun c => .object c.name)

def classNamed (name : String) : CompileM (Option ClassRef) := fun env st => .ok (classNamed? env st name, st)

def typeNamed (name : String) : CompileM (Option Ty) := fun env st => .ok (typeNamed? env st name, st)

def typeOfToken (t : Token) : CompileM Ty := do
  match ← typeNamed t.text with
  | some ty => pure ty
  | none => .fail (.unknownType t.text) t.span.start

/-! ## Declarations -/

/-- A name that can be bound. -/
def bindable (t : Token) : CompileM String :=
  if isReserved t.text then .fail (.reservedName t.text) t.span.start else pure t.text

def State.declared? (st : State) (name : String) : Option Declared := st.blocks.findSome? (·.get? name)

/-- Declares a name in the innermost block. Two explicit declarations there must agree. -/
def declare (name : String) (d : Declared) (offset : Nat) : CompileM Unit := do
  match (← CompileM.state).blocks with
  | [] => pure ()
  | block :: outer =>
    match block.get? name with
    | some earlier =>
      if d.explicit && earlier.explicit && earlier.ty != d.ty then .fail (.redeclared name) offset
    | none => pure ()
    CompileM.modify fun st => { st with blocks := block.insert name d :: outer }

/-- Compiles inside a block with some names. -/
def inBlock {α : Type} (names : Dict Declared) (x : CompileM α) : CompileM α := do
  CompileM.modify fun st => { st with blocks := names :: st.blocks }
  let a ← x
  CompileM.modify fun st => { st with blocks := st.blocks.tail }
  pure a

/-! ## Registers -/

/-- The register of a name that a function binds: the one it has, else a new one. A name that was read before it was
bound has none. -/
def Layout.allocate (l : Layout) (name : String) : Option Nat × Layout :=
  match l.registers.idxOf? name with
  | some i => (some i, l)
  | none =>
    if l.freeVars.contains name then (none, l)
    else (some l.registers.length, { l with registers := l.registers ++ [name] })

/-- Records a name that a function reads. -/
def Layout.read (l : Layout) (name : String) : Layout :=
  if l.registers.contains name || l.freeVars.contains name then l
  else { l with freeVars := l.freeVars ++ [name] }

/-- The register of a name bound at the current place. -/
def allocate (name : String) : CompileM (Option Nat) := fun _ st =>
  match st.layouts with
  | [] => .ok (none, st)
  | l :: outer =>
    match l.allocate name with
    | (register, l) => .ok (register, { st with layouts := l :: outer })

/-- Records that a name is read at the current place. Names of classes are not recorded. -/
def noteRead (name : String) : CompileM Unit := fun env st =>
  match st.layouts with
  | [] => .ok ((), st)
  | l :: outer =>
    if (classNamed? env st name).isSome then .ok ((), st)
    else .ok ((), { st with layouts := l.read name :: outer })

end Compile

end PathScript

/-! # Reading tokens

A reader takes a stream and returns what is left of it. That the rest is no
larger, and smaller wherever a token with text was taken, is part of the result:
it is why reading ends. -/

namespace PathScript.Compile

structure Taken (ts : Tokens) where
  token : Token
  rest : Tokens
  lt : token.inner.size + rest.size < ts.size

theorem Taken.rest_le {ts rest : Tokens} {t : Token} (lt : t.inner.size + rest.size < ts.size) :
    rest.size ≤ ts.size := by
  omega

theorem Taken.le_of_le {ts rest rest' : Tokens} {t : Token} (lt : t.inner.size + rest.size < ts.size)
    (le : rest'.size ≤ rest.size) : rest'.size ≤ ts.size :=
  Nat.le_trans le (rest_le lt)

/-- A name that was taken; an empty one takes nothing. -/
structure Named (ts : Tokens) where
  token : Token
  rest : Tokens
  le : rest.size ≤ ts.size

structure Parsed (ts : Tokens) where
  node : Node
  rest : Tokens
  le : rest.size ≤ ts.size

structure Part (ts : Tokens) (α : Type) where
  value : α
  rest : Tokens
  le : rest.size ≤ ts.size

/-- The fault of a token that cannot stand where it does. -/
def unexpected {α : Type} (t : Token) : CompileM α :=
  match t.kind with
  | .eof => .fail .unexpectedEnd t.span.start
  | _ => .fail (.unexpectedToken t.text) t.span.start

def peek (ts : Tokens) : CompileM Token := .ofExcept ts.head

def atEnd (ts : Tokens) : CompileM Bool := do pure ((← peek ts).kind == .eof)

def expectEnd (ts : Tokens) : CompileM Unit := do
  let t ← peek ts
  if t.kind != .eof then unexpected t

/-- Takes the next token if it passes a test and has text. -/
def take? (ts : Tokens) (p : Token → Bool) : CompileM (Option (Taken ts)) :=
  match ts with
  | .fail e => .ofExcept (.error e)
  | .cons t rest => if p t then pure (some ⟨t, rest, by rw [Tokens.size_cons]; omega⟩) else pure none
  | _ => pure none

def takeKind? (ts : Tokens) (kind : TokenKind) : CompileM (Option (Taken ts)) := take? ts (·.kind == kind)

def takeWord? (ts : Tokens) (word : String) : CompileM (Option (Taken ts)) := take? ts (·.isWord word)

/-- Takes a token of a kind that has to stand here. -/
def expect (ts : Tokens) (kind : TokenKind) (what : String) : CompileM (Taken ts) := do
  match ← takeKind? ts kind with
  | some t => pure t
  | none => .fail (.expected what) (← peek ts).span.start

/-- Takes a name, possibly an empty one, if one stands here. -/
def takeName? (ts : Tokens) : CompileM (Option (Named ts)) := do
  let t ← peek ts
  if t.kind == .ident then pure (some ⟨t, ts.tail, ts.size_tail_le⟩) else pure none

/-- Takes the name that has to stand here. -/
def expectName (ts : Tokens) (what : String) : CompileM (Named ts) := do
  match ← takeName? ts with
  | some n => pure n
  | none => .fail (.expected what) (← peek ts).span.start

/-- Takes the next token if it stands for something. -/
def takeAs? {α : Type} (ts : Tokens) (f : Token → Option α) : CompileM (Option (α × Taken ts)) := do
  match ← take? ts (fun t => (f t).isSome) with
  | none => pure none
  | some t => pure ((f t.token).map fun a => (a, t))

/-- The operator of an assignment sign, which a plain one does not have. -/
def assign? (t : Token) : Option (Option Operator) :=
  match t.kind with
  | .assign op => some op
  | _ => none

def operator? (t : Token) : Option Operator :=
  match t.kind with
  | .operator op => some op
  | .ident => Operator.ofWord? t.text
  | _ => none

/-- What is added by `++` or `--`. -/
def delta? (t : Token) : Option Int64 :=
  match t.kind with
  | .incr => some 1
  | .decr => some (-1)
  | _ => none

/-- What can stand before an operand. -/
inductive Sign where
  | not | minus | plus
  | change (delta : Int64)

def sign? (t : Token) : Option Sign :=
  match t.kind with
  | .not => some .not
  | .operator .sub => some .minus
  | .operator .add => some .plus
  | _ => (delta? t).map .change

end PathScript.Compile
